import WinArmVm.Parser
import Mathlib.Data.Nat.Digits.Lemmas
import Mathlib.Data.List.TakeWhile

namespace WinArmVm.Frontend

open Nat List StateRun

def valueIn (radix : Nat) (digits : List Char) : Nat := Nat.ofDigits radix (digits.map digitValue).reverse

theorem valueIn_concat (radix : Nat) (digits : List Char) (c : Char) :
    valueIn radix (digits ++ [c]) = valueIn radix digits * radix + digitValue c := by
  simp only [valueIn, map_append, map_cons, map_nil, reverse_append,
    reverse_cons, reverse_nil, nil_append, singleton_append, ofDigits_cons]
  rw [add_comm, mul_comm]

variable (digits : List Char)

theorem decimal_eq : decimal digits = valueIn 10 digits := by
  induction digits using List.reverseRecOn with
  | nil => rfl
  | append_singleton digits c ih =>
    rw [valueIn_concat, ← ih]
    simp only [decimal, foldl_append, foldl_cons, foldl_nil]
    rw [mul_comm]

theorem valueIn_zeros (k : Nat) : valueIn 10 (digits ++ List.replicate k '0') = valueIn 10 digits * 10 ^ k := by
  induction k with
  | zero => simp
  | succ k ih =>
    have hzero : digitValue '0' = 0 := by decide
    rw [replicate_succ', ← append_assoc, valueIn_concat, ih, hzero, add_zero, pow_succ, mul_assoc]

variable {start : Span} {cs rest : List Char} {tok : Tok} {negative : Bool} {radix : Nat}

theorem addDigit_digits (hr : 0 < radix) (n d : Nat) :
    addDigit radix (Nat.digits 256 n) d = Nat.digits 256 (n * radix + d) := by
  induction n using Nat.strong_induction_on generalizing d with
  | _ n ih =>
    by_cases hn : n = 0
    · simp [hn, addDigit]
    · have hpos : 0 < n := Nat.pos_of_ne_zero hn
      have hsum : 0 < n * radix + d := Nat.add_pos_left (Nat.mul_pos hpos hr) d
      have hsplit : n * radix + d = 256 * (n / 256 * radix) + (n % 256 * radix + d) := by
        calc n * radix + d = (256 * (n / 256) + n % 256) * radix + d := by rw [Nat.div_add_mod]
          _ = 256 * (n / 256 * radix) + (n % 256 * radix + d) := by ring
      have hmod : (n * radix + d) % 256 = (n % 256 * radix + d) % 256 := by
        rw [hsplit]
        omega
      have hdiv : (n * radix + d) / 256 = n / 256 * radix + (n % 256 * radix + d) / 256 := by
        rw [hsplit]
        omega
      rw [Nat.digits_def' (by decide) hpos, addDigit, ih (n / 256) (by omega),
        Nat.digits_def' (by decide) hsum, hmod, hdiv]

theorem intLitMagnitude_eq (hr : 0 < radix) (digits : List Char) :
    intLitMagnitude radix digits = Nat.digits 256 (valueIn radix digits) := by
  induction digits using List.reverseRecOn with
  | nil => rfl
  | append_singleton digits c ih =>
    have hstep : intLitMagnitude radix (digits ++ [c]) = addDigit radix (intLitMagnitude radix digits) (digitValue c) := by
      simp only [intLitMagnitude, foldl_append, foldl_cons, foldl_nil]
    rw [hstep, ih, addDigit_digits hr, valueIn_concat]

def Literal.ofInt (v : Int) : Literal :=
  if -2 ^ 61 ≤ v ∧ v < 2 ^ 61 then .int v else .bigInt (decide (v < 0)) (Nat.digits 256 v.natAbs)

def signed (negative : Bool) (n : Nat) : Int := if negative then -(n : Int) else n

theorem intLitToLiteral_eq (hr : 0 < radix) (negative : Bool) (digits : List Char) :
    Parser.intLitToLiteral negative radix digits = Literal.ofInt (signed negative (valueIn radix digits)) := by
  have hvalue : Nat.ofDigits (256 : Int) (Nat.digits 256 (valueIn radix digits)) = (valueIn radix digits : Int) := by
    have hcast := coe_ofDigits Int 256 (Nat.digits 256 (valueIn radix digits))
    rw [ofDigits_digits] at hcast
    exact hcast.symm
  unfold Parser.intLitToLiteral Literal.ofInt
  rw [intLitMagnitude_eq hr]
  simp only [hvalue]
  generalize valueIn radix digits = n
  have hlength : n ≤ 2 ^ 61 → (Nat.digits 256 n).length ≤ 8 := by
    intro hn
    apply (digits_length_le_iff (by decide) n).mpr
    omega
  cases negative with
  | false =>
    simp only [signed, Bool.false_eq_true, if_false]
    by_cases hn : (n : Int) ≤ 2 ^ 61 - 1
    · rw [if_pos ⟨hlength (by omega), hn⟩, if_pos (by omega)]
    · rw [if_neg fun h => hn h.2, if_neg (by omega)]
      simp
  | true =>
    simp only [signed, if_true]
    by_cases hn : (n : Int) ≤ 2 ^ 61
    · rw [if_pos ⟨hlength (by omega), hn⟩, if_pos (by omega)]
    · have hneg : -(n : Int) < 0 := by omega
      rw [if_neg fun h => hn h.2, if_neg (by omega), Int.natAbs_neg, Int.natAbs_natCast, decide_eq_true hneg]

/-- The literal denotes the integer: a small integer where it fits, else the sign and the shortest magnitude, lowest
byte first. -/
def Literal.Denotes : Literal → Int → Prop
  | .int w, v => w = v ∧ -2 ^ 61 ≤ v ∧ v ≤ 2 ^ 61 - 1
  | .bigInt negative mag, v => (v < -2 ^ 61 ∨ 2 ^ 61 - 1 < v) ∧ negative = decide (v < 0) ∧
      Nat.ofDigits 256 mag = v.natAbs ∧ (∀ b ∈ mag, b < 256) ∧ mag.getLast? ≠ some 0
  | _, _ => False

theorem Literal.ofInt_denotes (v : Int) : (Literal.ofInt v).Denotes v := by
  unfold Literal.ofInt
  split
  next h => exact ⟨rfl, h.1, by omega⟩
  next h =>
    refine ⟨by omega, rfl, ofDigits_digits 256 _, fun b hb => digits_lt_base (by decide) hb, ?_⟩
    intro hlast
    have hne : Nat.digits 256 v.natAbs ≠ [] := by
      rw [digits_ne_nil_iff_ne_zero]
      omega
    rw [getLast?_eq_some_getLast hne] at hlast
    exact getLast_digit_ne_zero 256 (by omega) (Option.some.inj hlast)

def IsDigits (ds : List Char) : Prop := ds ≠ [] ∧ ∀ c ∈ ds, c.isDigit = true

/-- An unsigned integer: plain, with an exponent, or in a radix. -/
inductive IntegerText : List Char → Nat → Prop
  | plain {ds : List Char} (h : IsDigits ds) : IntegerText ds (valueIn 10 ds)
  | exponent {ds ex : List Char} {marker : Char} (h : IsDigits ds) (hm : marker = 'e' ∨ marker = 'E') (hex : IsDigits ex) :
      IntegerText (ds ++ marker :: ex) (valueIn 10 ds * 10 ^ valueIn 10 ex)
  | radix {lead ds : List Char} (h : IsDigits lead) (hlow : 2 ≤ valueIn 10 lead) (hhigh : valueIn 10 lead ≤ 36)
      (hne : ds ≠ []) (hds : ∀ c ∈ ds, (c.isDigit = true ∨ c.isUpper = true) ∧ digitValue c < valueIn 10 lead) :
      IntegerText (lead ++ 'r' :: ds) (valueIn (valueIn 10 lead) ds)

/-- An unsigned scaled decimal, with its numerator, its denominator and its scale; the scale is that of the
fraction where none is written. -/
inductive ScaledText : List Char → Nat → Nat → Nat → Prop
  | whole {ds : List Char} (h : IsDigits ds) : ScaledText (ds ++ ['s']) (valueIn 10 ds) 1 0
  | wholeScaled {ds sc : List Char} (h : IsDigits ds) (hsc : IsDigits sc) :
      ScaledText (ds ++ 's' :: sc) (valueIn 10 ds) 1 (valueIn 10 sc)
  | fraction {ds fs : List Char} (h : IsDigits ds) (hf : IsDigits fs) :
      ScaledText (ds ++ '.' :: (fs ++ ['s'])) (valueIn 10 (ds ++ fs)) (10 ^ fs.length) (min fs.length 65535)
  | fractionScaled {ds fs sc : List Char} (h : IsDigits ds) (hf : IsDigits fs) (hsc : IsDigits sc) :
      ScaledText (ds ++ '.' :: (fs ++ 's' :: sc)) (valueIn 10 (ds ++ fs)) (10 ^ fs.length) (valueIn 10 sc)

def TokenOf (negative : Bool) (cs rest : List Char) : Tok → Prop
  | .intLit neg radix digits => neg = negative ∧ 0 < radix ∧
      ∃ text, cs = text ++ rest ∧ IntegerText text (valueIn radix digits)
  | .scaledLit neg intDigits fracDigits scale => neg = negative ∧
      ∃ text, cs = text ++ rest ∧ ScaledText text (valueIn 10 (intDigits ++ fracDigits)) (10 ^ fracDigits.length) scale
  | _ => True

theorem peekIs_cons {p : Char → Bool} {cs : List Char} (h : peekIs p cs = true) : ∃ c rest, cs = c :: rest ∧ p c = true := by
  cases cs with
  | nil => cases h
  | cons c rest => exact ⟨c, rest, rfl, by simpa [peekIs] using h⟩

theorem isDigits_takeWhile {cs : List Char} (h : peekIs Char.isDigit cs = true) : IsDigits (cs.takeWhile Char.isDigit) := by
  obtain ⟨c, rest, rfl, hc⟩ := peekIs_cons h
  constructor
  · simp [hc]
  · intro d hd
    exact mem_takeWhile_imp hd

variable {lead cs rest : List Char} {c : Char} {scale : Nat}

theorem tryConsumeScale_some {default : Nat} (h : tryConsumeScale default start cs = .ok (some (scale, rest))) :
    (cs = 's' :: rest ∧ scale = default) ∨ ∃ sc, cs = 's' :: (sc ++ rest) ∧ IsDigits sc ∧ scale = valueIn 10 sc := by
  unfold tryConsumeScale at h
  by_cases hs : peekIs (· == 's') cs = true
  · obtain ⟨c, tail, rfl, hc⟩ := peekIs_cons hs
    have hc : c = 's' := by simpa using hc
    subst hc
    rw [if_pos hs, tail_cons] at h
    by_cases hd : peekIs Char.isDigit tail = true
    · rw [if_pos hd] at h
      by_cases hbig : decimal (tail.takeWhile Char.isDigit) > 65535
      · simp only [if_pos hbig] at h
        cases h
      · simp only [if_neg hbig] at h
        cases h
        right
        exact ⟨tail.takeWhile Char.isDigit, by rw [takeWhile_append_dropWhile], isDigits_takeWhile hd, decimal_eq _⟩
    · rw [if_neg hd] at h
      by_cases hw : peekIs (fun c => isIdentCont c || c == ':') tail = true
      · rw [if_pos hw] at h
        cases h
      · rw [if_neg hw] at h
        cases h
        exact .inl ⟨rfl, rfl⟩
  · rw [if_neg hs] at h
    cases h

theorem tryConsumeExponent_some {cs rest digits : List Char} {marker : Char} {neg : Bool}
    (h : tryConsumeExponent cs = some ((marker, neg, digits), rest)) :
    ∃ c, cs = c :: ((if neg then ['-'] else []) ++ digits ++ rest) ∧ isExponentMarker c = true ∧ marker = c.toLower ∧
      IsDigits digits := by
  cases cs with
  | nil => cases h
  | cons c cs =>
    by_cases hc : isExponentMarker c = true
    · simp only [tryConsumeExponent, if_pos hc] at h
      generalize htail : (if peekIs (· == '-') cs = true then cs.tail else cs) = tail at h
      have hcs : cs = (if peekIs (· == '-') cs = true then ['-'] else []) ++ tail := by
        by_cases hneg : peekIs (· == '-') cs = true
        · obtain ⟨d, t, rfl, hm⟩ := peekIs_cons hneg
          have hm : d = '-' := by simpa using hm
          subst hm
          rw [if_pos hneg] at htail ⊢
          rw [← htail]
          rfl
        · rw [if_neg hneg] at htail ⊢
          exact htail
      by_cases hd : peekIs Char.isDigit tail = true
      · rw [if_pos hd] at h
        cases h
        refine ⟨c, ?_, hc, rfl, isDigits_takeWhile hd⟩
        rw [append_assoc, takeWhile_append_dropWhile, ← hcs]
      · rw [if_neg hd] at h
        cases h
    · simp only [tryConsumeExponent, if_neg hc] at h
      cases h

theorem lexRadix_token (hlead : IsDigits lead)
    (h : lexRadix negative start lead cs = .ok (tok, rest)) : TokenOf negative (lead ++ 'r' :: cs) rest tok := by
  unfold lexRadix at h
  generalize hradix : (if decimal lead < 2 ^ 32 then decimal lead else 0) = radix at h
  by_cases hrange : radix < 2 ∨ 36 < radix
  · simp only [if_pos hrange] at h
    cases h
  · simp only [if_neg hrange] at h
    have hvalue : radix = valueIn 10 lead := by
      rw [decimal_eq] at hradix
      split at hradix
      next => exact hradix.symm
      next => omega
    by_cases hne : (cs.takeWhile isRadixDigit).isEmpty = true
    · rw [if_pos hne] at h
      cases h
    · rw [if_neg hne] at h
      cases hfind : (cs.takeWhile isRadixDigit).find? fun c => decide (radix ≤ digitValue c) with
      | some c =>
        rw [hfind] at h
        cases h
      | none =>
        rw [hfind] at h
        cases h
        refine ⟨rfl, by omega, lead ++ 'r' :: cs.takeWhile isRadixDigit, ?_, ?_⟩
        · simp
        · rw [hvalue]
          apply IntegerText.radix hlead (by omega) (by omega) (by simpa using hne)
          intro c hc
          have hdigit : isRadixDigit c = true := mem_takeWhile_imp hc
          have hvalid := find?_eq_none.mp hfind c hc
          rw [decide_eq_true_iff] at hvalid
          refine ⟨by simpa [isRadixDigit] using hdigit, by omega⟩

theorem eq_e_of_toLower (hc : isExponentMarker c = true) (h : (c.toLower == 'e') = true) : c = 'e' ∨ c = 'E' := by
  simp only [isExponentMarker, Bool.or_eq_true, beq_iff_eq] at hc
  obtain ((rfl | rfl) | rfl) | rfl := hc
  · exact .inl rfl
  · exact .inr rfl
  · exact absurd h (by decide)
  · exact absurd h (by decide)

theorem scaled_token (negative : Bool) (fs : List Char) (hlead : IsDigits lead)
    (hfs : fs = [] ∨ IsDigits fs) (h : tryConsumeScale (min fs.length 65535) start cs = .ok (some (scale, rest))) :
    TokenOf negative (lead ++ (if fs = [] then [] else '.' :: fs) ++ cs) rest (.scaledLit negative lead fs scale) := by
  refine ⟨rfl, ?_⟩
  obtain rfl | hfs := hfs
  · obtain ⟨rfl, rfl⟩ | ⟨sc, rfl, hsc, rfl⟩ := tryConsumeScale_some h
    · refine ⟨lead ++ ['s'], by simp, ?_⟩
      have := ScaledText.whole hlead
      simpa using this
    · refine ⟨lead ++ 's' :: sc, by simp, ?_⟩
      have := ScaledText.wholeScaled hlead hsc
      simpa using this
  · rw [if_neg hfs.1]
    obtain ⟨rfl, rfl⟩ | ⟨sc, rfl, hsc, rfl⟩ := tryConsumeScale_some h
    · exact ⟨lead ++ '.' :: (fs ++ ['s']), by simp, ScaledText.fraction hlead hfs⟩
    · exact ⟨lead ++ '.' :: (fs ++ 's' :: sc), by simp, ScaledText.fractionScaled hlead hfs hsc⟩

theorem exponent_token (hlead : IsDigits lead) (h : (match tryConsumeExponent cs with
      | some ((marker, neg, digits), cs) =>
        if marker == 'e' && !neg then
          if 2 ^ 32 ≤ decimal digits then .error (lexError start "integer exponent too large")
          else if 10000 < decimal digits then
            .error (lexError start "integer exponent too large (limit 10000 digits)")
          else .ok (.intLit negative 10 (lead ++ List.replicate (decimal digits) '0'), cs)
        else .ok (.floatLit negative (String.ofList lead ++ exponentText neg digits), cs)
      | none => .ok (.intLit negative 10 lead, cs)) = (.ok (tok, rest) : Except CompileError (Tok × List Char))) :
    TokenOf negative (lead ++ cs) rest tok := by
  cases hexp : tryConsumeExponent cs with
  | none =>
    rw [hexp] at h
    cases h
    exact ⟨rfl, by decide, lead, rfl, .plain hlead⟩
  | some found =>
    obtain ⟨⟨marker, neg, digits⟩, cs'⟩ := found
    obtain ⟨c, rfl, hc, rfl, hdigits⟩ := tryConsumeExponent_some hexp
    rw [hexp] at h
    simp only at h
    by_cases hint : (c.toLower == 'e' && !neg) = true
    · rw [if_pos hint] at h
      obtain ⟨hmarker, hneg⟩ := Bool.and_eq_true_iff.mp hint
      have hneg : neg = false := by simpa using hneg
      subst hneg
      by_cases hhuge : 2 ^ 32 ≤ decimal digits
      · rw [if_pos hhuge] at h
        cases h
      · rw [if_neg hhuge] at h
        by_cases hbig : 10000 < decimal digits
        · rw [if_pos hbig] at h
          cases h
        · rw [if_neg hbig] at h
          cases h
          refine ⟨rfl, by decide, lead ++ c :: digits, by simp, ?_⟩
          rw [valueIn_zeros, decimal_eq]
          exact .exponent hlead (eq_e_of_toLower hc hmarker) hdigits
    · rw [if_neg hint] at h
      cases h
      trivial

theorem lexNumber_token (hdigit : peekIs Char.isDigit cs = true) (h : lexNumber negative start cs = .ok (tok, rest)) :
    TokenOf negative cs rest tok := by
  have hlead := isDigits_takeWhile hdigit
  have hcs : cs.takeWhile Char.isDigit ++ cs.dropWhile Char.isDigit = cs := takeWhile_append_dropWhile
  unfold lexNumber at h
  simp only at h
  generalize cs.takeWhile Char.isDigit = lead at h hlead hcs
  generalize cs.dropWhile Char.isDigit = tail at h hcs
  subst hcs
  by_cases hr : peekIs (· == 'r') tail = true
  · rw [if_pos hr] at h
    obtain ⟨c, tail, rfl, hc⟩ := peekIs_cons hr
    have hc : c = 'r' := by simpa using hc
    subst hc
    exact lexRadix_token hlead h
  · rw [if_neg hr] at h
    by_cases hdot : (peekIs (· == '.') tail && peekIs Char.isDigit tail.tail) = true
    · rw [if_pos hdot] at h
      obtain ⟨hdot, hfrac⟩ := Bool.and_eq_true_iff.mp hdot
      obtain ⟨c, tail, rfl, hc⟩ := peekIs_cons hdot
      have hc : c = '.' := by simpa using hc
      subst hc
      have hfs := isDigits_takeWhile hfrac
      have htail : tail.takeWhile Char.isDigit ++ tail.dropWhile Char.isDigit = tail := takeWhile_append_dropWhile
      rw [tail_cons] at h hfs
      generalize tail.takeWhile Char.isDigit = fs at h hfs htail
      generalize tail.dropWhile Char.isDigit = after at h htail
      subst htail
      cases hscale : tryConsumeScale (min fs.length 65535) start after with
      | error e =>
        rw [hscale] at h
        cases h
      | ok found =>
        rw [hscale] at h
        cases found with
        | some found =>
          cases h
          have := scaled_token negative fs hlead (.inr hfs) hscale
          rw [if_neg hfs.1] at this
          simpa using this
        | none =>
          -- a fraction without a scale is a float
          cases hexp : tryConsumeExponent after with
          | none =>
            rw [hexp] at h
            cases h
            trivial
          | some found =>
            rw [hexp] at h
            cases h
            trivial
    · rw [if_neg hdot] at h
      cases hscale : tryConsumeScale 0 start tail with
      | error e =>
        rw [hscale] at h
        cases h
      | ok found =>
        rw [hscale] at h
        cases found with
        | some found =>
          cases h
          have := scaled_token negative [] hlead (.inl rfl) hscale
          simpa using this
        | none => exact exponent_token hlead h

theorem punctuation_token {t : Tok} (h : punctuation c = some t) : TokenOf negative cs rest t := by
  unfold punctuation at h
  repeat (split at h; next => cases h; trivial)
  cases h

theorem hash_token {pragmaMode negative : Bool} {cs rest text : List Char}
    (h : lexHash pragmaMode start cs = .ok (tok, rest)) : TokenOf negative text rest tok := by
  unfold lexHash at h
  simp only at h
  split at h
  next => cases h
  next c tail htail =>
    split at h
    next => cases h; trivial
    next =>
      split at h
      next => cases h; trivial
      next =>
        split at h
        next =>
          cases hq : lexQuotedText start cs.tail with
          | error e => rw [hq] at h; cases h
          | ok r => rw [hq] at h; cases h; trivial
        next =>
          split at h
          next => cases h; trivial
          next =>
            split at h
            next => cases h; trivial
            next =>
              split at h
              next => cases h; trivial
              next => cases h

def signText (negative : Bool) (text : List Char) : List Char := if negative then '-' :: text else text

theorem scanToken_number {l : Lexer} (h : l.scanToken start c cs = .ok (tok, rest)) :
    ∃ negative text, c :: cs = signText negative text ∧ TokenOf negative text rest tok := by
  unfold Lexer.scanToken at h
  by_cases hid : isIdentStart c = true
  · rw [if_pos hid] at h
    refine ⟨false, c :: cs, rfl, ?_⟩
    simp only [lexIdentOrKeyword] at h
    split at h
    next => cases h; trivial
    next => cases h; trivial
  rw [if_neg hid] at h
  by_cases hdigit : c.isDigit = true
  · rw [if_pos hdigit] at h
    exact ⟨false, c :: cs, rfl, lexNumber_token (by simpa [peekIs] using hdigit) h⟩
  rw [if_neg hdigit] at h
  by_cases hminus : (c == '-') = true
  · rw [if_pos hminus] at h
    have hc : c = '-' := by simpa using hminus
    subst hc
    by_cases hneg : (peekIs Char.isDigit cs && (l.inLiteralSeq || !l.prevEndsExpr)) = true
    · rw [if_pos hneg] at h
      exact ⟨true, cs, rfl, lexNumber_token (Bool.and_eq_true_iff.mp hneg).1 h⟩
    · rw [if_neg hneg] at h
      cases h
      exact ⟨false, _, rfl, trivial⟩
  rw [if_neg hminus] at h
  -- no other character begins a number
  refine ⟨false, c :: cs, rfl, ?_⟩
  by_cases hdollar : (c == '$') = true
  · rw [if_pos hdollar] at h
    cases cs with
    | nil => cases h
    | cons d cs => cases h; trivial
  rw [if_neg hdollar] at h
  by_cases hquote : (c == singleQuote) = true
  · rw [if_pos hquote] at h
    cases hq : lexQuotedText start (c :: cs) with
    | error e => rw [hq] at h; cases h
    | ok r => rw [hq] at h; cases h; trivial
  rw [if_neg hquote] at h
  by_cases hhash : (c == '#') = true
  · rw [if_pos hhash] at h
    exact hash_token h
  rw [if_neg hhash] at h
  cases hpunct : punctuation c with
  | some t =>
    rw [hpunct] at h
    cases h
    exact punctuation_token hpunct
  | none =>
    rw [hpunct] at h
    simp only at h
    by_cases hcolon : (c == ':') = true
    · rw [if_pos hcolon] at h
      split at h
      next => cases h; trivial
      next => cases h; trivial
    · rw [if_neg hcolon] at h
      split at h
      next => cases h; trivial
      next => cases h

theorem nextToken_number {l l' : Lexer} (h : l.nextToken = .ok ((tok, start), l')) :
    tok = .eof ∨ ∃ front negative text, skipTrivia l.rest none l.here = .ok (start, front) ∧
      front = signText negative text ∧ TokenOf negative text l'.rest tok := by
  unfold Lexer.nextToken at h
  split at h
  next => cases h
  next =>
    cases h
    exact .inl rfl
  next start' c cs hskip =>
    cases hscan : l.scanToken start' c cs with
    | error e =>
      rw [hscan] at h
      cases h
    | ok found =>
      obtain ⟨negative, text, hfront, htoken⟩ := scanToken_number hscan
      rw [hscan] at h
      cases h
      exact .inr ⟨c :: cs, negative, text, hskip, hfront, htoken⟩

section Built

variable {turns : Nat} {p : Parser} {start : Span} {negative : Bool} {digits : List Char} {radix : Nat}

theorem parsePrimary_intLit (expression : Parse Expr) (hcur : p.cur = (.intLit negative radix digits, start)) :
    Parser.parsePrimary turns expression p = (do
      Parser.bump
      pure (Expr.lit (Parser.intLitToLiteral negative radix digits) start, false)) p := by
  obtain ⟨lx, cur, peeked, depth⟩ := p
  cases hcur
  rfl

theorem parsePrimary_scaledLit {intDigits fracDigits : List Char} {scale : Nat} (expression : Parse Expr)
    (hcur : p.cur = (.scaledLit negative intDigits fracDigits scale, start)) :
    Parser.parsePrimary turns expression p = (do
      Parser.bump
      pure (Parser.scaledSend negative intDigits fracDigits scale start, false)) p := by
  obtain ⟨lx, cur, peeked, depth⟩ := p
  cases hcur
  rfl

theorem parseArrayElem_intLit (elems : Parse (List Literal)) (hcur : p.cur = (.intLit negative radix digits, start)) :
    Parser.parseArrayElem turns elems p = (do
      Parser.bump
      pure (Parser.intLitToLiteral negative radix digits)) p := by
  obtain ⟨lx, cur, peeked, depth⟩ := p
  cases hcur
  rfl

end Built

theorem pow_ten_value (k : Nat) : valueIn 10 ('1' :: List.replicate k '0') = 10 ^ k := by
  have h := valueIn_zeros ['1'] k
  have hone : valueIn 10 ['1'] = 1 := by decide
  rw [hone, one_mul] at h
  exact h

/-- The parser moves past a number's token and gives the literal that denotes the number written: the integer itself, in
an expression and in a literal array, and the numerator and the denominator of a scaled decimal. -/
theorem numeral_literal_exact {l l' : Lexer} {tok : Tok} {start : Span} (h : l.nextToken = .ok ((tok, start), l')) :
    (∀ neg radix digits, tok = .intLit neg radix digits → ∃ text value, ∃ lit : Literal,
      skipTrivia l.rest none l.here = .ok (start, signText neg text ++ l'.rest) ∧ IntegerText text value ∧
      lit.Denotes (signed neg value) ∧
      ∀ turns (p : Parser), p.cur = (tok, start) →
        (∀ expression, Parser.parsePrimary turns expression p = (do
          Parser.bump
          pure (Expr.lit lit start, false)) p) ∧
        ∀ elems, Parser.parseArrayElem turns elems p = (do
          Parser.bump
          pure lit) p) ∧
    (∀ neg intDigits fracDigits scale, tok = .scaledLit neg intDigits fracDigits scale →
      ∃ text numerator denominator, ∃ num den : Literal,
      skipTrivia l.rest none l.here = .ok (start, signText neg text ++ l'.rest) ∧
      ScaledText text numerator denominator scale ∧ num.Denotes (signed neg numerator) ∧ den.Denotes denominator ∧
      ∀ turns expression (p : Parser), p.cur = (tok, start) → Parser.parsePrimary turns expression p = (do
        Parser.bump
        pure (Expr.send (.var "ScaledDecimal" start) "numerator:denominator:scale:"
          [.lit num start, .lit den start, .lit (.int scale) start] false start, false)) p) := by
  have hfront : ∀ neg (text rest : List Char), signText neg (text ++ rest) = signText neg text ++ rest := by
    intro neg text rest
    cases neg <;> rfl
  obtain rfl | ⟨front, negative, text, hskip, rfl, htoken⟩ := nextToken_number h
  · exact ⟨fun _ _ _ heof => (nomatch heof), fun _ _ _ _ heof => (nomatch heof)⟩
  · constructor
    · rintro neg radix digits rfl
      obtain ⟨rfl, hradix, text, rfl, htext⟩ := htoken
      rw [hfront] at hskip
      refine ⟨text, _, Parser.intLitToLiteral neg radix digits, hskip, htext, ?_, ?_⟩
      · rw [intLitToLiteral_eq hradix]
        exact Literal.ofInt_denotes _
      · intro turns p hcur
        exact ⟨fun expression => parsePrimary_intLit expression hcur, fun elems => parseArrayElem_intLit elems hcur⟩
    · rintro neg intDigits fracDigits scale rfl
      obtain ⟨rfl, text, rfl, htext⟩ := htoken
      rw [hfront] at hskip
      refine ⟨text, _, _, _, _, hskip, htext, ?_, ?_, fun turns expression p hcur => parsePrimary_scaledLit expression hcur⟩
      · rw [intLitToLiteral_eq (by decide)]
        exact Literal.ofInt_denotes _
      · have hsigned : ∀ n, signed false n = (n : Int) := fun n => rfl
        rw [intLitToLiteral_eq (by decide), pow_ten_value, hsigned]
        exact Literal.ofInt_denotes _

/-- The minus sign, three digits and a full stop: the parser stands on the token and the lexer behind it. -/
theorem numeral_literal_exact_minus_907 :
    ∃ text value p', signText true text ++ ['.'] = ['-', '9', '0', '7', '.'] ∧ IntegerText text value ∧
      (Literal.int (-907)).Denotes (signed true value) ∧
      Parser.parsePrimary 1 exhausted ⟨⟨['.'], ⟨1, 5⟩, true, false, false⟩, (.intLit true 10 ['9', '0', '7'], ⟨1, 1⟩), none, 0⟩ =
        some (.ok ((.lit (.int (-907)) ⟨1, 1⟩, false), p')) := by
  have h : (Lexer.new ['-', '9', '0', '7', '.']).nextToken =
      .ok ((.intLit true 10 ['9', '0', '7'], ⟨1, 1⟩), ⟨['.'], ⟨1, 5⟩, true, false, false⟩) := rfl
  obtain ⟨text, value, lit, hskip, htext, hdenotes, hparse⟩ := (numeral_literal_exact h).1 true 10 ['9', '0', '7'] rfl
  have hlit := (hparse 1 ⟨⟨['.'], ⟨1, 5⟩, true, false, false⟩, (.intLit true 10 ['9', '0', '7'], ⟨1, 1⟩), none, 0⟩ rfl).1
    exhausted
  have hbuilt : lit = .int (-907) := by
    cases hlit
    rfl
  rw [hbuilt] at hdenotes hlit
  have hfront : (.ok (⟨1, 1⟩, ['-', '9', '0', '7', '.']) : Except CompileError (Span × List Char)) =
      .ok (⟨1, 1⟩, signText true text ++ ['.']) := hskip
  exact ⟨text, value, _, (Prod.mk.inj (Except.ok.inj hfront)).2.symm, htext, hdenotes, hlit.trans rfl⟩

end WinArmVm.Frontend
