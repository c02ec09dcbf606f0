import WinArmVm.ScaledDecimal
import WinArmVm.ClassParser
import WinArmVm.Numerals

namespace WinArmVm

open Nat List

namespace Frontend

open IntegerOop (small large)
open StateRun

def Literal.integer? : Literal → Option IntegerOop
  | .int v => some (small v)
  | .bigInt negative digits => some (large ⟨negative, digits⟩)
  | _ => none

def Expr.scaledDecimal? : Expr → Option ScaledDecimal
  | .send (.var receiver _) selector [.lit n _, .lit d _, .lit (.int s) _] false _ =>
    if receiver = "ScaledDecimal" ∧ selector = "numerator:denominator:scale:" then do
      ScaledDecimal.fromParts (← n.integer?) (← d.integer?) s.toNat
    else none
  | _ => none

def readExpression (turns : Nat) (input : List Char) : Option (Except CompileError (Expr × Parser)) :=
  match Parser.new input with
  | .error e => some (.error e)
  | .ok p => Parser.parseExpression turns p

def scaledBody (whole places scale : List Char) : List Char :=
  whole ++ ((if places = [] then [] else '.' :: places) ++ 's' :: scale)

variable {whole places scale : List Char} {negative : Bool} {start : Span}

theorem takeWhile_digits {c : Char} (rest : List Char) (h : ∀ e ∈ whole, e.isDigit = true) (hc : c.isDigit = false) :
    (whole ++ c :: rest).takeWhile Char.isDigit = whole ∧ (whole ++ c :: rest).dropWhile Char.isDigit = c :: rest := by
  rw [takeWhile_append_of_pos h, dropWhile_append_of_pos h, takeWhile_cons, dropWhile_cons, hc]
  exact ⟨append_nil _, rfl⟩

theorem takeWhile_all_digits (h : ∀ e ∈ whole, e.isDigit = true) :
    whole.takeWhile Char.isDigit = whole ∧ whole.dropWhile Char.isDigit = [] :=
  ⟨takeWhile_eq_self_iff.mpr h, dropWhile_eq_nil_iff.mpr h⟩

theorem peekIs_isDigit (h : IsDigits whole) (rest : List Char) : peekIs Char.isDigit (whole ++ rest) = true := by
  obtain ⟨hne, hall⟩ := h
  cases whole with
  | nil => exact absurd rfl hne
  | cons c whole => exact hall c mem_cons_self

def scaledToken (negative : Bool) (start : Span) (whole places scale : List Char) : Except CompileError (Tok × List Char) :=
  if valueIn 10 scale > 65535 then .error (lexError start "scaled-decimal scale too large")
  else .ok (.scaledLit negative whole places (valueIn 10 scale), [])

theorem tryConsumeScale_digits (default : Nat) (hscale : IsDigits scale) :
    tryConsumeScale default start ('s' :: scale) =
      if valueIn 10 scale > 65535 then .error (lexError start "scaled-decimal scale too large")
      else .ok (some (valueIn 10 scale, [])) := by
  have hdigit := peekIs_isDigit hscale []
  rw [append_nil] at hdigit
  obtain ⟨htake, hdrop⟩ := takeWhile_all_digits hscale.2
  have hs : peekIs (· == 's') ('s' :: scale) = true := rfl
  have htail : ('s' :: scale).tail = scale := rfl
  unfold tryConsumeScale
  rw [if_pos hs, htail, if_pos hdigit, htake, hdrop, decimal_eq]

theorem lexNumber_scaled (hwhole : IsDigits whole) (hplaces : ∀ c ∈ places, c.isDigit = true) (hscale : IsDigits scale) :
    lexNumber negative start (scaledBody whole places scale) = scaledToken negative start whole places scale := by
  unfold lexNumber scaledBody scaledToken
  cases places with
  | nil =>
    obtain ⟨htake, hdrop⟩ := takeWhile_digits scale hwhole.2 (show ('s').isDigit = false by decide)
    have hr : peekIs (· == 'r') ('s' :: scale) = false := rfl
    have hpoint : peekIs (· == '.') ('s' :: scale) = false := rfl
    simp only [if_true, nil_append, htake, hdrop, hr, hpoint, Bool.false_and, Bool.false_eq_true, if_false]
    rw [tryConsumeScale_digits 0 hscale]
    by_cases hbig : valueIn 10 scale > 65535
    · rw [if_pos hbig, if_pos hbig]
    · rw [if_neg hbig, if_neg hbig]
  | cons c places =>
    obtain ⟨htake, hdrop⟩ := takeWhile_digits ((c :: places) ++ 's' :: scale) hwhole.2
      (show ('.').isDigit = false by decide)
    obtain ⟨htake', hdrop'⟩ := takeWhile_digits scale hplaces (show ('s').isDigit = false by decide)
    have hdigit := peekIs_isDigit ⟨cons_ne_nil c places, hplaces⟩ ('s' :: scale)
    have hr : peekIs (· == 'r') ('.' :: (c :: places ++ 's' :: scale)) = false := rfl
    have hpoint : peekIs (· == '.') ('.' :: (c :: places ++ 's' :: scale)) = true := rfl
    rw [if_neg (cons_ne_nil c places), cons_append]
    simp only [htake, hdrop, hr, hpoint, hdigit, tail_cons, htake', hdrop', Bool.and_self, Bool.false_eq_true,
      if_false, if_true]
    rw [tryConsumeScale_digits _ hscale]
    by_cases hbig : valueIn 10 scale > 65535
    · rw [if_pos hbig, if_pos hbig]
    · rw [if_neg hbig, if_neg hbig]

theorem digit_starts {c : Char} (h : c.isDigit = true) :
    isWhitespace c = false ∧ (c == doubleQuote) = false ∧ isIdentStart c = false := by
  obtain ⟨hlow, hhigh⟩ := IntegerOop.toNat_of_isDigit h
  refine ⟨?_, ?_, ?_⟩
  · unfold isWhitespace
    simp
    omega
  · rw [beq_eq_false_iff_ne]
    rintro rfl
    exact absurd hlow (by decide)
  · unfold isIdentStart
    rw [Bool.or_eq_false_iff, beq_eq_false_iff_ne]
    refine ⟨?_, ?_⟩
    · have hval : c.val.toNat = c.toNat := rfl
      show (decide (c.val ≥ 'A'.val ∧ c.val ≤ 'Z'.val) || decide (c.val ≥ 'a'.val) && decide (c.val ≤ 'z'.val)) = false
      simp [UInt32.le_iff_toNat_le, hval]
      omega
    · rintro rfl
      exact absurd hhigh (by decide)

theorem new_scaled (hwhole : IsDigits whole) (hplaces : ∀ c ∈ places, c.isDigit = true) (hscale : IsDigits scale) :
    (valueIn 10 scale ≤ 65535 → ∃ here, Parser.new (signText negative (scaledBody whole places scale)) =
        .ok ⟨⟨[], here, true, false, false⟩, (.scaledLit negative whole places (valueIn 10 scale), ⟨1, 1⟩), none, 0⟩) ∧
      (65535 < valueIn 10 scale → Parser.new (signText negative (scaledBody whole places scale)) =
        .error ⟨⟨1, 1⟩, "scaled-decimal scale too large", false⟩) := by
  have hlex := @lexNumber_scaled whole places scale negative ⟨1, 1⟩ hwhole hplaces hscale
  obtain ⟨c, body, hbody, hc⟩ : ∃ c body, scaledBody whole places scale = c :: body ∧ c.isDigit = true := by
    have hpeek := peekIs_isDigit hwhole ((if places = [] then [] else '.' :: places) ++ 's' :: scale)
    obtain ⟨c, body, hbody, hc⟩ := peekIs_cons hpeek
    exact ⟨c, body, hbody, hc⟩
  obtain ⟨hspace, hquote, hident⟩ := digit_starts hc
  obtain ⟨first, tail, hfirst, hskip, hscan⟩ : ∃ first tail,
      signText negative (scaledBody whole places scale) = first :: tail ∧
        skipTrivia (first :: tail) none ⟨1, 1⟩ = .ok (⟨1, 1⟩, first :: tail) ∧
        (Lexer.new (first :: tail)).scanToken ⟨1, 1⟩ first tail = scaledToken negative ⟨1, 1⟩ whole places scale := by
    rw [← hlex, hbody]
    cases negative with
    | false =>
      refine ⟨c, body, rfl, ?_, ?_⟩
      · unfold skipTrivia
        rw [hspace, hquote]
        rfl
      · unfold Lexer.scanToken
        rw [hident, hc]
        rfl
    | true =>
      refine ⟨'-', c :: body, rfl, rfl, ?_⟩
      have hpeek : (peekIs Char.isDigit (c :: body) && (false || !false)) = true := by
        show (c.isDigit && true) = true
        rw [hc]
        rfl
      unfold Lexer.scanToken
      exact if_pos hpeek
  have hrun : (Lexer.new (first :: tail)).nextToken = (scaledToken negative ⟨1, 1⟩ whole places scale).map fun r =>
      ((r.1, ⟨1, 1⟩), ⟨r.2,
        Span.over ⟨1, 1⟩ ((first :: tail).take ((first :: tail).length - r.2.length)), tokEndsExpr r.1, false, false⟩) := by
    unfold Lexer.nextToken
    rw [show (Lexer.new (first :: tail)).rest = first :: tail from rfl,
      show (Lexer.new (first :: tail)).here = ⟨1, 1⟩ from rfl, hskip]
    simp only
    rw [hscan]
    cases scaledToken negative ⟨1, 1⟩ whole places scale <;> rfl
  rw [hfirst]
  unfold Parser.new
  rw [hrun]
  unfold scaledToken
  constructor
  · intro hle
    rw [if_neg (by omega)]
    exact ⟨_, rfl⟩
  · intro hbig
    rw [if_pos hbig]
    rfl

theorem readExpression_scaled (hwhole : IsDigits whole) (hplaces : ∀ c ∈ places, c.isDigit = true)
    (hscale : IsDigits scale) (hle : valueIn 10 scale ≤ 65535) (turns : Nat) :
    ∃ p, p.cur.1 = .eof ∧ readExpression (turns + 1) (signText negative (scaledBody whole places scale)) =
      some (.ok (Parser.scaledSend negative whole places (valueIn 10 scale) ⟨1, 1⟩, p)) := by
  obtain ⟨here, hnew⟩ := (@new_scaled whole places scale negative hwhole hplaces hscale).1 hle
  unfold readExpression
  rw [hnew]
  exact ⟨_, rfl, rfl⟩

theorem valueIn_eq_ofDigitChars {cs : List Char} (h : ∀ c ∈ cs, c.isDigit = true) : valueIn 10 cs = Nat.ofDigitChars 10 cs 0 := by
  rw [← decimal_eq]
  unfold decimal
  rw [ofDigitChars_eq_foldl]
  generalize 0 = m
  induction cs generalizing m with
  | nil => rfl
  | cons c cs ih =>
    have hc : digitValue c = c.toNat - 48 := if_pos (h c mem_cons_self)
    rw [foldl_cons, foldl_cons, hc]
    exact ih (fun e he => h e (mem_cons_of_mem c he)) _

theorem valueIn_append {cs ds : List Char} (hc : ∀ c ∈ cs, c.isDigit = true) (hd : ∀ c ∈ ds, c.isDigit = true) :
    valueIn 10 (cs ++ ds) = 10 ^ ds.length * valueIn 10 cs + valueIn 10 ds := by
  have hboth : ∀ c ∈ cs ++ ds, c.isDigit = true := fun c h => (mem_append.mp h).elim (hc c) (hd c)
  rw [valueIn_eq_ofDigitChars hboth, valueIn_eq_ofDigitChars hc, valueIn_eq_ofDigitChars hd, ofDigitChars_append,
    ofDigitChars_eq_ofDigitChars_zero]

theorem isDigits_toDigits (n : Nat) : IsDigits (Nat.toDigits 10 n) :=
  ⟨toDigits_ne_nil, fun _ hc => isDigit_of_mem_toDigits (by decide) (by decide) hc⟩

theorem valueIn_toDigits (n : Nat) : valueIn 10 (Nat.toDigits 10 n) = n := by
  rw [valueIn_eq_ofDigitChars (isDigits_toDigits n).2, ofDigitChars_ten_toDigits]

/-- A scaled decimal written with `s` digits behind the point, and its value. -/
def Shows (cs : List Char) (s : Nat) (z : ℚ) : Prop :=
  ∃ negative whole places, cs = signText negative (scaledBody whole places (Nat.toDigits 10 s)) ∧ IsDigits whole ∧
    (∀ c ∈ places, c.isDigit = true) ∧ places.length = s ∧ z = (signed negative (valueIn 10 (whole ++ places)) : ℚ) / 10 ^ s

end Frontend

namespace ScaledDecimal

open Frontend IntegerOop SmallInteger Rational

variable {v : ℚ} {s n : Nat}

theorem placesText_digits (s n : Nat) : ∀ c ∈ placesText s n, c.isDigit = true := by
  intro c hc
  rcases mem_append.mp hc with h | h
  · rw [eq_of_mem_replicate h]
    decide
  · exact (isDigits_toDigits n).2 c h

theorem placesText_length (hs : 0 < s) (hn : n < 10 ^ s) : (placesText s n).length = s := by
  have h := (length_toDigits_le_iff (by decide) hs).mpr hn
  unfold placesText
  rw [length_append, length_replicate]
  omega

theorem placesText_value (s n : Nat) : valueIn 10 (placesText s n) = n := by
  rw [valueIn_eq_ofDigitChars (placesText_digits s n)]
  unfold placesText
  rw [ofDigitChars_append, ofDigitChars_replicate_zero, mul_zero, ofDigitChars_ten_toDigits]

def places (v : ℚ) (s : Nat) : List Char := if 0 < s then placesText s (units v s % 10 ^ s) else []

theorem places_digits (v : ℚ) (s : Nat) : ∀ c ∈ places v s, c.isDigit = true := by
  unfold places
  split
  · exact placesText_digits s _
  · exact fun c hc => nomatch hc

theorem places_length (v : ℚ) (s : Nat) : (places v s).length = s := by
  unfold places
  split
  next hs => exact placesText_length hs (Nat.mod_lt _ (Nat.pow_pos (by decide)))
  next hs => exact (Nat.eq_zero_of_not_pos hs).symm

theorem text_eq (v : ℚ) (s : Nat) : text v s =
    signText (decide (v < 0)) (scaledBody (Nat.toDigits 10 (units v s / 10 ^ s)) (places v s) (Nat.toDigits 10 s)) := by
  have hplaces : (if places v s = [] then [] else '.' :: places v s) =
      if 0 < s then '.' :: placesText s (units v s % 10 ^ s) else [] := by
    by_cases hs : 0 < s
    · have hne : places v s ≠ [] := by
        intro he
        have hlen := places_length v s
        rw [he] at hlen
        exact absurd hlen (by simp; omega)
      rw [if_neg hne, if_pos hs]
      unfold places
      rw [if_pos hs]
    · have he : places v s = [] := if_neg hs
      rw [if_pos he, if_neg hs]
  unfold text signText scaledBody
  rw [hplaces]
  by_cases hneg : v < 0
  · rw [if_pos hneg, decide_eq_true hneg, if_pos rfl]
    simp only [append_assoc, cons_append, nil_append]
  · rw [if_neg hneg, decide_eq_false hneg, if_neg Bool.false_ne_true]
    simp only [append_assoc, nil_append]

theorem text_value (v : ℚ) (s : Nat) : valueIn 10 (Nat.toDigits 10 (units v s / 10 ^ s) ++ places v s) = units v s := by
  have hmod : valueIn 10 (places v s) = units v s % 10 ^ s := by
    unfold places
    split
    next => exact placesText_value s _
    next hs =>
      rw [Nat.eq_zero_of_not_pos hs, Nat.pow_zero, Nat.mod_one]
      rfl
  rw [valueIn_append (isDigits_toDigits _).2 (places_digits v s), valueIn_toDigits, hmod, places_length]
  exact Nat.div_add_mod ..

theorem text_shows (v : ℚ) (s : Nat) : ∃ z, Shows (text v s) s z ∧ |z - v| ≤ 1 / 2 / 10 ^ s := by
  refine ⟨_, ⟨decide (v < 0), _, places v s, text_eq v s, isDigits_toDigits _, places_digits v s, places_length v s, rfl⟩, ?_⟩
  have hpos : (0 : ℚ) < 10 ^ s := by positivity
  have hhalf := nearest_sub (v := |v| * (10 ^ s : Nat)) (mul_nonneg (abs_nonneg v) (cast_nonneg _))
  have hhalf : |(units v s : ℚ) - |v| * (10 ^ s : Nat)| ≤ 1 / 2 := hhalf
  rw [cast_pow, cast_ofNat] at hhalf
  rw [text_value, le_div_iff₀ hpos, ← abs_of_pos hpos, ← abs_mul, abs_of_pos hpos, sub_mul, div_mul_cancel₀ _ hpos.ne']
  by_cases hneg : v < 0
  · have hflip : (signed (decide (v < 0)) (units v s) : ℚ) - v * 10 ^ s = -((units v s : ℚ) - |v| * 10 ^ s) := by
      rw [decide_eq_true hneg, abs_of_neg hneg]
      unfold signed
      rw [if_pos rfl]
      push_cast
      ring
    rw [hflip, abs_neg]
    exact hhalf
  · have hsame : (signed (decide (v < 0)) (units v s) : ℚ) - v * 10 ^ s = (units v s : ℚ) - |v| * 10 ^ s := by
      rw [decide_eq_false hneg, abs_of_nonneg (not_lt.mp hneg)]
      rfl
    rw [hsame]
    exact hhalf

variable {k : Int}

theorem scaled_of_places (hv : v = k / 10 ^ s) : |v| * (10 ^ s : Nat) = (k.natAbs : ℚ) := by
  have hpos : (0 : ℚ) < 10 ^ s := by positivity
  rw [hv, abs_div, abs_of_pos hpos, cast_pow, cast_ofNat, div_mul_cancel₀ _ hpos.ne', cast_natAbs, Int.cast_abs]

theorem units_of_places (hv : v = k / 10 ^ s) : units v s = k.natAbs := by
  unfold units nearest
  rw [scaled_of_places hv, Rat.num_natCast, Rat.den_natCast]
  omega

theorem Printable.of_places (hv : v = k / 10 ^ s) (h : Divisible v) (hsplits : 2 ^ 61 ≤ k.natAbs ∨ 10 ^ s < 2 ^ 61) :
    Printable v s where
  divisible := h
  rounds := .inl (by rw [scaled_of_places hv]; exact Rat.den_natCast _)
  splits := by
    rw [units_of_places hv]
    exact hsplits

theorem signed_of_places (hv : v = k / 10 ^ s) : signed (decide (v < 0)) (units v s) = k := by
  have hpos : (0 : ℚ) < 10 ^ s := by positivity
  have hneg : v < 0 ↔ k < 0 := by
    rw [hv, div_lt_iff₀ hpos, zero_mul]
    exact Int.cast_lt_zero
  rw [units_of_places hv]
  unfold signed
  by_cases h : k < 0
  · rw [decide_eq_true (hneg.mpr h), if_pos rfl]
    omega
  · rw [decide_eq_false (mt hneg.mp h), if_neg Bool.false_ne_true]
    omega

theorem scaledDecimal_send (n d : Literal) (s : Nat) (here : Frontend.Span) :
    (Expr.send (.var "ScaledDecimal" here) "numerator:denominator:scale:" [.lit n here, .lit d here, .lit (.int s) here]
      false here).scaledDecimal? = (do fromParts (← n.integer?) (← d.integer?) s) := by
  simp [Expr.scaledDecimal?]

theorem ofInt_integer (z : Int) : ∃ a, (Literal.ofInt z).integer? = some a ∧ a.Valid ∧ a.toInt = z := by
  unfold Literal.ofInt
  split
  next h => exact ⟨_, rfl, fits_iff.mpr h, rfl⟩
  next h =>
    have hvalue : (⟨decide (z < 0), Nat.digits 256 z.natAbs⟩ : LargeInteger).magnitude = z.natAbs := ofDigits_digits 256 _
    refine ⟨_, rfl, ⟨⟨fun _ hb => digits_lt_base (by decide) hb, ?_⟩, ?_⟩, ?_⟩
    · have hden := Literal.ofInt_denotes z
      unfold Literal.ofInt at hden
      rw [if_neg h] at hden
      refine ⟨?_, fun hlast => absurd hlast hden.2.2.2.2⟩
      rw [digits_ne_nil_iff_ne_zero]
      omega
    · rw [hvalue]
      omega
    · show LargeInteger.toInt _ = z
      unfold LargeInteger.toInt
      rw [hvalue]
      by_cases hneg : z < 0
      · rw [if_pos (decide_eq_true hneg)]
        omega
      · rw [if_neg (by rw [decide_eq_true_eq]; exact hneg)]
        omega

theorem no_common_place (h : Divisible v) (hv : v = k / 10 ^ s) : ¬ (k = -2 ^ 61 ∧ 2 ^ 61 ∣ 10 ^ s) := by
  rintro ⟨rfl, m, hm⟩
  have hs : 61 ≤ s := by
    have hsplit : 10 ^ s = 2 ^ s * 5 ^ s := by rw [← Nat.mul_pow]
    have hcop : Nat.Coprime (2 ^ 61) (5 ^ s) := Nat.Coprime.pow 61 s (by decide)
    have hdvd : 2 ^ 61 ∣ 2 ^ s := hcop.dvd_of_dvd_mul_right (hsplit ▸ Dvd.intro m hm.symm)
    exact (Nat.pow_dvd_pow_iff_le_right (by decide)).mp hdvd
  have hpos : 0 < m := by
    rcases Nat.eq_zero_or_pos m with rfl | hpos
    · have := Nat.pow_pos (n := s) (show 0 < 10 by decide)
      omega
    · exact hpos
  have hvalue : v = ((-1 : Int) : ℚ) / ((m : Int) : ℚ) := by
    have hmq : (m : ℚ) ≠ 0 := Nat.cast_ne_zero.mpr (by omega)
    have hten : (10 : ℚ) ^ s = 2 ^ 61 * m := by exact_mod_cast hm
    rw [hv, hten]
    push_cast
    field_simp
    norm_num
  have hcop : Nat.Coprime (-1 : Int).natAbs (m : Int).natAbs := Nat.coprime_one_left _
  have hnum : v.num = -1 := by
    rw [hvalue]
    exact Rat.num_div_eq_of_coprime (by omega) hcop
  have hden : (v.den : Int) = m := by
    rw [hvalue]
    exact Rat.den_div_eq_of_coprime (by omega) hcop
  have hbig : 10 ^ 61 ≤ 10 ^ s := Nat.pow_le_pow_right (by decide) hs
  rcases h with h | h
  · rw [hnum] at h
    exact absurd h (by decide)
  · omega

theorem reads_back (h : Printable v s) (hv : v = k / 10 ^ s) :
    (s ≤ 65535 → ∀ turns, ∃ e p x, readExpression (turns + 1) (text v s) = some (.ok (e, p)) ∧ p.cur.1 = .eof ∧
        e.scaledDecimal? = some x ∧ x.Is v s) ∧
      (65535 < s → ∀ turns, readExpression turns (text v s) =
        some (.error ⟨⟨1, 1⟩, "scaled-decimal scale too large", false⟩)) := by
  rw [text_eq]
  constructor
  · intro hs turns
    obtain ⟨p, heof, hread⟩ := @readExpression_scaled _ _ _ (decide (v < 0)) (isDigits_toDigits (units v s / 10 ^ s))
      (places_digits v s) (isDigits_toDigits s) (by rw [valueIn_toDigits]; exact hs) turns
    obtain ⟨n, hn, hnv, hnk⟩ := ofInt_integer (signed (decide (v < 0)) (units v s))
    obtain ⟨d, hd, hdv, hdk⟩ := ofInt_integer (signed false (10 ^ s))
    have hd0 : d.toInt ≠ 0 := by
      rw [hdk]
      have := pow_pos (n := s) (show 0 < 10 by decide)
      show ((10 ^ s : Nat) : Int) ≠ 0
      omega
    rw [signed_of_places hv] at hnk
    have hred : n.ReducesWhen d := by
      constructor
      · rw [hnk, hdk, ← units_of_places hv]
        exact h.splits
      · rintro ⟨-, hmin, -, hdvd⟩
        rw [hdk] at hdvd
        have hdvd : (2 ^ 61 : Int) ∣ ((10 ^ s : Nat) : Int) := hdvd
        exact no_common_place h.divisible hv ⟨hnk.symm.trans hmin, by exact_mod_cast hdvd⟩
    obtain ⟨x, hrun, hx⟩ := fromParts_is hnv hdv hd0 hred s
    refine ⟨_, p, x, hread, heof, ?_, ?_⟩
    · unfold Parser.scaledSend
      rw [intLitToLiteral_eq (by decide), intLitToLiteral_eq (by decide), text_value, pow_ten_value, places_length,
        valueIn_toDigits]
      refine (scaledDecimal_send ..).trans ?_
      refine answers hn (answers hd ?_)
      exact hrun
    · rw [hnk, hdk] at hx
      have hback : (k : ℚ) / ((signed false (10 ^ s) : Int) : ℚ) = v := by
        rw [hv]
        unfold signed
        push_cast
        rfl
      rw [hback] at hx
      exact hx
  · intro hs turns
    have hnew := (@new_scaled _ _ _ (decide (v < 0)) (isDigits_toDigits (units v s / 10 ^ s)) (places_digits v s)
      (isDigits_toDigits s)).2 (by rw [valueIn_toDigits]; exact hs)
    unfold readExpression
    rw [hnew]

/-- A value prints with exactly its scale's digits and half a unit of the last away at most, where no SmallInteger is
divided by a LargeInteger; and with no more places than the scale it is read back, but for scales beyond the lexer's limit. -/
theorem prints_rounded_reads_back {v : ℚ} {s : Nat} {n d : IntegerOop} (hn : n.Is v.num) (hd : d.Is v.den) (h : Printable v s) :
    ∃ x cs z, fromParts n d s = some x ∧ x.Is v s ∧ x.printOn = some cs ∧ Shows cs s z ∧ |z - v| ≤ 1 / 2 / 10 ^ s ∧
      ∀ k : Int, v = k / 10 ^ s →
        (s ≤ 65535 → ∀ turns, ∃ e p y, readExpression (turns + 1) cs = some (.ok (e, p)) ∧ p.cur.1 = .eof ∧
          e.scaledDecimal? = some y ∧ y.Is v s) ∧
        (65535 < s → ∀ turns, readExpression turns cs =
          some (.error ⟨⟨1, 1⟩, "scaled-decimal scale too large", false⟩)) := by
  obtain ⟨x, hx, hxi⟩ := fromParts_lowest hn hd h.divisible s
  obtain ⟨z, hz, hnear⟩ := text_shows v s
  exact ⟨x, text v s, z, hx, hxi, hxi.prints h, hz, hnear, fun k hv => reads_back h hv⟩

theorem prints_rounded_reads_back_pi :
    ∃ x cs z, fromParts (small 157) (small 50) 2 = some x ∧ x.printOn = some cs ∧ Shows cs 2 z ∧
      |z - 157 / 50| ≤ 1 / 2 / 10 ^ 2 ∧
      ∃ e p y, readExpression 1 cs = some (.ok (e, p)) ∧ e.scaledDecimal? = some y ∧ y.Is (157 / 50) 2 := by
  have hnum : (157 / 50 : ℚ).num = 157 := by decide +kernel
  have hden : (157 / 50 : ℚ).den = 50 := by decide +kernel
  have hv : (157 / 50 : ℚ) = ((314 : Int) : ℚ) / 10 ^ 2 := by norm_num
  obtain ⟨x, cs, z, hx, -, hprint, hz, hnear, hback⟩ := prints_rounded_reads_back (v := 157 / 50) (s := 2)
    (n := small 157) (d := small 50) ⟨show fits 157 = true by decide, hnum.symm⟩
    ⟨show fits 50 = true by decide, by rw [hden]; rfl⟩ (Printable.of_places hv (.inr (by rw [hden]; decide)) (.inr (by decide)))
  obtain ⟨e, p, y, hread, -, hy, hyi⟩ := (hback 314 hv).1 (by decide) 0
  exact ⟨x, cs, z, hx, hprint, hz, hnear, e, p, y, hread, hy, hyi⟩

/-- `2 ^ 61` with 65536 places prints and is refused by the lexer; and zero with 19 places does not print. -/
theorem scale_too_large :
    (∃ x cs, fromParts (large ⟨false, [0, 0, 0, 0, 0, 0, 0, 32]⟩) (small 1) 65536 = some x ∧ x.printOn = some cs ∧
      ∀ turns, readExpression turns cs = some (.error ⟨⟨1, 1⟩, "scaled-decimal scale too large", false⟩)) ∧
    ∃ x, fromParts (small 0) (small 1) 19 = some x ∧ x.printOn = none := by
  constructor
  · have hall : ∀ s, 65535 < s → ∃ x cs, fromParts (large ⟨false, [0, 0, 0, 0, 0, 0, 0, 32]⟩) (small 1) s = some x ∧
        x.printOn = some cs ∧
        ∀ turns, readExpression turns cs = some (.error ⟨⟨1, 1⟩, "scaled-decimal scale too large", false⟩) := by
      intro s hs
      have hnum : ((2 ^ 61 : Nat) : ℚ).num = 2 ^ 61 := Rat.num_natCast _
      have hden : ((2 ^ 61 : Nat) : ℚ).den = 1 := Rat.den_natCast _
      have hdiv : Divisible ((2 ^ 61 : Nat) : ℚ) := .inr (by rw [hden]; decide)
      have hn : (large ⟨false, [0, 0, 0, 0, 0, 0, 0, 32]⟩).Is ((2 ^ 61 : Nat) : ℚ).num := by
        rw [hnum]
        exact ⟨⟨⟨⟨by decide, by decide, fun h => absurd h (by decide)⟩, fun _ => rfl⟩, by decide⟩, by decide⟩
      have hd : (small 1).Is (((2 ^ 61 : Nat) : ℚ).den : Int) := by
        rw [hden]
        exact ⟨show fits 1 = true by decide, rfl⟩
      have hpos : (10 : ℚ) ^ s ≠ 0 := by positivity
      have hv : ((2 ^ 61 : Nat) : ℚ) = (((2 ^ 61 * 10 ^ s : Nat) : Int) : ℚ) / 10 ^ s := by
        rw [eq_div_iff hpos]
        push_cast
        ring
      have hp : Printable ((2 ^ 61 : Nat) : ℚ) s :=
        Printable.of_places hv hdiv (.inl (Nat.le_mul_of_pos_right _ (Nat.pow_pos (by decide))))
      obtain ⟨x, hx, hxi⟩ := fromParts_lowest hn hd hdiv s
      exact ⟨x, _, hx, hxi.prints hp, (reads_back hp hv).2 hs⟩
    exact hall 65536 (by decide)
  · exact ⟨⟨small 0, small 1, 19⟩, by decide +kernel, by decide +kernel⟩

end ScaledDecimal

end WinArmVm
