import WinArmVm.ClassWalk
import WinArmVm.Numerals

namespace WinArmVm.Frontend

open List StateRun Option

variable {cs rest : List Char} {start : Span} {tok : Tok} {c : Char}

theorem dropWhile_suffix_tail {p : Char → Bool} {cs : List Char} (h : p c = true) : (c :: cs).dropWhile p <:+ cs := by
  rw [dropWhile_cons_of_pos h]
  exact dropWhile_suffix p

theorem suffix_tail {x cs : List Char} (h : x <:+ cs) : x.tail <:+ cs := (List.tail_suffix x).trans h

theorem tryConsumeExponent_suffix {found : Char × Bool × List Char}
    (h : tryConsumeExponent cs = some (found, rest)) : rest <:+ cs := by
  obtain ⟨marker, neg, digits⟩ := found
  obtain ⟨c, rfl, -⟩ := tryConsumeExponent_some h
  exact (suffix_append _ _).trans (suffix_cons c _)

theorem tryConsumeScale_suffix {default scale : Nat}
    (h : tryConsumeScale default start cs = .ok (some (scale, rest))) : rest <:+ cs := by
  obtain ⟨rfl, -⟩ | ⟨sc, rfl, -⟩ := tryConsumeScale_some h
  · exact suffix_cons 's' rest
  · exact (suffix_append sc rest).trans (suffix_cons 's' _)

theorem lexRadix_suffix {negative : Bool} {lead cs rest : List Char}
    (h : lexRadix negative start lead cs = .ok (tok, rest)) : rest <:+ cs := by
  unfold lexRadix at h
  generalize (if decimal lead < 2 ^ 32 then decimal lead else 0) = radix at h
  simp only at h
  split at h
  next => cases h
  next =>
    split at h
    next => cases h
    next =>
      split at h
      next => cases h
      next =>
        cases h
        exact dropWhile_suffix _

theorem lexNumber_suffix {negative : Bool}
    (h : lexNumber negative start cs = .ok (tok, rest)) : rest <:+ cs.dropWhile Char.isDigit := by
  unfold lexNumber at h
  simp only at h
  generalize cs.dropWhile Char.isDigit = tail at h ⊢
  split at h
  next => exact (lexRadix_suffix h).trans (tail_suffix tail)
  next =>
    split at h
    next =>
      have hfrac : tail.tail.dropWhile Char.isDigit <:+ tail := (dropWhile_suffix _).trans (tail_suffix tail)
      generalize tail.tail.dropWhile Char.isDigit = after at h hfrac
      split at h
      next => cases h
      next found hscale =>
        cases h
        exact (tryConsumeScale_suffix hscale).trans hfrac
      next =>
        split at h
        next hexp =>
          cases h
          exact (tryConsumeExponent_suffix hexp).trans hfrac
        next =>
          cases h
          exact hfrac
    next =>
      split at h
      next => cases h
      next found hscale =>
        cases h
        exact tryConsumeScale_suffix hscale
      next =>
        split at h
        next hexp =>
          split at h
          next =>
            split at h
            next => cases h
            next =>
              split at h
              next => cases h
              next =>
                cases h
                exact tryConsumeExponent_suffix hexp
          next =>
            cases h
            exact tryConsumeExponent_suffix hexp
        next =>
          cases h
          exact suffix_refl _

theorem quotedText_suffix (cs : List Char) {s rest : List Char} (h : quotedText cs = some (s, rest)) : rest <:+ cs := by
  induction cs using quotedText.induct generalizing s rest with
  | case1 => cases h
  | case2 c hc =>
    rw [quotedText, if_pos hc] at h
    cases h
    exact nil_suffix
  | case3 c hc c' cs hc' ih =>
    rw [quotedText, if_pos hc] at h
    simp only [if_pos hc'] at h
    obtain ⟨⟨s', rest'⟩, hr, h⟩ := map_eq_some_iff.mp h
    cases h
    exact ((ih hr).trans (suffix_cons c' cs)).trans (suffix_cons c _)
  | case4 c hc c' cs hc' =>
    rw [quotedText, if_pos hc] at h
    simp only [if_neg hc'] at h
    cases h
    exact suffix_cons c _
  | case5 c cs hc ih =>
    rw [quotedText.eq_def] at h
    simp only [if_neg hc] at h
    obtain ⟨⟨s', rest'⟩, hr, h⟩ := map_eq_some_iff.mp h
    cases h
    exact (ih hr).trans (suffix_cons c _)

theorem lexQuotedText_suffix {s : String} (h : lexQuotedText start cs = .ok (s, rest)) : rest <:+ cs.tail := by
  unfold lexQuotedText at h
  split at h
  next => cases h
  next hq =>
    cases h
    exact quotedText_suffix _ hq

theorem lexBinarySel_suffix (pragmaMode : Bool) (first : Char) (cs : List Char) :
    (lexBinarySel pragmaMode first cs).2 <:+ cs.tail := by
  unfold lexBinarySel
  split
  next h => exact nil_suffix
  next c rest h =>
    split
    next =>
      rw [h]
      exact suffix_cons c rest
    next => rw [h]

theorem symbolText_suffix (cs : List Char) : (symbolText cs).2 <:+ cs := by
  induction cs with
  | nil => exact suffix_refl _
  | cons c cs ih =>
    rw [symbolText]
    split
    next => exact ih.trans (suffix_cons c cs)
    next =>
      split
      next =>
        split
        next => exact ih.trans (suffix_cons c cs)
        next => exact suffix_cons c cs
      next => exact suffix_refl _

theorem lexHash_suffix {pragmaMode : Bool} (h : lexHash pragmaMode start cs = .ok (tok, rest)) : rest <:+ cs.tail := by
  unfold lexHash at h
  simp only at h
  split at h
  next => cases h
  next c tail htail =>
    rw [htail]
    split at h
    next =>
      cases h
      exact suffix_cons c _
    next =>
      split at h
      next =>
        cases h
        exact suffix_cons c _
      next =>
        split at h
        next =>
          cases hq : lexQuotedText start cs.tail with
          | error e =>
            rw [hq] at h
            cases h
          | ok r =>
            rw [hq] at h
            cases h
            have hsuffix := lexQuotedText_suffix hq
            rw [htail] at hsuffix
            exact hsuffix.trans (suffix_cons c tail)
        next =>
          split at h
          next =>
            cases h
            rw [htail]
            exact symbolText_suffix _
          next =>
            split at h
            next =>
              cases h
              exact suffix_cons c _
            next =>
              split at h
              next =>
                cases h
                have hsuffix := lexBinarySel_suffix pragmaMode c cs.tail
                rw [htail] at hsuffix ⊢
                exact hsuffix.trans (suffix_cons c tail)
              next => cases h

theorem lexIdentOrKeyword_suffix {cs : List Char} (h : isIdentCont c = true) :
    (lexIdentOrKeyword (c :: cs)).2 <:+ cs := by
  have hrest : (c :: cs).dropWhile isIdentCont <:+ cs := dropWhile_suffix_tail h
  simp only [lexIdentOrKeyword]
  split
  next => exact suffix_tail hrest
  next => exact hrest

theorem isIdentCont_of_start (h : isIdentStart c = true) : isIdentCont c = true := by
  simp only [isIdentStart, isIdentCont, Char.isAlphanum, Bool.or_eq_true] at *
  obtain h | h := h
  · exact .inl (.inl h)
  · exact .inr h

theorem Lexer.scanToken_suffix {l : Lexer} (h : l.scanToken start c cs = .ok (tok, rest)) : rest <:+ cs := by
  unfold Lexer.scanToken at h
  by_cases hid : isIdentStart c = true
  · rw [if_pos hid] at h
    have hsuffix : (lexIdentOrKeyword (c :: cs)).2 <:+ cs := lexIdentOrKeyword_suffix (isIdentCont_of_start hid)
    rw [Except.ok.inj h] at hsuffix
    exact hsuffix
  rw [if_neg hid] at h
  by_cases hdigit : c.isDigit = true
  · rw [if_pos hdigit] at h
    exact (lexNumber_suffix h).trans (dropWhile_suffix_tail hdigit)
  rw [if_neg hdigit] at h
  by_cases hminus : (c == '-') = true
  · rw [if_pos hminus] at h
    split at h
    next => exact (lexNumber_suffix h).trans (dropWhile_suffix _)
    next =>
      cases h
      exact lexBinarySel_suffix l.pragmaMode c (c :: cs)
  rw [if_neg hminus] at h
  by_cases hdollar : (c == '$') = true
  · rw [if_pos hdollar] at h
    cases cs with
    | nil => cases h
    | cons d cs =>
      cases h
      exact suffix_cons d _
  rw [if_neg hdollar] at h
  by_cases hquote : (c == singleQuote) = true
  · rw [if_pos hquote] at h
    cases hq : lexQuotedText start (c :: cs) with
    | error e =>
      rw [hq] at h
      cases h
    | ok r =>
      rw [hq] at h
      cases h
      exact lexQuotedText_suffix hq
  rw [if_neg hquote] at h
  by_cases hhash : (c == '#') = true
  · rw [if_pos hhash] at h
    exact lexHash_suffix h
  rw [if_neg hhash] at h
  split at h
  next =>
    cases h
    exact suffix_refl _
  next =>
    split at h
    next =>
      split at h
      next =>
        cases h
        exact tail_suffix cs
      next =>
        cases h
        exact suffix_refl _
    next =>
      split at h
      next =>
        cases h
        exact lexBinarySel_suffix l.pragmaMode c (c :: cs)
      next => cases h

theorem skipTrivia_suffix (cs : List Char) (start : Option Span) (here : Span) {r : Span × List Char}
    (h : skipTrivia cs start here = .ok r) : r.2 <:+ cs := by
  induction cs, start, here using skipTrivia.induct generalizing r with
  | case1 here =>
    cases h
    exact suffix_refl _
  | case2 start here => cases h
  | case3 c cs here hc ih =>
    rw [skipTrivia, if_pos hc] at h
    exact (ih h).trans (suffix_cons c cs)
  | case4 c cs here hc hq ih =>
    rw [skipTrivia, if_neg hc, if_pos hq] at h
    exact (ih h).trans (suffix_cons c cs)
  | case5 c cs here hc hq =>
    rw [skipTrivia, if_neg hc, if_neg hq] at h
    cases h
    exact suffix_refl _
  | case6 c start here hc =>
    rw [skipTrivia, if_pos hc] at h
    cases h
    exact nil_suffix
  | case7 c start here hc c' cs hc' ih =>
    rw [skipTrivia, if_pos hc] at h
    simp only [if_pos hc'] at h
    exact ((ih h).trans (suffix_cons c' cs)).trans (suffix_cons c _)
  | case8 c start here hc c' cs hc' ih =>
    rw [skipTrivia, if_pos hc] at h
    simp only [if_neg hc'] at h
    exact (ih h).trans (suffix_cons c _)
  | case9 c cs start here hc ih =>
    rw [skipTrivia.eq_def] at h
    simp only [if_neg hc] at h
    exact (ih h).trans (suffix_cons c cs)

theorem Lexer.nextToken_shorter {l l' : Lexer} (h : l.nextToken = .ok ((tok, start), l')) :
    l'.rest.length + (if tok = .eof then 0 else 1) ≤ l.rest.length := by
  unfold Lexer.nextToken at h
  split at h
  next => cases h
  next =>
    cases h
    exact Nat.zero_le _
  next start' c cs hskip =>
    have htrivia := (skipTrivia_suffix _ _ _ hskip).length_le
    cases hscan : l.scanToken start' c cs with
    | error e =>
      rw [hscan] at h
      cases h
    | ok found =>
      have hscanned := (scanToken_suffix hscan).length_le
      rw [hscan] at h
      cases h
      simp only [length_cons] at htrivia ⊢
      split <;> omega

namespace Parser

def remaining (s : Parser) : Nat := s.lx.rest.length + (match s.peeked with
    | some t => if t.1 = .eof then 0 else 1
    | none => 0) + (if s.cur.1 = .eof then 0 else 1)

structure Known.Fits (total : Nat) (k : Known) (s : Parser) : Prop where
  cur : ∀ c, k.cur = some c → s.cur.1 = c
  next : k.next = s.peeked.map Prod.fst
  moved : k.moved + s.remaining ≤ total

namespace Known.Fits

variable {total : Nat} {k : Known} {s : Parser}

theorem withCur (h : k.Fits total s) : (k.withCur s.cur.1).Fits total s := by
  refine ⟨?_, h.next, h.moved⟩
  intro c hc
  exact Option.some.inj hc

theorem bumped_moved {r : Nat} (hcur : ∀ c, k.cur = some c → s.cur.1 = c)
    (h : k.moved + (r + (if s.cur.1 = .eof then 0 else 1)) ≤ total) : k.bumped.moved + r ≤ total := by
  unfold Known.bumped
  cases hk : k.cur with
  | none =>
    simp only
    omega
  | some c =>
    rw [hcur c hk] at h
    simp only
    split at h
    next he =>
      rw [if_pos he]
      omega
    next he =>
      rw [if_neg he]
      omega

end Known.Fits

variable {total : Nat} {s : Parser} {k : Known}

theorem ends_bump (h : k.Fits total s) : Ends bump (fun _ s' => k.bumped.Fits total s') (fun _ => True) s := by
  obtain ⟨hcur, hnext, hmoved⟩ := h
  unfold Ends bump
  cases hpeeked : s.peeked with
  | some t =>
    rw [hpeeked] at hnext
    simp only [remaining, hpeeked] at hmoved
    refine ⟨?_, rfl, ?_⟩
    · intro c hc
      exact Option.some.inj (hnext.symm.trans hc)
    · apply Known.Fits.bumped_moved hcur
      simp only [remaining]
      omega
  | none =>
    rw [hpeeked] at hnext
    simp only [remaining, hpeeked] at hmoved
    cases htoken : s.lx.nextToken with
    | error e => trivial
    | ok r =>
      obtain ⟨⟨t, start⟩, lx⟩ := r
      have hshorter := Lexer.nextToken_shorter htoken
      refine ⟨?_, ?_, ?_⟩
      · intro c hc
        cases hnext.symm.trans hc
      · simp only [Known.bumped]
        rfl
      · apply Known.Fits.bumped_moved hcur
        simp only [remaining]
        omega

theorem ends_peek (hnone : k.next = none) (h : k.Fits total s) :
    Ends peek2 (fun t s' => (k.withNext t).Fits total s') (fun _ => True) s := by
  obtain ⟨hcur, hnext, hmoved⟩ := h
  unfold Ends peek2
  rw [hnone] at hnext
  have hpeeked : s.peeked = none := map_eq_none_iff.mp hnext.symm
  rw [hpeeked]
  simp only [remaining, hpeeked] at hmoved
  cases htoken : s.lx.nextToken with
  | error e => trivial
  | ok r =>
    obtain ⟨⟨t, start⟩, lx⟩ := r
    have hshorter := Lexer.nextToken_shorter htoken
    refine ⟨hcur, rfl, ?_⟩
    have hkm : (k.withNext t).moved = k.moved := rfl
    simp only [remaining, hkm]
    omega

theorem ends_peekAgain {t : Tok} (hsome : k.next = some t) (h : k.Fits total s) :
    Ends peek2 (fun t' s' => t' = t ∧ k.Fits total s') (fun _ => True) s := by
  have hnext := h.next
  rw [hsome] at hnext
  obtain ⟨found, hpeeked, hfound⟩ := map_eq_some_iff.mp hnext.symm
  unfold Ends peek2
  rw [hpeeked]
  exact ⟨hfound, h⟩

def endsBasics (total : Nat) : Basics where
  total := total
  SameSpan := Eq
  J k _ q P := ∀ s, k.Fits total s → Ends q (fun b s' => ∃ a k', P a b k' ∧ k'.Fits total s') (fun _ => True) s
  mono h hPQ s hs := by
    apply (h s hs).mono
    · rintro b s' ⟨a, k', hP, hk'⟩
      exact ⟨a, k', hPQ a b k' hP, hk'⟩
    · exact fun _ h => h
  pure h s hs := ⟨_, _, h, hs⟩
  bind h hf s hs := by
    apply (h s hs).bind
    rintro b s' ⟨a, k', hQ, hk'⟩
    exact hf a b k' hQ s' hk'
  tok h s hs := ⟨_, _, h _ hs.cur, hs.withCur⟩
  span h s hs := ⟨_, _, h _ _ rfl, hs⟩
  fail _ _ _ := trivial
  bump h s hs := (ends_bump hs).mono (fun _ _ hk => ⟨(), _, h, hk⟩) fun _ h => h
  peek hnext _ h s hs := (ends_peek hnext hs).mono (fun t _ hk => ⟨t, _, h t, hk⟩) fun _ h => h
  peekAgain hnext h s hs := (ends_peekAgain hnext hs).mono (fun t _ hk => ⟨t, _, by rw [hk.1]; exact h, hk.2⟩) fun _ h => h
  setPragmaMode h s hs := ⟨(), _, h, ⟨hs.cur, hs.next, hs.moved⟩⟩
  enterLiteralSeq h s hs := ⟨(), _, h, ⟨hs.cur, hs.next, by
    have hmoved := hs.moved
    simp only [remaining] at hmoved ⊢
    split
    next => exact hmoved
    next => exact hmoved⟩⟩
  exitLiteralSeq h s hs := ⟨(), _, h, ⟨hs.cur, hs.next, by
    have hmoved := hs.moved
    simp only [remaining] at hmoved ⊢
    split
    next => exact hmoved
    next => exact hmoved⟩⟩
  spent h s hs := by
    have := hs.moved
    omega
  spent_left h := h
  lax _ _ _ _ h s hs := h s ⟨hs.cur, hs.next, hs.moved⟩

def endsRules (total : Nat) : Rules := (endsBasics total).rules fun _ _ h => h

theorem new_fits {input : List Char} {p : Parser} (h : Parser.new input = .ok p) :
    (⟨none, none, 0, 0, false⟩ : Known).Fits input.length p := by
  unfold Parser.new at h
  cases htoken : (Lexer.new input).nextToken with
  | error e =>
    rw [htoken] at h
    cases h
  | ok r =>
    obtain ⟨⟨t, start⟩, lx⟩ := r
    rw [htoken] at h
    cases h
    have hshorter := Lexer.nextToken_shorter htoken
    refine ⟨fun c hc => (nomatch hc), rfl, ?_⟩
    simp only [remaining, Lexer.new] at hshorter ⊢
    split at hshorter
    next he =>
      rw [if_pos he]
      omega
    next he =>
      rw [if_neg he]
      omega

end Parser

theorem parseOneTopItem_ends (input : List Char) : ∃ r, parseOneTopItem input = some r := by
  unfold parseOneTopItem
  cases hnew : Parser.new input with
  | error e => exact ⟨_, rfl⟩
  | ok p =>
    have hturns : (Parser.endsRules input.length).total < turnsFor input := Nat.lt_add_of_pos_right (by omega)
    have hparsed : (Parser.endsRules input.length).J ⟨none, none, 0, 0, false⟩ (Parser.oneTopItem (turnsFor input))
        (Parser.oneTopItem (turnsFor input)) fun a b _ => Parser.Rules.SameAnswer a b :=
      (Parser.endsRules input.length).oneTopItem_does hturns rfl
    obtain ⟨r, hrun⟩ := (hparsed p (Parser.new_fits hnew)).answers
    simp only [hrun]
    exact ⟨_, rfl⟩

theorem Parser.topItems_ends {input : List Char} {p : Parser} (hnew : Parser.new input = .ok p) :
    ∃ r, loop (Parser.topItemsTurn (turnsFor input)) (turnsFor input) [] p = some r := by
  have hturns : (Parser.endsRules input.length).total < turnsFor input := Nat.lt_add_of_pos_right (by omega)
  exact ((Parser.endsRules input.length).topItems_does hturns (turnsFor input) rfl p (Parser.new_fits hnew)).answers

/-- A file is parsed to its end, or to its first error. -/
theorem parseFile_ends (input : List Char) : ∃ r, parseFile input = some r := by
  unfold parseFile parseFileWith
  cases hnew : Parser.new input with
  | error e => exact ⟨_, rfl⟩
  | ok p =>
    obtain ⟨r, hrun⟩ := Parser.topItems_ends hnew
    simp only [hrun]
    exact ⟨_, rfl⟩

end WinArmVm.Frontend
