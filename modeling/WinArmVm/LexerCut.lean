import WinArmVm.ParserEnds

namespace WinArmVm.Frontend

open List Option

def Line (x r : List Char) : Prop := x.getLast? = some '\n' ∨ r.head? = some '\n'

def Cut (x r : List Char) : Prop := x = [] ∨ Line x r

variable {x r : List Char} {p : Char → Bool}

theorem Line.cut (h : Line x r) : Cut x r := Or.inr h

theorem Cut.suffix {y : List Char} (h : Cut x r) (hy : y <:+ x) : Cut y r := by
  obtain rfl | hne := eq_nil_or_concat y
  · exact .inl rfl
  · obtain ⟨y', c, rfl⟩ := hne
    obtain ⟨front, rfl⟩ := hy
    obtain h | h | h := h
    · simp at h
    · right
      left
      rw [concat_eq_append, ← append_assoc, getLast?_concat] at h
      rw [concat_eq_append, getLast?_concat]
      exact h
    · exact .inr (.inr h)

variable {c : Char}

theorem Line.tail (h : Line (c :: x) r) (hc : c ≠ '\n') : Line x r := by
  obtain h | h := h
  · cases x with
    | nil =>
      simp only [getLast?_singleton, Option.some.injEq] at h
      exact absurd h hc
    | cons d x =>
      left
      rw [getLast?_cons_cons] at h
      exact h
  · exact .inr h

theorem Line.peekIs_eq (h : Line x r) (hp : p '\n' = false) : peekIs p (x ++ r) = peekIs p x := by
  cases x with
  | cons c x => rfl
  | nil =>
    obtain h | h := h
    · cases h
    · simp only [peekIs, nil_append, h, head?_nil, any_some, any_none, hp]

theorem ne_newline (hp : p '\n' = false) (hc : p c = true) : c ≠ '\n' := by
  rintro rfl
  rw [hp] at hc
  cases hc

theorem Line.peeked (h : Line x r) (hp : p '\n' = false) (hx : peekIs p x = true) :
    (x ++ r).tail = x.tail ++ r ∧ Line x.tail r := by
  obtain ⟨c, tail, rfl, hc⟩ := peekIs_cons hx
  exact ⟨rfl, h.tail (ne_newline hp hc)⟩

theorem Line.span (h : Line x r) (hp : p '\n' = false) : (x ++ r).takeWhile p = x.takeWhile p ∧
    (x ++ r).dropWhile p = x.dropWhile p ++ r ∧ Line (x.dropWhile p) r := by
  induction x with
  | nil =>
    obtain h | h := h
    · cases h
    · cases r with
      | nil => cases h
      | cons d r =>
        cases h
        refine ⟨?_, ?_, .inr rfl⟩
        · simp [hp]
        · simp [hp]
  | cons c x ih =>
    by_cases hc : p c = true
    · obtain ⟨htake, hdrop, hline⟩ := ih (h.tail (ne_newline hp hc))
      rw [cons_append, takeWhile_cons_of_pos hc, takeWhile_cons_of_pos hc, dropWhile_cons_of_pos hc,
        dropWhile_cons_of_pos hc]
      exact ⟨by rw [htake], hdrop, hline⟩
    · rw [cons_append, takeWhile_cons_of_neg hc, takeWhile_cons_of_neg hc, dropWhile_cons_of_neg hc,
        dropWhile_cons_of_neg hc]
      exact ⟨rfl, rfl, h⟩

def behind {α : Type} (r : List Char) (found : α × List Char) : α × List Char := (found.1, found.2 ++ r)

theorem Line.lexIdentOrKeyword (h : Line x r) : lexIdentOrKeyword (x ++ r) = behind r (lexIdentOrKeyword x) := by
  obtain ⟨htake, hdrop, hline⟩ := h.span (p := isIdentCont) (by decide)
  simp only [Frontend.lexIdentOrKeyword, htake, hdrop]
  rw [hline.peekIs_eq (p := (· == ':')) (by decide)]
  by_cases hcolon : peekIs (· == ':') (x.dropWhile isIdentCont) = true
  · obtain ⟨htail, hline⟩ := hline.peeked (p := (· == ':')) (by decide) hcolon
    rw [htail, hline.peekIs_eq (p := (· == '=')) (by decide)]
    split
    next => rfl
    next => rfl
  · rw [Bool.not_eq_true] at hcolon
    simp only [hcolon, Bool.false_and, Bool.false_eq_true, if_false]
    rfl

theorem Line.tryConsumeExponent (h : Line x r) :
    tryConsumeExponent (x ++ r) = (tryConsumeExponent x).map (behind r) := by
  cases x with
  | nil =>
    obtain h | h := h
    · cases h
    · cases r with
      | nil => cases h
      | cons d r =>
        cases h
        rfl
  | cons c x =>
    rw [cons_append]
    by_cases hc : isExponentMarker c = true
    · have hline := h.tail (ne_newline (p := isExponentMarker) (by decide) hc)
      have hsign : (if peekIs (· == '-') x = true then (x ++ r).tail else x ++ r) =
          (if peekIs (· == '-') x = true then x.tail else x) ++ r ∧
          Line (if peekIs (· == '-') x = true then x.tail else x) r := by
        split
        next hneg => exact hline.peeked (p := (· == '-')) (by decide) hneg
        next => exact ⟨rfl, hline⟩
      simp only [Frontend.tryConsumeExponent, if_pos hc, hline.peekIs_eq (p := (· == '-')) (by decide), hsign.1]
      generalize (if peekIs (· == '-') x = true then x.tail else x) = tail at hsign
      obtain ⟨htake, hdrop, -⟩ := hsign.2.span (p := Char.isDigit) (by decide)
      rw [hsign.2.peekIs_eq (p := Char.isDigit) (by decide), htake, hdrop]
      split
      next => rfl
      next => rfl
    · simp only [Frontend.tryConsumeExponent, if_neg hc]
      rfl

theorem Line.tryConsumeScale (h : Line x r) (default : Nat) (start : Span) :
    tryConsumeScale default start (x ++ r) = (tryConsumeScale default start x).map (Option.map (behind r)) := by
  unfold Frontend.tryConsumeScale
  rw [h.peekIs_eq (p := (· == 's')) (by decide)]
  by_cases hs : peekIs (· == 's') x = true
  · obtain ⟨htail, hline⟩ := h.peeked (p := (· == 's')) (by decide) hs
    obtain ⟨htake, hdrop, -⟩ := hline.span (p := Char.isDigit) (by decide)
    rw [if_pos hs, if_pos hs, htail, hline.peekIs_eq (p := Char.isDigit) (by decide), htake, hdrop,
      hline.peekIs_eq (p := fun c => isIdentCont c || c == ':') (by decide)]
    split
    next =>
      simp only
      split
      next => rfl
      next => rfl
    next =>
      split
      next => rfl
      next => rfl
  · rw [if_neg hs, if_neg hs]
    rfl

theorem Line.lexRadix (h : Line x r) (negative : Bool) (start : Span) (lead : List Char) :
    lexRadix negative start lead (x ++ r) = (lexRadix negative start lead x).map (behind r) := by
  obtain ⟨htake, hdrop, -⟩ := h.span (p := isRadixDigit) (by decide)
  unfold Frontend.lexRadix
  rw [htake, hdrop]
  generalize (if decimal lead < 2 ^ 32 then decimal lead else 0) = radix
  simp only
  split
  next => rfl
  next =>
    split
    next => rfl
    next =>
      split
      next => rfl
      next => rfl

theorem Line.lexNumber (h : Line x r) (negative : Bool) (start : Span) :
    lexNumber negative start (x ++ r) = (lexNumber negative start x).map (behind r) := by
  obtain ⟨htake, hdrop, hline⟩ := h.span (p := Char.isDigit) (by decide)
  unfold Frontend.lexNumber
  rw [htake, hdrop]
  generalize x.takeWhile Char.isDigit = lead
  generalize x.dropWhile Char.isDigit = tail at hline
  simp only
  rw [hline.peekIs_eq (p := (· == 'r')) (by decide), hline.peekIs_eq (p := (· == '.')) (by decide)]
  by_cases hr : peekIs (· == 'r') tail = true
  · obtain ⟨htail, hline⟩ := hline.peeked (p := (· == 'r')) (by decide) hr
    rw [if_pos hr, if_pos hr, htail, hline.lexRadix]
  · rw [if_neg hr, if_neg hr]
    have hfraction : (peekIs (· == '.') tail && peekIs Char.isDigit (tail ++ r).tail) =
        (peekIs (· == '.') tail && peekIs Char.isDigit tail.tail) := by
      by_cases hdot : peekIs (· == '.') tail = true
      · obtain ⟨htail, hfrac⟩ := hline.peeked (p := (· == '.')) (by decide) hdot
        rw [htail, hfrac.peekIs_eq (p := Char.isDigit) (by decide)]
      · rw [Bool.not_eq_true] at hdot
        rw [hdot]
        rfl
    rw [hfraction]
    by_cases hdot : (peekIs (· == '.') tail && peekIs Char.isDigit tail.tail) = true
    · obtain ⟨htail, hfrac⟩ := hline.peeked (p := (· == '.')) (by decide) (Bool.and_eq_true_iff.mp hdot).1
      obtain ⟨htake, hdrop, hend⟩ := hfrac.span (p := Char.isDigit) (by decide)
      rw [if_pos hdot, if_pos hdot, htail, htake, hdrop, hend.tryConsumeScale, hend.tryConsumeExponent]
      cases Frontend.tryConsumeScale (min (tail.tail.takeWhile Char.isDigit).length 65535) start
        (tail.tail.dropWhile Char.isDigit) with
      | error e => rfl
      | ok scale =>
        cases scale with
        | some scale => rfl
        | none =>
          cases Frontend.tryConsumeExponent (tail.tail.dropWhile Char.isDigit) with
          | none => rfl
          | some exponent => rfl
    · rw [if_neg hdot, if_neg hdot, hline.tryConsumeScale, hline.tryConsumeExponent]
      cases Frontend.tryConsumeScale 0 start tail with
      | error e => rfl
      | ok scale =>
        cases scale with
        | some scale => rfl
        | none =>
          cases Frontend.tryConsumeExponent tail with
          | none => rfl
          | some exponent =>
            obtain ⟨⟨marker, neg, digits⟩, tail⟩ := exponent
            simp only [Except.map, Option.map, behind]
            split
            next =>
              split
              next => rfl
              next =>
                split
                next => rfl
                next => rfl
            next => rfl

theorem Line.quotedText (h : Cut x r) : quotedText x = none ∨ quotedText (x ++ r) = (quotedText x).map (behind r) := by
  induction x using Frontend.quotedText.induct with
  | case1 => exact .inl rfl
  | case2 c hc =>
    have hline : r.head? = some '\n' := by
      obtain h | h | h := h
      · cases h
      · cases Option.some.inj h
        cases hc
      · exact h
    cases r with
    | nil => cases hline
    | cons d r =>
      cases Option.some.inj hline
      have hpre : Frontend.quotedText [c] = some ([], []) := by
        rw [Frontend.quotedText.eq_def]
        simp only [if_pos hc]
      have hfull : Frontend.quotedText (c :: '\n' :: r) = some ([], '\n' :: r) := by
        rw [Frontend.quotedText.eq_def]
        simp only [if_pos hc]
        rfl
      right
      rw [hpre]
      exact hfull
  | case3 c hc c' cs hc' ih =>
    have hline := h.suffix ((suffix_cons c' cs).trans (suffix_cons c _))
    rw [cons_append, cons_append, Frontend.quotedText, Frontend.quotedText, if_pos hc, if_pos hc]
    simp only [if_pos hc']
    obtain hnone | hsame := ih hline
    · left
      rw [hnone]
      rfl
    · right
      rw [hsame, Option.map_map, Option.map_map]
      rfl
  | case4 c hc c' cs hc' =>
    right
    rw [cons_append, cons_append, Frontend.quotedText, Frontend.quotedText, if_pos hc, if_pos hc]
    simp only [if_neg hc']
    rfl
  | case5 c cs hc ih =>
    have hline := h.suffix (suffix_cons c cs)
    rw [cons_append, Frontend.quotedText.eq_def, Frontend.quotedText.eq_def (c :: (cs ++ r))]
    simp only [if_neg hc]
    obtain hnone | hsame := ih hline
    · left
      rw [hnone]
      rfl
    · right
      rw [hsame, Option.map_map, Option.map_map]
      rfl

theorem Line.lexBinarySel (h : Line x r) (pragmaMode : Bool) (first : Char) :
    lexBinarySel pragmaMode first (first :: x ++ r) = behind r (lexBinarySel pragmaMode first (first :: x)) := by
  unfold Frontend.lexBinarySel
  cases x with
  | nil =>
    obtain h | h := h
    · cases h
    · cases r with
      | nil => cases h
      | cons d r =>
        cases h
        simp only [cons_append, nil_append, tail_cons, (by decide : isBinaryChar '\n' = false),
          Bool.false_and, Bool.and_false, Bool.false_eq_true, if_false]
        rfl
  | cons c x =>
    simp only [cons_append, tail_cons]
    by_cases hbinary : isBinaryChar c = true
    · rw [(h.tail (ne_newline (p := isBinaryChar) (by decide) hbinary)).peekIs_eq (p := Char.isDigit) (by decide)]
      split
      next => rfl
      next => rfl
    · rw [Bool.not_eq_true] at hbinary
      simp only [hbinary, Bool.false_and, Bool.and_false, Bool.false_eq_true, if_false]
      rfl

theorem Line.symbolText (h : Line x r) : symbolText (x ++ r) = behind r (symbolText x) := by
  induction x using Frontend.symbolText.induct with
  | case1 =>
    obtain h | h := h
    · cases h
    · cases r with
      | nil => cases h
      | cons d r =>
        cases h
        rfl
  | case2 c cs hc ih =>
    have hrest := ih (h.tail (ne_newline (p := isIdentCont) (by decide) hc))
    rw [cons_append, Frontend.symbolText, Frontend.symbolText, if_pos hc, if_pos hc, hrest]
    rfl
  | case3 c cs hc hcolon hstart ih =>
    have hline := h.tail (ne_newline (p := (· == ':')) (by decide) hcolon)
    rw [cons_append, Frontend.symbolText, Frontend.symbolText, if_neg hc, if_neg hc, if_pos hcolon, if_pos hcolon,
      hline.peekIs_eq (p := isIdentStart) (by decide), if_pos hstart, if_pos hstart, ih hline]
    rfl
  | case4 c cs hc hcolon hstart =>
    have hline := h.tail (ne_newline (p := (· == ':')) (by decide) hcolon)
    rw [cons_append, Frontend.symbolText, Frontend.symbolText, if_neg hc, if_neg hc, if_pos hcolon, if_pos hcolon,
      hline.peekIs_eq (p := isIdentStart) (by decide), if_neg hstart, if_neg hstart]
    rfl
  | case5 c cs hc hcolon =>
    rw [cons_append, Frontend.symbolText, Frontend.symbolText, if_neg hc, if_neg hc, if_neg hcolon, if_neg hcolon]
    rfl

def Reads {α : Type} (r : List Char) (cut : Except CompileError (α × List Char)) (found : α × List Char) : Prop :=
  (∃ found', cut = .ok found' ∧ found = behind r found') ∨ ∃ e, cut = .error e ∧ e.eof = true

theorem Reads.of_eq {α : Type} {cut : Except CompileError (α × List Char)} {found : α × List Char}
    (h : cut.map (behind r) = .ok found) : Reads r cut found := by
  cases cut with
  | error e => cases h
  | ok found' => exact .inl ⟨found', rfl, (Except.ok.inj h).symm⟩

theorem Line.lexQuotedText (h : Cut x r) (start : Span) {found : String × List Char}
    (hfound : lexQuotedText start (c :: x ++ r) = .ok found) : Reads r (lexQuotedText start (c :: x)) found := by
  unfold Frontend.lexQuotedText at hfound ⊢
  obtain hnone | hsame := Line.quotedText h
  · right
    rw [tail_cons, hnone]
    exact ⟨_, rfl, rfl⟩
  · rw [cons_append, tail_cons, hsame] at hfound
    rw [tail_cons]
    cases hquoted : Frontend.quotedText x with
    | none =>
      rw [hquoted] at hfound
      cases hfound
    | some found' =>
      rw [hquoted] at hfound
      cases hfound
      exact .inl ⟨_, rfl, rfl⟩

theorem Reads.map {α β : Type} {cut : Except CompileError (α × List Char)} {found : α × List Char} {f : α → β}
    (h : Reads r cut found) : Reads r (cut.map fun t => (f t.1, t.2)) (f found.1, found.2) := by
  obtain ⟨found', rfl, rfl⟩ | ⟨e, rfl, he⟩ := h
  · exact .inl ⟨_, rfl, rfl⟩
  · exact .inr ⟨e, rfl, he⟩

variable {found : Tok × List Char}

theorem Line.lexHash (h : Line x r) (pragmaMode : Bool) (start : Span)
    (hfound : lexHash pragmaMode start (c :: x ++ r) = .ok found) :
    Reads r (lexHash pragmaMode start (c :: x)) found := by
  unfold Frontend.lexHash at hfound ⊢
  rw [cons_append, tail_cons] at hfound
  rw [tail_cons]
  cases x with
  | nil =>
    obtain h | h := h
    · cases h
    · cases r with
      | nil => cases h
      | cons d r =>
        cases h
        cases hfound
  | cons d x =>
    simp only [cons_append] at hfound ⊢
    by_cases hparen : (d == '(') = true
    · rw [if_pos hparen] at hfound ⊢
      cases hfound
      exact .inl ⟨_, rfl, rfl⟩
    rw [if_neg hparen] at hfound ⊢
    by_cases hbracket : (d == '[') = true
    · rw [if_pos hbracket] at hfound ⊢
      cases hfound
      exact .inl ⟨_, rfl, rfl⟩
    rw [if_neg hbracket] at hfound ⊢
    by_cases hquote : (d == singleQuote) = true
    · rw [if_pos hquote] at hfound ⊢
      cases hquoted : Frontend.lexQuotedText start (d :: (x ++ r)) with
      | error e =>
        rw [hquoted] at hfound
        cases hfound
      | ok text =>
        rw [hquoted] at hfound
        cases hfound
        exact (Line.lexQuotedText (h.cut.suffix (suffix_cons d x)) start hquoted).map
    rw [if_neg hquote] at hfound ⊢
    by_cases hident : isIdentStart d = true
    · rw [if_pos hident] at hfound ⊢
      rw [← cons_append, h.symbolText] at hfound
      cases hfound
      exact .inl ⟨_, rfl, rfl⟩
    rw [if_neg hident] at hfound ⊢
    by_cases hbar : (d == '|') = true
    · rw [if_pos hbar] at hfound ⊢
      cases hfound
      exact .inl ⟨_, rfl, rfl⟩
    rw [if_neg hbar] at hfound ⊢
    by_cases hbinary : isBinaryChar d = true
    · rw [if_pos hbinary] at hfound ⊢
      rw [← cons_append, (h.tail (ne_newline (p := isBinaryChar) (by decide) hbinary)).lexBinarySel] at hfound
      cases hfound
      exact .inl ⟨_, rfl, rfl⟩
    · rw [if_neg hbinary] at hfound
      cases hfound

theorem Line.scanToken (h : Line (c :: x) r) (hc : c ≠ '\n') (l : Lexer) (start : Span)
    (hfound : l.scanToken start c (x ++ r) = .ok found) :
    Reads r (l.scanToken start c x) found := by
  have hrest := h.tail hc
  unfold Lexer.scanToken at hfound ⊢
  by_cases hident : isIdentStart c = true
  · rw [if_pos hident] at hfound ⊢
    rw [← cons_append, h.lexIdentOrKeyword] at hfound
    cases hfound
    exact .inl ⟨_, rfl, rfl⟩
  rw [if_neg hident] at hfound ⊢
  by_cases hdigit : c.isDigit = true
  · rw [if_pos hdigit] at hfound ⊢
    rw [← cons_append, h.lexNumber] at hfound
    exact Reads.of_eq hfound
  rw [if_neg hdigit] at hfound ⊢
  by_cases hminus : (c == '-') = true
  · rw [if_pos hminus, hrest.peekIs_eq (p := Char.isDigit) (by decide)] at hfound
    rw [if_pos hminus]
    split at hfound
    next hnumber =>
      rw [if_pos hnumber]
      rw [hrest.lexNumber] at hfound
      exact Reads.of_eq hfound
    next hnumber =>
      rw [if_neg hnumber]
      rw [← cons_append, hrest.lexBinarySel] at hfound
      cases hfound
      exact .inl ⟨_, rfl, rfl⟩
  rw [if_neg hminus] at hfound ⊢
  by_cases hdollar : (c == '$') = true
  · rw [if_pos hdollar] at hfound ⊢
    cases x with
    | nil => exact .inr ⟨_, rfl, rfl⟩
    | cons d x =>
      cases hfound
      exact .inl ⟨_, rfl, rfl⟩
  rw [if_neg hdollar] at hfound ⊢
  by_cases hquote : (c == singleQuote) = true
  · rw [if_pos hquote] at hfound ⊢
    cases hquoted : Frontend.lexQuotedText start (c :: (x ++ r)) with
    | error e =>
      rw [hquoted] at hfound
      cases hfound
    | ok text =>
      rw [hquoted] at hfound
      cases hfound
      exact (Line.lexQuotedText hrest.cut start hquoted).map
  rw [if_neg hquote] at hfound ⊢
  by_cases hhash : (c == '#') = true
  · rw [if_pos hhash] at hfound ⊢
    exact hrest.lexHash l.pragmaMode start hfound
  rw [if_neg hhash] at hfound ⊢
  cases hpunctuation : punctuation c with
  | some tok =>
    rw [hpunctuation] at hfound
    cases hfound
    exact .inl ⟨_, rfl, rfl⟩
  | none =>
    rw [hpunctuation] at hfound
    simp only at hfound ⊢
    by_cases hcolon : (c == ':') = true
    · rw [if_pos hcolon, hrest.peekIs_eq (p := (· == '=')) (by decide)] at hfound
      rw [if_pos hcolon]
      split at hfound
      next hassign =>
        rw [if_pos hassign]
        rw [(hrest.peeked (p := (· == '=')) (by decide) hassign).1] at hfound
        cases hfound
        exact .inl ⟨_, rfl, rfl⟩
      next hassign =>
        rw [if_neg hassign]
        cases hfound
        exact .inl ⟨_, rfl, rfl⟩
    rw [if_neg hcolon] at hfound ⊢
    by_cases hbinary : isBinaryChar c = true
    · rw [if_pos hbinary] at hfound ⊢
      rw [← cons_append, hrest.lexBinarySel] at hfound
      cases hfound
      exact .inl ⟨_, rfl, rfl⟩
    · rw [if_neg hbinary] at hfound
      cases hfound

theorem skipTrivia_cut (x r : List Char) (start : Option Span) (here : Span) :
    (∃ e, skipTrivia x start here = .error e ∧ e.eof = true) ∨ (∃ here', skipTrivia x start here = .ok (here', [])) ∨
    ∃ here' c y, skipTrivia x start here = .ok (here', c :: y) ∧ skipTrivia (x ++ r) start here = .ok (here', c :: (y ++ r)) ∧
      c :: y <:+ x ∧ isWhitespace c = false := by
  induction x, start, here using skipTrivia.induct with
  | case1 here => exact .inr (.inl ⟨here, rfl⟩)
  | case2 start here => exact .inl ⟨_, rfl, rfl⟩
  | case3 c cs here hc ih =>
    rw [cons_append, skipTrivia, skipTrivia, if_pos hc, if_pos hc]
    obtain h | h | ⟨here', c', y, h, hfull, hsuffix, hc'⟩ := ih
    · exact .inl h
    · exact .inr (.inl h)
    · exact .inr (.inr ⟨here', c', y, h, hfull, hsuffix.trans (suffix_cons c cs), hc'⟩)
  | case4 c cs here hc hq ih =>
    rw [cons_append, skipTrivia, skipTrivia, if_neg hc, if_neg hc, if_pos hq, if_pos hq]
    obtain h | h | ⟨here', c', y, h, hfull, hsuffix, hc'⟩ := ih
    · exact .inl h
    · exact .inr (.inl h)
    · exact .inr (.inr ⟨here', c', y, h, hfull, hsuffix.trans (suffix_cons c cs), hc'⟩)
  | case5 c cs here hc hq =>
    rw [cons_append, skipTrivia, skipTrivia, if_neg hc, if_neg hc, if_neg hq, if_neg hq]
    rw [Bool.not_eq_true] at hc
    exact .inr (.inr ⟨here, c, cs, rfl, rfl, suffix_refl _, hc⟩)
  | case6 c start here hc =>
    rw [skipTrivia, if_pos hc]
    exact .inr (.inl ⟨_, rfl⟩)
  | case7 c start here hc c' cs hc' ih =>
    rw [cons_append, cons_append, skipTrivia.eq_def, skipTrivia.eq_def (c :: c' :: (cs ++ r))]
    simp only [if_pos hc, if_pos hc']
    obtain h | h | ⟨here', c₁, y, h, hfull, hsuffix, hc₁⟩ := ih
    · exact .inl h
    · exact .inr (.inl h)
    · exact .inr (.inr ⟨here', c₁, y, h, hfull, hsuffix.trans ((suffix_cons c' cs).trans (suffix_cons c _)), hc₁⟩)
  | case8 c start here hc c' cs hc' ih =>
    rw [cons_append, cons_append, skipTrivia.eq_def, skipTrivia.eq_def (c :: c' :: (cs ++ r))]
    simp only [if_pos hc, if_neg hc']
    obtain h | h | ⟨here', c₁, y, h, hfull, hsuffix, hc₁⟩ := ih
    · exact .inl h
    · exact .inr (.inl h)
    · exact .inr (.inr ⟨here', c₁, y, h, hfull, hsuffix.trans (suffix_cons c _), hc₁⟩)
  | case9 c cs start here hc ih =>
    rw [cons_append, skipTrivia.eq_def, skipTrivia.eq_def (c :: (cs ++ r))]
    simp only [if_neg hc]
    obtain h | h | ⟨here', c', y, h, hfull, hsuffix, hc'⟩ := ih
    · exact .inl h
    · exact .inr (.inl h)
    · exact .inr (.inr ⟨here', c', y, h, hfull, hsuffix.trans (suffix_cons c cs), hc'⟩)

namespace Lexer

def Along (r : List Char) (l m : Lexer) : Prop := l = { m with rest := m.rest ++ r } ∧ Cut m.rest r

theorem Along.nextToken {l m l' : Lexer} {tok : Tok} {start : Span} (h : Along r l m)
    (htoken : l.nextToken = .ok ((tok, start), l')) :
    (∃ m', m.nextToken = .ok ((tok, start), m') ∧ Along r l' m') ∨
    (∃ start' m', m.nextToken = .ok ((.eof, start'), m') ∧ m'.rest = []) ∨
    ∃ e, m.nextToken = .error e ∧ e.eof = true := by
  obtain ⟨rfl, hcut⟩ := h
  obtain ⟨e, hskip, he⟩ | ⟨here', hskip⟩ | ⟨here', c, y, hskip, hfull, hsuffix, hc⟩ := skipTrivia_cut m.rest r none m.here
  · right
    right
    refine ⟨e, ?_, he⟩
    simp only [Lexer.nextToken, hskip]
  · right
    left
    refine ⟨here', { m with rest := [], here := here' }, ?_, rfl⟩
    simp only [Lexer.nextToken, hskip]
  · have hline : Line (c :: y) r := by
      obtain h | h := hcut.suffix hsuffix
      · cases h
      · exact h
    have hne : c ≠ '\n' := by
      rintro rfl
      cases hc
    simp only [Lexer.nextToken, hfull] at htoken
    cases hscan : scanToken { m with rest := m.rest ++ r } here' c (y ++ r) with
    | error e =>
      rw [hscan] at htoken
      cases htoken
    | ok found =>
      rw [hscan] at htoken
      have hread := hline.scanToken hne m here' hscan
      cases htoken
      obtain ⟨⟨tok, rest⟩, hread, hfound⟩ | ⟨e, hread, he⟩ := hread
      · left
        cases hfound
        refine ⟨{ m with
          rest := rest
          here := start.over ((c :: y).take ((c :: y).length - rest.length))
          prevEndsExpr := tokEndsExpr tok }, ?_, ?_, ?_⟩
        · simp only [Lexer.nextToken, hskip, hread, behind]
        · have htaken : (c :: (y ++ r)).take ((c :: (y ++ r)).length - (rest ++ r).length) =
              (c :: y).take ((c :: y).length - rest.length) := by
            rw [← cons_append]
            simp only [length_append, Nat.add_sub_add_right]
            exact take_append_of_le_length (Nat.sub_le _ _)
          simp only [behind, htaken]
        · exact hline.cut.suffix ((scanToken_suffix hread).trans (suffix_cons c y))
      · right
        right
        refine ⟨e, ?_, he⟩
        simp only [Lexer.nextToken, hskip, hread]

theorem Along.setPragmaMode {l m : Lexer} (h : Along r l m) (v : Bool) :
    Along r (l.setPragmaMode v) (m.setPragmaMode v) := by
  obtain ⟨rfl, hcut⟩ := h
  exact ⟨rfl, hcut⟩

theorem Along.setInLiteralSeq {l m : Lexer} (h : Along r l m) (v : Bool) :
    Along r (l.setInLiteralSeq v) (m.setInLiteralSeq v) := by
  obtain ⟨rfl, hcut⟩ := h
  exact ⟨rfl, hcut⟩

end Lexer

end WinArmVm.Frontend
