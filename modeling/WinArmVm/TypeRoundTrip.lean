import WinArmVm.TypeComplete

namespace WinArmVm.Types

open List

open Frontend (isWhitespace)

variable {u : CharClass}

theorem displayRest_eq (sep : Char) (es : List TypeExpr) : displayRest sep es = joinedRest sep (es.map TypeExpr.display) := by
  induction es with
  | nil => simp [displayRest, joinedRest]
  | cons e es ih => simp [displayRest, joinedRest, ih]

theorem displayAll_eq (sep : Char) (es : List TypeExpr) : displayAll sep es = joined sep (es.map TypeExpr.display) := by
  cases es with
  | nil => simp [displayAll, joined]
  | cons e es => simp [displayAll, joined, displayRest_eq]

theorem commaed_eq (es : List TypeExpr) :
    displayAll ',' es ++ (if es.isEmpty then [] else [',']) = commaed (es.map TypeExpr.display) := by
  rw [displayAll_eq]
  induction es with
  | nil => simp [joined, commaed]
  | cons e es ih =>
    cases es with
    | nil => simp [joined, joinedRest, commaed]
    | cons e' es =>
      simp only [map_cons, joined, joinedRest, commaed, isEmpty_cons, Bool.false_eq_true, if_false] at ih ⊢
      simpa using ih

def printed (items : List (List Char × TypeExpr)) : List (List Char × TypeExpr) := items.map fun i => (i.2.display, i.2)

variable (items : List (List Char × TypeExpr))

theorem printed_texts : (printed items).map (·.1) = (items.map (·.2)).map TypeExpr.display := by
  simp [printed]

theorem printed_types : (printed items).map (·.2) = items.map (·.2) := by
  simp [printed]

theorem printed_reads {l : Level} {items : List (List Char × TypeExpr)} (h : ∀ i ∈ items, Reads u l i.2.display i.2) :
    ∀ i ∈ printed items, Reads u l i.1 i.2 := by
  intro i hi
  obtain ⟨j, hj, rfl⟩ := mem_map.mp hi
  exact h j hj

theorem Reads.display {l : Level} {t : List Char} {e : TypeExpr} (h : Reads u l t e) : Reads u l e.display e := by
  induction h with
  | name _ hn _ =>
    have := Reads.name (u := u) Spaces.nil hn Spaces.nil
    simpa [TypeExpr.display] using this
  | @generic _ n _ items _ hn hne _ _ ih =>
    have := Reads.generic Spaces.nil hn (by simpa [printed] using hne) (printed_reads ih) Spaces.nil
    rw [printed_texts, printed_types, ← displayAll_eq] at this
    simpa [TypeExpr.display] using this
  | blockEmpty =>
    have := Reads.blockEmpty (u := u) Spaces.nil Spaces.nil Spaces.nil
    simpa [TypeExpr.display, displayAll] using this
  | @blockArgs _ _ items _ hne _ _ ih =>
    have := Reads.blockArgs Spaces.nil (by simpa [printed] using hne) (printed_reads ih) Spaces.nil
    rw [printed_texts, printed_types, ← displayAll_eq] at this
    simpa [TypeExpr.display] using this
  | @blockReturn _ _ _ _ r items _ _ _ _ _ ih ihr =>
    have := Reads.blockReturn Spaces.nil (printed_reads ih) Spaces.nil ihr Spaces.nil
    rw [printed_texts, printed_types, ← commaed_eq] at this
    simpa only [TypeExpr.display, nil_append, append_assoc, cons_append] using this
  | single _ ih => exact .single ih
  | @variants items hl _ ih =>
    have := Reads.variants (by simpa [printed] using hl) (printed_reads ih)
    rw [printed_texts, printed_types, ← displayAll_eq] at this
    simpa [TypeExpr.display] using this
  | plain _ ih => exact .plain ih
  | @inferenceDef t w e _ _ _ ih =>
    have hread := Reads.inferenceDef (ih.spaces_union Spaces.nil.space) (by
      intro c hc
      rw [nil_append, getLast?_concat] at hc
      cases hc
      exact isNameCont_whitespace (by decide)) Spaces.nil
    simpa [TypeExpr.display] using hread

theorem parse_display {t : List Char} {e : TypeExpr} (h : Reads u .whole t e) : parse u e.display = .ok e := by
  have hnil : Ender [] := by simp [Ender]
  obtain ⟨r', he, hr'⟩ := h.display.completes (stepsFor e.display) [] (by simp [stepsFor]) hnil
  rw [append_nil] at he
  rw [parse, he]
  change (skipWs r' >>= _) = _
  rw [hr']
  rfl

theorem takeWhile_stop {p : Char → Bool} {x : Char} {q t : List Char} (hx : p x = false) :
    (q ++ x :: t).takeWhile p = q.takeWhile p := by
  induction q with
  | nil => simp [hx]
  | cons y q ih =>
    simp only [cons_append, takeWhile_cons]
    rw [ih]

theorem dropWhile_stop {p : Char → Bool} {x : Char} {q t : List Char} (hx : p x = false) :
    (q ++ x :: t).dropWhile p = q.dropWhile p ++ x :: t := by
  induction q with
  | nil => simp [hx]
  | cons y q ih =>
    simp only [cons_append, dropWhile_cons]
    split
    next => rw [ih]
    next => rfl

section InStep

variable {α β : Type} (c : Char) (suf z : List Char)

def Cut (s s' : List Char) : Prop := ∃ q, s = q ++ ' ' :: z ∧ s' = q ++ c :: suf

def CutLater (s s' : List Char) : Prop := ∃ d q, s = d :: (q ++ ' ' :: z) ∧ s' = d :: (q ++ c :: suf)

/-- What is read of one text is read of the other, until that one panics or is out of steps. -/
def InStep (R : List Char → List Char → Prop) (x y : Except Stop (α × List Char)) : Prop :=
  ∀ a r, x = .ok (a, r) → y = .error .panic ∨ y = .error .exhausted ∨ ∃ r', y = .ok (a, r') ∧ R r r'

variable {c suf z} {R S : List Char → List Char → Prop}

theorem InStep.bind {x y : Except Stop (α × List Char)} {f g : α × List Char → Except Stop (β × List Char)}
    (h : InStep R x y) (hf : ∀ a r r', R r r' → InStep S (f (a, r)) (g (a, r'))) : InStep S (x >>= f) (y >>= g) := by
  intro b t hb
  cases x with
  | error e => cases hb
  | ok ar =>
    rcases h ar.1 ar.2 rfl with rfl | rfl | ⟨r', rfl, hr⟩
    · exact .inl rfl
    · exact .inr (.inl rfl)
    · exact hf ar.1 ar.2 r' hr b t hb

theorem InStep.ok {a : α} {r r' : List Char} (h : R r r') : InStep R (.ok (a, r)) (.ok (a, r')) := by
  intro b t hb
  cases hb
  exact .inr (.inr ⟨r', rfl, h⟩)

theorem InStep.error {e : Stop} {y : Except Stop (α × List Char)} : InStep R (.error e) y := by
  intro b t hb
  cases hb

theorem InStep.exhausted {x : Except Stop (α × List Char)} : InStep R x (.error .exhausted) := by
  intro b t _
  exact .inr (.inl rfl)

variable {s s' : List Char} {n m : Nat}

theorem CutLater.cut (h : CutLater c suf z s s') : Cut c suf z s s' := by
  obtain ⟨d, q, hs, hs'⟩ := h
  exact ⟨d :: q, hs, hs'⟩

theorem CutLater.head {s s' : List Char} (h : CutLater c suf z s s') : s.head? = s'.head? := by
  obtain ⟨d, q, rfl, rfl⟩ := h
  rfl

theorem CutLater.bump (h : CutLater c suf z s s') : Cut c suf z (bump s) (bump s') := by
  obtain ⟨d, q, rfl, rfl⟩ := h
  exact ⟨q, rfl, rfl⟩

variable (hc : Wide c)

include hc

theorem Cut.head_bracket (h : Cut c suf z s s') : s.head? = some '[' ↔ s'.head? = some '[' := by
  obtain ⟨q, rfl, rfl⟩ := h
  cases q with
  | nil =>
    simp only [nil_append, head?_cons, Option.some.injEq]
    constructor
    · intro h
      exact absurd h (by decide)
    · intro h
      rw [h] at hc
      exact absurd hc.1 (by decide)
  | cons d q => rfl

omit hc in
theorem Cut.bump_of_bracket {s s' : List Char} (h : Cut c suf z s s') (hs : s.head? = some '[') :
    Cut c suf z (bump s) (bump s') := by
  obtain ⟨q, rfl, rfl⟩ := h
  cases q with
  | nil => exact absurd (Option.some.inj hs) (by decide)
  | cons d q => exact ⟨q, rfl, rfl⟩

theorem skipWs_inStep (h : Cut c suf z s s') : InStep (CutLater c suf z) (skipWs s) (skipWs s') := by
  obtain ⟨q, rfl, rfl⟩ := h
  induction q with
  | nil =>
    intro a r _
    left
    rw [nil_append, skipWs, if_pos hc.1, if_neg hc.2]
  | cons d q ih =>
    simp only [cons_append, skipWs]
    split
    next =>
      split
      next => exact ih
      next => exact InStep.error
    next => exact InStep.ok ⟨d, q, rfl, rfl⟩

theorem peek_inStep (h : Cut c suf z s s') : InStep (CutLater c suf z) (peek s) (peek s') := by
  apply (skipWs_inStep hc h).bind
  intro a r r' hr
  dsimp only
  rw [hr.head]
  exact InStep.ok hr

theorem readIdent_inStep (h : Cut c suf z s s') : InStep (Cut c suf z) (readIdent u s) (readIdent u s') := by
  apply (skipWs_inStep hc h).bind
  intro a r r' hr
  obtain ⟨d, q, rfl, rfl⟩ := hr
  dsimp only
  split
  next =>
    have hspace : isNameCont u ' ' = false := isNameCont_whitespace (by decide)
    have hwide : isNameCont u c = false := isNameCont_whitespace hc.1
    rw [takeWhile_stop hspace, takeWhile_stop hwide, dropWhile_stop hspace, dropWhile_stop hwide]
    exact InStep.ok ⟨_, rfl, rfl⟩
  next => exact InStep.ok ⟨d :: q, rfl, rfl⟩

theorem expect_inStep (want : Char) (h : Cut c suf z s s') : InStep (Cut c suf z) (expect want s) (expect want s') := by
  apply (peek_inStep hc h).bind
  intro a r r' hr
  dsimp only
  split
  next => exact InStep.ok hr.bump
  next => exact InStep.error

structure AllInStep (u : CharClass) (c : Char) (suf z : List Char) (n m : Nat) : Prop where
  atom : ∀ s s', Cut c suf z s s' → InStep (Cut c suf z) (parseAtom u n s) (parseAtom u m s')
  variants : ∀ acc s s', Cut c suf z s s' → InStep (Cut c suf z) (parseVariants u n acc s) (parseVariants u m acc s')
  union : ∀ s s', Cut c suf z s s' → InStep (Cut c suf z) (parseUnion u n s) (parseUnion u m s')
  whole : ∀ s s', Cut c suf z s s' → InStep (Cut c suf z) (parseTypeExpr u n s) (parseTypeExpr u m s')
  args : ∀ acc s s', Cut c suf z s s' → InStep (Cut c suf z) (parseArgs u n acc s) (parseArgs u m acc s')
  list : ∀ s s', Cut c suf z s s' → InStep (Cut c suf z) (parseTypeList u n s) (parseTypeList u m s')
  parts : ∀ acc s s', Cut c suf z s s' → InStep (Cut c suf z) (parseBlockParts u n acc s) (parseBlockParts u m acc s')
  body : ∀ s s', Cut c suf z s s' → InStep (Cut c suf z) (parseBlockBody u n s) (parseBlockBody u m s')

theorem atom_inStep (ih : AllInStep u c suf z n m) (h : Cut c suf z s s') :
    InStep (Cut c suf z) (parseAtom u (n + 1) s) (parseAtom u (m + 1) s') := by
  rw [parseAtom, parseAtom]
  apply (peek_inStep hc h).bind
  intro a r r' hr
  dsimp only
  split
  next => exact ih.body _ _ hr.bump
  next =>
    apply (readIdent_inStep hc hr.cut).bind
    intro name r r' hr
    cases name with
    | none =>
      apply (peek_inStep hc hr).bind
      intro _ _ _ _
      exact InStep.error
    | some name =>
      dsimp only
      by_cases hb : r.head? = some '['
      · rw [if_pos hb, if_pos ((hr.head_bracket hc).mp hb)]
        apply (ih.list _ _ (hr.bump_of_bracket hb)).bind
        intro args r r' hr
        dsimp only
        split
        next => exact InStep.error
        next =>
          apply (expect_inStep hc ']' hr).bind
          intro _ r r' hr
          exact InStep.ok hr
      · rw [if_neg hb, if_neg fun hb' => hb ((hr.head_bracket hc).mpr hb')]
        exact InStep.ok hr

theorem variants_inStep (ih : AllInStep u c suf z n m) (acc : List TypeExpr)
    (h : Cut c suf z s s') : InStep (Cut c suf z) (parseVariants u (n + 1) acc s) (parseVariants u (m + 1) acc s') := by
  rw [parseVariants, parseVariants]
  apply (peek_inStep hc h).bind
  intro a r r' hr
  dsimp only
  split
  next =>
    apply (ih.atom _ _ hr.bump).bind
    intro e r r' hr
    exact ih.variants _ _ _ hr
  next => exact InStep.ok hr.cut

omit hc in
theorem union_inStep {n m : Nat} (ih : AllInStep u c suf z n m) {s s' : List Char} (h : Cut c suf z s s') :
    InStep (Cut c suf z) (parseUnion u (n + 1) s) (parseUnion u (m + 1) s') := by
  rw [parseUnion, parseUnion]
  apply (ih.atom _ _ h).bind
  intro e r r' hr
  apply (ih.variants _ _ _ hr).bind
  intro variants r r' hr
  exact InStep.ok hr

theorem whole_inStep (ih : AllInStep u c suf z n m) (h : Cut c suf z s s') :
    InStep (Cut c suf z) (parseTypeExpr u (n + 1) s) (parseTypeExpr u (m + 1) s') := by
  rw [parseTypeExpr, parseTypeExpr]
  apply (ih.union _ _ h).bind
  intro e r r' hr
  apply (readIdent_inStep hc hr).bind
  intro name after after' hafter
  dsimp only
  split
  next => exact InStep.ok hafter
  next => exact InStep.ok hr

theorem args_inStep (ih : AllInStep u c suf z n m) (acc : List TypeExpr)
    (h : Cut c suf z s s') : InStep (Cut c suf z) (parseArgs u (n + 1) acc s) (parseArgs u (m + 1) acc s') := by
  rw [parseArgs, parseArgs]
  apply (ih.whole _ _ h).bind
  intro e r r' hr
  apply (peek_inStep hc hr).bind
  intro a r r' hr
  dsimp only
  split
  next => exact ih.args _ _ _ hr.bump
  next => exact InStep.ok hr.cut

theorem list_inStep (ih : AllInStep u c suf z n m) (h : Cut c suf z s s') :
    InStep (Cut c suf z) (parseTypeList u (n + 1) s) (parseTypeList u (m + 1) s') := by
  rw [parseTypeList, parseTypeList]
  apply (peek_inStep hc h).bind
  intro a r r' hr
  dsimp only
  split
  next => exact InStep.ok hr.cut
  next => exact ih.args _ _ _ hr.cut

theorem parts_inStep (ih : AllInStep u c suf z n m) (acc : List TypeExpr)
    (h : Cut c suf z s s') : InStep (Cut c suf z) (parseBlockParts u (n + 1) acc s) (parseBlockParts u (m + 1) acc s') := by
  rw [parseBlockParts, parseBlockParts]
  apply (peek_inStep hc h).bind
  intro a r r' hr
  dsimp only
  split
  next =>
    apply (ih.whole _ _ hr.bump).bind
    intro e r r' hr
    exact InStep.ok hr
  next =>
    apply (ih.whole _ _ hr.cut).bind
    intro e r r' hr
    apply (peek_inStep hc hr).bind
    intro a r r' hr
    split
    next => exact ih.parts _ _ _ hr.bump
    next => exact InStep.ok hr.cut

theorem body_inStep (ih : AllInStep u c suf z n m) (h : Cut c suf z s s') :
    InStep (Cut c suf z) (parseBlockBody u (n + 1) s) (parseBlockBody u (m + 1) s') := by
  have hclose : ∀ (parts : List TypeExpr × Option TypeExpr) r r', Cut c suf z r r' →
      InStep (Cut c suf z) (expect ']' r >>= fun x => Except.ok (TypeExpr.block parts.1 parts.2, x.2))
        (expect ']' r' >>= fun x => Except.ok (TypeExpr.block parts.1 parts.2, x.2)) := by
    intro parts r r' hr
    apply (expect_inStep hc ']' hr).bind
    intro _ r r' hr
    exact InStep.ok hr
  rw [parseBlockBody, parseBlockBody]
  apply (peek_inStep hc h).bind
  intro a r r' hr
  dsimp only
  split
  next => exact hclose ([], none) r r' hr.cut
  next =>
    apply (ih.parts _ _ _ hr.cut).bind
    intro parts r r' hr
    exact hclose parts r r' hr

theorem all_inStep (u : CharClass) (h : m ≤ n) : AllInStep u c suf z n m := by
  induction m generalizing n with
  | zero =>
    constructor
    · intro s s' _
      rw [parseAtom.eq_1 u s']
      exact InStep.exhausted
    · intro acc s s' _
      rw [parseVariants.eq_1 u acc s']
      exact InStep.exhausted
    · intro s s' _
      rw [parseUnion.eq_1 u s']
      exact InStep.exhausted
    · intro s s' _
      rw [parseTypeExpr.eq_1 u s']
      exact InStep.exhausted
    · intro acc s s' _
      rw [parseArgs.eq_1 u acc s']
      exact InStep.exhausted
    · intro s s' _
      rw [parseTypeList.eq_1 u s']
      exact InStep.exhausted
    · intro acc s s' _
      rw [parseBlockParts.eq_1 u acc s']
      exact InStep.exhausted
    · intro s s' _
      rw [parseBlockBody.eq_1 u s']
      exact InStep.exhausted
  | succ m ih =>
    cases n with
    | zero => omega
    | succ n =>
      have hall := ih (n := n) (by omega)
      exact {
        atom := fun _ _ => atom_inStep hc hall
        variants := fun acc _ _ => variants_inStep hc hall acc
        union := fun _ _ => union_inStep hall
        whole := fun _ _ => whole_inStep hc hall
        args := fun acc _ _ => args_inStep hc hall acc
        list := fun _ _ => list_inStep hc hall
        parts := fun acc _ _ => parts_inStep hc hall acc
        body := fun _ _ => body_inStep hc hall }

end InStep

def WideSpaceInside (u : CharClass) (text : List Char) : Prop :=
  ∃ before c after z e, text = before ++ c :: after ∧ Wide c ∧ Reads u .whole (before ++ ' ' :: z) e

theorem parse_told (u : CharClass) (text : List Char) :
    (∃ e, parse u text = .ok e ∧ Reads u .whole text e) ∨ (∃ x, parse u text = .error (.failed x)) ∨
      (parse u text = .error .panic ∧ WideSpaceInside u text) := by
  have htold := (all_told u (stepsFor text)).whole text (by simp [stepsFor])
  cases hp : parseTypeExpr u (stepsFor text) text with
  | error x =>
    rw [hp] at htold
    have hparse : parse u text = .error x := by
      rw [parse, hp]
      rfl
    cases x with
    | failed x => exact .inr (.inl ⟨x, hparse⟩)
    | panic =>
      obtain ⟨p, c, suf, z, hs, hc, e, he⟩ := htold
      exact .inr (.inr ⟨hparse, p, c, suf, z, e, hs, hc, he⟩)
    | exhausted => exact htold.elim
  | ok er =>
    obtain ⟨e, r⟩ := er
    rw [hp] at htold
    obtain ⟨t, hs, he⟩ := htold
    have hskip := skipWs_told r
    cases hw : skipWs r with
    | error x =>
      rw [hw] at hskip
      have hparse : parse u text = .error x := by
        rw [parse, hp]
        change (skipWs r >>= _) = _
        rw [hw]
        rfl
      cases x with
      | failed x => exact .inr (.inl ⟨x, hparse⟩)
      | panic =>
        obtain ⟨p, c, suf, z, hr, hc, hz⟩ := hskip
        refine .inr (.inr ⟨hparse, t ++ p, c, suf, z, e, by rw [hs, hr, append_assoc], hc, ?_⟩)
        simpa using he.spaces hz
      | exhausted => exact hskip.elim
    | ok xr =>
      obtain ⟨_, r'⟩ := xr
      rw [hw] at hskip
      obtain ⟨v, hr, hv, _⟩ := hskip
      have hparse : parse u text = if r' = [] then .ok e else .error (.failed (.trailing r')) := by
        rw [parse, hp]
        change (skipWs r >>= _) = _
        rw [hw]
        rfl
      by_cases hnil : r' = []
      · left
        rw [if_pos hnil] at hparse
        refine ⟨e, hparse, ?_⟩
        rw [hs, hr, hnil, append_nil]
        exact he.spaces hv
      · rw [if_neg hnil] at hparse
        exact .inr (.inl ⟨_, hparse⟩)

theorem parse_panics {text : List Char} (h : WideSpaceInside u text) : parse u text = .error .panic := by
  obtain ⟨before, c, after, z, e, rfl, hc, hread⟩ := h
  have hnil : Ender [] := by simp [Ender]
  let steps := max (stepsFor (before ++ c :: after)) (5 * (before ++ ' ' :: z).length + 3)
  obtain ⟨r, he, hr⟩ := hread.completes steps [] (Nat.le_max_right _ _) hnil
  rw [append_nil] at he
  have hcut : Cut c after z (before ++ ' ' :: z) (before ++ c :: after) := ⟨before, rfl, rfl⟩
  have hle : stepsFor (before ++ c :: after) ≤ steps := Nat.le_max_left _ _
  have hstep := (all_inStep hc u hle).whole _ _ hcut _ _ he
  rcases hstep with hpanic | hex | ⟨r', hok, hcut⟩
  · rw [parse, hpanic]
    rfl
  · have htold := (all_told u (stepsFor (before ++ c :: after))).whole (before ++ c :: after) (by simp [stepsFor])
    rw [hex] at htold
    exact htold.elim
  · rcases skipWs_inStep hc hcut _ _ hr with hpanic | hex | ⟨r3, _, hlater⟩
    · rw [parse, hok]
      change (skipWs r' >>= _) = _
      rw [hpanic]
      rfl
    · have htold := skipWs_told r'
      rw [hex] at htold
      exact htold.elim
    · obtain ⟨d, q, hd, _⟩ := hlater
      cases hd

/-- Every text is answered or refused, and what is read of it is read of its printed form, exactly when no
wide space stands where a token may follow. -/
theorem parse_roundTrip_iff (u : CharClass) (text : List Char) :
    (((∃ e, parse u text = .ok e) ∨ ∃ x, parse u text = .error (.failed x)) ∧
      ∀ e, parse u text = .ok e → parse u e.display = .ok e) ↔ ¬WideSpaceInside u text := by
  constructor
  · intro ⟨hreturns, _⟩ hwide
    rw [parse_panics hwide] at hreturns
    rcases hreturns with ⟨e, he⟩ | ⟨x, hx⟩
    · cases he
    · cases hx
  · intro hwide
    rcases parse_told u text with ⟨e, he, hread⟩ | ⟨x, hx⟩ | ⟨_, h⟩
    · refine ⟨.inl ⟨e, he⟩, ?_⟩
      intro e' he'
      rw [he] at he'
      cases he'
      exact parse_display hread
    · refine ⟨.inr ⟨x, hx⟩, ?_⟩
      intro e he
      rw [hx] at he
      cases he
    · exact absurd h hwide

/-- A no-break space after a name. -/
theorem parse_noBreakSpace : parse asciiClass ['A', Char.ofNat 0xA0] = .error .panic := by
  rfl

end WinArmVm.Types
