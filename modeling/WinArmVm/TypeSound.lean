import WinArmVm.TypeGrammar
import Mathlib.Data.List.TakeWhile

namespace WinArmVm.Types

open List

open Frontend (isWhitespace)

section Told

variable {α β : Type}

/-- What an outcome says about the text: an answer is for its beginning, a panic means that the text before
a wide space goes on to what was asked for, and the steps suffice. -/
def Told (s : List Char) (A : List Char → α → List Char → Prop) (C : List Char → Prop) :
    Except Stop (α × List Char) → Prop
  | .ok (a, r) => ∃ t, s = t ++ r ∧ A t a r
  | .error .panic => ∃ p c suf z, s = p ++ c :: suf ∧ Wide c ∧ C (p ++ ' ' :: z)
  | .error (.failed _) => True
  | .error .exhausted => False

variable {s : List Char} {A : List Char → α → List Char → Prop} {B : List Char → β → List Char → Prop}
  {C D : List Char → Prop}

variable {x : Except Stop (α × List Char)}

theorem Told.bind {f : α × List Char → Except Stop (β × List Char)} (h : Told s A C x) (hC : ∀ t, C t → ∃ y, D (t ++ y))
    (hf : ∀ t a r, s = t ++ r → A t a r → Told r (fun t' b r' => B (t ++ t') b r') (fun t' => D (t ++ t')) (f (a, r))) :
    Told s B D (x >>= f) := by
  cases x with
  | error e =>
    cases e with
    | panic =>
      obtain ⟨p, c, suf, z, hs, hc, hz⟩ := h
      obtain ⟨y, hy⟩ := hC _ hz
      exact ⟨p, c, suf, z ++ y, hs, hc, by simpa using hy⟩
    | failed e => trivial
    | exhausted => exact h.elim
  | ok ar =>
    obtain ⟨a, r⟩ := ar
    obtain ⟨t, hs, ha⟩ := h
    have hr := hf t a r hs ha
    change Told s B D (f (a, r))
    cases hx : f (a, r) with
    | error e =>
      rw [hx] at hr
      cases e with
      | panic =>
        obtain ⟨p, c, suf, z, hr, hc, hz⟩ := hr
        exact ⟨t ++ p, c, suf, z, by rw [hs, hr, append_assoc], hc, by simpa using hz⟩
      | failed e => trivial
      | exhausted => exact hr.elim
    | ok br =>
      rw [hx] at hr
      obtain ⟨t', hr, hb⟩ := hr
      exact ⟨t ++ t', by rw [hs, hr, append_assoc], hb⟩

theorem Told.ok {a : α} (h : A [] a s) : Told s A C (.ok (a, s)) := ⟨[], rfl, h⟩

theorem Told.failed {e : ParseError} : Told s A C (.error (.failed e)) := trivial

theorem Told.bump {c : Char}
    (h : Told s (fun t a r => A (c :: t) a r) (fun t => C (c :: t)) x) : Told (c :: s) A C x := by
  cases x with
  | error e =>
    cases e with
    | panic =>
      obtain ⟨p, d, suf, z, hs, hd, hz⟩ := h
      exact ⟨c :: p, d, suf, z, by rw [hs, cons_append], hd, hz⟩
    | failed e => trivial
    | exhausted => exact h.elim
  | ok ar =>
    obtain ⟨t, hs, ha⟩ := h
    exact ⟨c :: t, by rw [hs, cons_append], ha⟩

theorem Told.mono {A' : List Char → α → List Char → Prop} {C' : List Char → Prop} {x : Except Stop (α × List Char)}
    (h : Told s A C x) (hA : ∀ t a r, s = t ++ r → A t a r → A' t a r) (hC : ∀ t, C t → ∃ y, C' (t ++ y)) :
    Told s A' C' x := by
  cases x with
  | error e =>
    cases e with
    | panic =>
      obtain ⟨p, c, suf, z, hs, hc, hz⟩ := h
      obtain ⟨y, hy⟩ := hC _ hz
      exact ⟨p, c, suf, z ++ y, hs, hc, by simpa using hy⟩
    | failed e => trivial
    | exhausted => exact h.elim
  | ok ar =>
    obtain ⟨t, hs, ha⟩ := h
    exact ⟨t, hs, hA t _ _ hs ha⟩

end Told

def Settled (r : List Char) : Prop := ∀ c, r.head? = some c → isWhitespace c = false

variable (s : List Char)

theorem skipWs_told : Told s (fun t _ r => Spaces t ∧ Settled r) Spaces (skipWs s) := by
  induction s with
  | nil => exact ⟨[], rfl, Spaces.nil, by simp [Settled]⟩
  | cons c s ih =>
    rw [skipWs]
    split
    next hw =>
      split
      next h1 =>
        have hc : Spaces [c] := by
          intro d hd
          cases mem_singleton.mp hd
          exact ⟨hw, h1⟩
        apply Told.bump
        apply ih.mono
        · intro t _ r _ ht
          exact ⟨hc.append ht.1, ht.2⟩
        · intro t ht
          exact ⟨[], by simpa using hc.append ht⟩
      next h1 => exact ⟨[], c, s, [], rfl, ⟨hw, h1⟩, Spaces.nil.space⟩
    next hw =>
      apply Told.ok
      refine ⟨Spaces.nil, ?_⟩
      intro d hd
      cases hd
      simpa using hw

theorem peek_told : Told s (fun t c r => Spaces t ∧ Settled r ∧ c = r.head?) Spaces (peek s) := by
  apply (skipWs_told s).bind
  · intro t ht
    exact ⟨[], by simpa using ht⟩
  · intro t _ r _ ht
    exact Told.ok ⟨by simpa using ht.1, ht.2, rfl⟩

variable {u : CharClass}

def Munch (u : CharClass) (t r : List Char) : Prop :=
  ∀ c, t.getLast? = some c → isNameCont u c = true → ∀ d, r.head? = some d → isNameCont u d = false

theorem Munch.append {t t' r : List Char} (h : Munch u t (t' ++ r)) (h' : Munch u t' r) : Munch u (t ++ t') r := by
  rcases eq_nil_or_concat t' with rfl | ⟨t', c, rfl⟩
  · simpa using h
  · intro d hd
    rw [concat_eq_append, ← append_assoc, getLast?_concat] at hd
    rw [Munch, concat_eq_append, getLast?_concat] at h'
    exact h' d hd

theorem Munch.after {t r : List Char} (x : List Char) (hne : t ≠ []) (h : Munch u t r) : Munch u (x ++ t) r := by
  rcases eq_nil_or_concat t with rfl | ⟨t, c, rfl⟩
  · exact absurd rfl hne
  · intro d hd
    rw [concat_eq_append, ← append_assoc, getLast?_concat] at hd
    rw [Munch, concat_eq_append, getLast?_concat] at h
    exact h d hd

theorem Munch.of_spaces {v r : List Char} (hv : Spaces v) : Munch u v r := by
  intro c hc hn
  rw [isNameCont_whitespace (hv c (mem_of_getLast? hc)).1] at hn
  cases hn

theorem Munch.of_bracket {t r : List Char} : Munch u (t ++ [']']) r := by
  intro c hc hn
  rw [getLast?_concat] at hc
  cases hc
  rw [isNameCont_ascii (by decide) (by decide) (by decide)] at hn
  cases hn

theorem readIdent_told :
    Told s (fun t name r => ∃ v n, t = v ++ n ∧ Spaces v ∧ (name = none ∧ n = [] ∨ name = some n ∧ IsName u n) ∧
      (name ≠ none → ∀ d, r.head? = some d → isNameCont u d = false)) Spaces (readIdent u s) := by
  apply (skipWs_told s).bind
  · intro t ht
    exact ⟨[], by simpa using ht⟩
  · intro t _ r _ ht
    cases r with
    | nil => exact Told.ok ⟨t, [], by simp, ht.1, .inl ⟨rfl, rfl⟩, by simp⟩
    | cons c cs =>
      dsimp only
      split
      next hc =>
        refine ⟨c :: cs.takeWhile (isNameCont u), by simp, t, c :: cs.takeWhile (isNameCont u), rfl, ht.1,
          .inr ⟨rfl, c, _, rfl, hc, ?_⟩, ?_⟩
        · intro d hd
          exact mem_takeWhile_imp hd
        · intro _ d hd
          have := head?_dropWhile_not (isNameCont u) cs
          rw [hd] at this
          simpa using this
      next => exact Told.ok ⟨t, [], by simp, ht.1, .inl ⟨rfl, rfl⟩, by simp⟩

theorem expect_told (want : Char) (s : List Char) :
    Told s (fun t _ _ => ∃ v, t = v ++ [want] ∧ Spaces v) Spaces (expect want s) := by
  apply (peek_told s).bind
  · intro t ht
    exact ⟨[], by simpa using ht⟩
  · intro t c r _ ht
    dsimp only
    split
    next hc =>
      rw [ht.2.2] at hc
      cases r with
      | nil => cases hc
      | cons d r =>
        cases Option.some.inj hc
        exact ⟨[want], rfl, t, rfl, ht.1⟩
    next => exact Told.failed

def VariantsText (u : CharClass) (t : List Char) (variants : List TypeExpr) : Prop :=
  ∃ (v : List Char) (items : List (List Char × TypeExpr)), t = v ++ joinedRest '|' (items.map (·.1)) ∧ Spaces v ∧ (∀ i ∈ items, Reads u .atom i.1 i.2) ∧
    variants = items.map (·.2)

def ArgsText (u : CharClass) (t : List Char) (args : List TypeExpr) : Prop :=
  ∃ items : List (List Char × TypeExpr), items ≠ [] ∧ t = joined ',' (items.map (·.1)) ∧
    (∀ i ∈ items, Reads u .whole i.1 i.2) ∧ args = items.map (·.2)

def ReturnText (u : CharClass) (t : List Char) (args : List TypeExpr) (r : TypeExpr) : Prop :=
  ∃ (items : List (List Char × TypeExpr)) (x t' : List Char), t = commaed (items.map (·.1)) ++ (x ++ '^' :: t') ∧
    (∀ i ∈ items, Reads u .whole i.1 i.2) ∧ Spaces x ∧ Reads u .whole t' r ∧ args = items.map (·.2)

def PartsText (u : CharClass) (t : List Char) (args : List TypeExpr) : Option TypeExpr → Prop
  | none => ArgsText u t args
  | some r => ReturnText u t args r

theorem VariantsText.cons {v t t' : List Char} {e : TypeExpr} {variants : List TypeExpr} (hv : Spaces v)
    (h : Reads u .atom t e) (h' : VariantsText u t' variants) :
    VariantsText u (v ++ '|' :: (t ++ t')) (e :: variants) := by
  obtain ⟨w, items, rfl, hw, hi, rfl⟩ := h'
  refine ⟨v, (t ++ w, e) :: items, by simp [joinedRest], hv, ?_, rfl⟩
  intro i hm
  rcases mem_cons.mp hm with rfl | hm
  · exact h.spaces_atom hw
  · exact hi i hm

theorem VariantsText.union {t t' : List Char} {e : TypeExpr} {variants : List TypeExpr} (h : Reads u .atom t e)
    (h' : VariantsText u t' variants) :
    Reads u .union (t ++ t') (match e :: variants with | [e] => e | _ => .union (e :: variants)) := by
  obtain ⟨v, items, rfl, hv, hi, rfl⟩ := h'
  cases items with
  | nil => simpa [joinedRest] using Reads.single (h.spaces_atom hv)
  | cons i items =>
    have hread : Reads u .union (joined '|' (((t ++ v, e) :: i :: items).map (·.1)))
        (.union (((t ++ v, e) :: i :: items).map (·.2))) := by
      apply Reads.variants (by simp)
      intro j hm
      rcases mem_cons.mp hm with rfl | hm
      · exact h.spaces_atom hv
      · exact hi j hm
    simpa [joined] using hread

theorem ArgsText.one {t : List Char} {e : TypeExpr} (h : Reads u .whole t e) : ArgsText u t [e] := by
  refine ⟨[(t, e)], by simp, by simp [joined, joinedRest], ?_, rfl⟩
  intro i hm
  cases mem_singleton.mp hm
  exact h

theorem ArgsText.cons {t t' : List Char} {e : TypeExpr} {args : List TypeExpr} (h : Reads u .whole t e)
    (h' : ArgsText u t' args) : ArgsText u (t ++ ',' :: t') (e :: args) := by
  obtain ⟨items, hne, rfl, hi, rfl⟩ := h'
  refine ⟨(t, e) :: items, by simp, ?_, ?_, rfl⟩
  · cases items with
    | nil => exact absurd rfl hne
    | cons i items => simp [joined, joinedRest]
  · intro i hm
    rcases mem_cons.mp hm with rfl | hm
    · exact h
    · exact hi i hm

variable {args : List TypeExpr} {t v : List Char} {n : Nat} {r : Option TypeExpr}

theorem ArgsText.spaces (h : ArgsText u t args) (hv : Spaces v) : ArgsText u (t ++ v) args := by
  obtain ⟨items, hne, rfl, hi, rfl⟩ := h
  rcases eq_nil_or_concat items with rfl | ⟨before, last, rfl⟩
  · exact absurd rfl hne
  · refine ⟨before ++ [(last.1 ++ v, last.2)], by simp, ?_, ?_, by simp⟩
    · simp [joined_append_last]
    · intro i hm
      rcases mem_append.mp hm with hm | hm
      · exact hi i (by simp [hm])
      · cases mem_singleton.mp hm
        exact (hi last (by simp)).spaces hv

theorem ArgsText.lead (hv : Spaces v) (h : ArgsText u t args) : ArgsText u (v ++ t) args := by
  obtain ⟨items, hne, rfl, hi, rfl⟩ := h
  cases items with
  | nil => exact absurd rfl hne
  | cons first items =>
    refine ⟨(v ++ first.1, first.2) :: items, by simp, by simp [joined], ?_, by simp⟩
    intro i hm
    rcases mem_cons.mp hm with rfl | hm
    · exact (hi first (by simp)).lead hv
    · exact hi i (by simp [hm])

theorem PartsText.lead (hv : Spaces v) (h : PartsText u t args r) : PartsText u (v ++ t) args r := by
  cases r with
  | none => exact ArgsText.lead hv h
  | some r =>
    obtain ⟨items, x, y, rfl, hi, hx, hr, rfl⟩ := h
    cases items with
    | nil => exact ⟨[], v ++ x, y, by simp [commaed], by simp, hv.append hx, hr, rfl⟩
    | cons first items =>
      refine ⟨(v ++ first.1, first.2) :: items, x, y, by simp [commaed], ?_, hx, hr, by simp⟩
      intro i hm
      rcases mem_cons.mp hm with rfl | hm
      · exact (hi first (by simp)).lead hv
      · exact hi i (by simp [hm])

theorem PartsText.one {t : List Char} {e : TypeExpr} (h : Reads u .whole t e) : PartsText u t [e] none := ArgsText.one h

theorem PartsText.cons {t t' : List Char} {e : TypeExpr} {args : List TypeExpr} {r : Option TypeExpr}
    (h : Reads u .whole t e) (h' : PartsText u t' args r) : PartsText u (t ++ ',' :: t') (e :: args) r := by
  cases r with
  | none => exact ArgsText.cons h h'
  | some r =>
    obtain ⟨items, x, y, rfl, hi, hx, hr, rfl⟩ := h'
    refine ⟨(t, e) :: items, x, y, by simp [commaed], ?_, hx, hr, rfl⟩
    intro i hm
    rcases mem_cons.mp hm with rfl | hm
    · exact h
    · exact hi i hm

theorem PartsText.spaces (h : PartsText u t args r) (hv : Spaces v) : PartsText u (t ++ v) args r := by
  cases r with
  | none => exact ArgsText.spaces h hv
  | some r =>
    obtain ⟨items, x, y, rfl, hi, hx, hr, rfl⟩ := h
    exact ⟨items, x, y ++ v, by simp, hi, hx, hr.spaces hv, rfl⟩

theorem PartsText.block (h : PartsText u t args r)
    (hv : Spaces v) : Reads u .atom (v ++ '[' :: (t ++ [']'])) (.block args r) := by
  cases r with
  | none =>
    obtain ⟨items, hne, rfl, hi, rfl⟩ := h
    exact .blockArgs hv hne hi Spaces.nil
  | some r =>
    obtain ⟨items, x, y, rfl, hi, hx, hr, rfl⟩ := h
    simpa using Reads.blockReturn hv hi hx hr Spaces.nil

theorem ArgsText.generic {t v n : List Char} {args : List TypeExpr} (h : ArgsText u t args) (hv : Spaces v)
    (hn : IsName u n) : Reads u .atom (v ++ (n ++ '[' :: (t ++ [']']))) (.generic (String.ofList n) args) := by
  obtain ⟨items, hne, rfl, hi, rfl⟩ := h
  exact .generic hv hn hne hi Spaces.nil

theorem Reads.name_X {v : List Char} (hv : Spaces v) : Reads u .atom (v ++ ['X']) (.named (String.ofList ['X'])) := by
  simpa using Reads.name hv isName_X Spaces.nil

theorem Reads.whole_X {v : List Char} (hv : Spaces v) : Reads u .whole (v ++ ['X']) (.named (String.ofList ['X'])) :=
  .plain (.single (Reads.name_X hv))

def AtomTold (u : CharClass) (n : Nat) : Prop := ∀ s : List Char, 5 * s.length + 1 ≤ n →
  Told s (fun t e r => Reads u .atom t e ∧ Munch u t r) (fun t => ∃ e, Reads u .atom t e) (parseAtom u n s)

def VariantsTold (u : CharClass) (n : Nat) : Prop := ∀ (acc : List TypeExpr) (s : List Char), 5 * s.length + 1 ≤ n →
  Told s (fun t variants r => (∃ more, variants = acc ++ more ∧ VariantsText u t more) ∧ Munch u t r ∧ Settled r)
    (fun t => ∃ more, VariantsText u t more) (parseVariants u n acc s)

def UnionTold (u : CharClass) (n : Nat) : Prop := ∀ s : List Char, 5 * s.length + 2 ≤ n →
  Told s (fun t e r => Reads u .union t e ∧ Munch u t r ∧ Settled r) (fun t => ∃ e, Reads u .union t e) (parseUnion u n s)

def WholeTold (u : CharClass) (n : Nat) : Prop := ∀ s : List Char, 5 * s.length + 3 ≤ n →
  Told s (fun t e _ => Reads u .whole t e) (fun t => ∃ e, Reads u .whole t e) (parseTypeExpr u n s)

def ArgsTold (u : CharClass) (n : Nat) : Prop := ∀ (acc : List TypeExpr) (s : List Char), 5 * s.length + 4 ≤ n →
  Told s (fun t args _ => ∃ more, args = acc ++ more ∧ ArgsText u t more) (fun t => ∃ more, ArgsText u t more)
    (parseArgs u n acc s)

def ListTold (u : CharClass) (n : Nat) : Prop := ∀ s : List Char, 5 * s.length + 5 ≤ n →
  Told s (fun t args _ => args = [] ∨ ArgsText u t args) (fun t => ∃ args, ArgsText u t args) (parseTypeList u n s)

def PartsTold (u : CharClass) (n : Nat) : Prop := ∀ (acc : List TypeExpr) (s : List Char), 5 * s.length + 4 ≤ n →
  Told s (fun t parts _ => ∃ more, parts.1 = acc ++ more ∧ PartsText u t more parts.2)
    (fun t => ∃ more r, PartsText u t more r) (parseBlockParts u n acc s)

def BodyTold (u : CharClass) (n : Nat) : Prop := ∀ s : List Char, 5 * s.length + 5 ≤ n →
  Told s (fun t e _ => (∃ t', t = t' ++ [']']) ∧ ∀ v, Spaces v → Reads u .atom (v ++ '[' :: t) e)
    (fun t => ∀ v, Spaces v → ∃ e, Reads u .atom (v ++ '[' :: t) e) (parseBlockBody u n s)

theorem atom_told (hb : BodyTold u n) (hl : ListTold u n) : AtomTold u (n + 1) := by
  intro s hn
  rw [parseAtom]
  apply (peek_told s).bind
  · intro t ht
    exact ⟨['X'], _, Reads.name_X ht⟩
  intro t c r hs ⟨ht, hset, hc⟩
  have hlen : s.length = t.length + r.length := by rw [hs, length_append]
  dsimp only
  split
  next hbr =>
    cases r with
    | nil =>
      rw [hc] at hbr
      cases hbr
    | cons d r =>
      rw [hc] at hbr
      cases hbr
      apply Told.bump
      simp only [length_cons] at hlen
      apply (hb r (by omega)).mono
      · intro t' e r' _ ⟨⟨t'', hte⟩, hread⟩
        refine ⟨hread t ht, ?_⟩
        subst hte
        have := Munch.of_bracket (u := u) (t := t ++ '[' :: t'') (r := r')
        simpa using this
      · intro t' hread
        obtain ⟨e, he⟩ := hread t ht
        exact ⟨[], e, by simpa using he⟩
  next hbr =>
    apply (readIdent_told r).bind
    · intro t' ht'
      exact ⟨['X'], _, by simpa using Reads.name_X (ht.append ht')⟩
    intro t' name r' hs' ⟨v, m, htm, hv, hname, hend⟩
    subst htm
    rcases hname with ⟨rfl, rfl⟩ | ⟨rfl, hm⟩
    · dsimp only
      apply (peek_told r').bind
      · intro t' ht'
        exact ⟨['X'], _, by simpa using Reads.name_X ((ht.append hv).append ht')⟩
      · intro _ _ _ _ _
        exact Told.failed
    · dsimp only
      have hlen' : r.length = v.length + m.length + r'.length := by
        rw [hs', length_append, length_append]
      split
      next hgl =>
        cases r' with
        | nil => cases hgl
        | cons d r' =>
          cases hgl
          simp only [length_cons] at hlen'
          apply Told.bump
          apply (hl r' (by omega)).bind
          · intro t' ⟨args, ha⟩
            exact ⟨[']'], _, by simpa using ha.generic (ht.append hv) hm⟩
          · intro t' args r'' _ ha
            split
            next => exact Told.failed
            next hne =>
              have ha' : ArgsText u t' args := by
                rcases ha with rfl | ha
                · exact absurd rfl hne
                · exact ha
              apply (expect_told ']' r'').bind
              · intro w hw
                exact ⟨[']'], _, by simpa using (ha'.spaces hw).generic (ht.append hv) hm⟩
              · intro w _ r3 _ ⟨x, hx, hsx⟩
                apply Told.ok
                subst hx
                constructor
                · simpa using (ha'.spaces hsx).generic (ht.append hv) hm
                · have := Munch.of_bracket (u := u) (t := t ++ (v ++ m ++ '[' :: (t' ++ x))) (r := r3)
                  simpa using this
      next hgl =>
        apply Told.ok
        constructor
        · simpa using Reads.name (ht.append hv) hm Spaces.nil
        · intro _ _ _ d hd
          exact hend (by simp) d hd

theorem variants_told (ha : AtomTold u n) (hv : VariantsTold u n) : VariantsTold u (n + 1) := by
  intro acc s hn
  rw [parseVariants]
  apply (peek_told s).bind
  · intro t ht
    exact ⟨[], [], t, [], by simp [joinedRest], ht, by simp, rfl⟩
  intro t c r hs hpeek
  obtain ⟨ht, hset, hc⟩ := hpeek
  have hlen : s.length = t.length + r.length := by rw [hs, length_append]
  dsimp only
  split
  next hbar =>
    cases r with
    | nil =>
      rw [hc] at hbar
      cases hbar
    | cons d r =>
      rw [hc] at hbar
      cases hbar
      simp only [length_cons] at hlen
      apply Told.bump
      apply (ha r (by omega)).bind
      · intro t' hread
        obtain ⟨e, he⟩ := hread
        refine ⟨[], [e], ?_⟩
        have hnone : VariantsText u [] [] := ⟨[], [], rfl, Spaces.nil, by simp, rfl⟩
        simpa using hnone.cons ht he
      · intro t' e r' hs' hread
        obtain ⟨he, hm⟩ := hread
        have hlen' : r.length = t'.length + r'.length := by rw [hs', length_append]
        apply (hv (acc ++ [e]) r' (by omega)).mono
        · intro t'' variants r'' hs'' hrest
          obtain ⟨⟨more, hmore, htext⟩, hm', hset'⟩ := hrest
          refine ⟨⟨e :: more, by simp [hmore], ?_⟩, ?_, hset'⟩
          · simpa using VariantsText.cons ht he htext
          · have hm'' : Munch u (t' ++ t'') r'' := by
              apply Munch.append _ hm'
              rw [← hs'']
              exact hm
            have hne : t' ++ t'' ≠ [] := by
              have hpos := he.length_pos
              intro hnil
              rw [(append_eq_nil_iff.mp hnil).1] at hpos
              simp at hpos
            simpa using Munch.after (t ++ ['|']) hne hm''
        · intro t'' hrest
          obtain ⟨more, htext⟩ := hrest
          refine ⟨[], e :: more, ?_⟩
          simpa using VariantsText.cons ht he htext
  next =>
    apply Told.ok
    simp only [append_nil]
    refine ⟨⟨[], by simp, t, [], by simp [joinedRest], ht, by simp, rfl⟩, Munch.of_spaces ht, hset⟩

theorem union_told (ha : AtomTold u n) (hv : VariantsTold u n) : UnionTold u (n + 1) := by
  intro s hn
  rw [parseUnion]
  apply (ha s (by omega)).bind
  · intro t hread
    obtain ⟨e, he⟩ := hread
    exact ⟨[], e, by simpa using Reads.single he⟩
  intro t e r hs hread
  obtain ⟨he, hm⟩ := hread
  have hlen : s.length = t.length + r.length := by rw [hs, length_append]
  apply (hv [e] r (by omega)).bind
  · intro t' hrest
    obtain ⟨more, htext⟩ := hrest
    exact ⟨[], _, by simpa using htext.union he⟩
  intro t' variants r' hs' hrest
  obtain ⟨⟨more, hmore, htext⟩, hm', hset⟩ := hrest
  apply Told.ok
  subst hmore
  rw [append_nil]
  refine ⟨htext.union he, Munch.append ?_ hm', hset⟩
  rw [← hs']
  exact hm

theorem isNameCont_d : isNameCont u 'd' = true := by
  unfold isNameCont
  rw [u.ascii_alphanumeric 'd' (by decide)]
  decide

theorem whole_told (hu : UnionTold u n) : WholeTold u (n + 1) := by
  intro s hn
  rw [parseTypeExpr]
  apply (hu s (by omega)).bind
  · intro t ⟨e, he⟩
    exact ⟨[], e, by simpa using Reads.plain he⟩
  intro t e r hs ⟨he, hm, hset⟩
  have hread := readIdent_told (u := u) r
  dsimp only
  cases hx : readIdent u r with
  | error x =>
    rw [hx] at hread
    cases x with
    | failed => exact Told.failed
    | exhausted => exact hread.elim
    | panic =>
      obtain ⟨p, c, suf, z, hp, hc, hz⟩ := hread
      exact ⟨p, c, suf, z, hp, hc, e, .plain (he.spaces_union hz)⟩
  | ok res =>
    obtain ⟨name, after⟩ := res
    rw [hx] at hread
    obtain ⟨t', hr, v, m, htm, hv, hname, hend⟩ := hread
    change Told r _ _ (if name = some ['d', 'e', 'f'] then .ok (.inferenceDef e, after) else .ok (e, r))
    split
    next hdef =>
      have hmd : m = ['d', 'e', 'f'] := by
        rcases hname with ⟨hnone, _⟩ | ⟨hsome, _⟩
        · rw [hnone] at hdef
          cases hdef
        · rw [hsome] at hdef
          exact Option.some.inj hdef
      refine ⟨v ++ m, by rw [hr, htm], ?_⟩
      have hm' : Munch u (t ++ v) (m ++ after) := by
        apply Munch.append _ (Munch.of_spaces hv)
        rw [← append_assoc, ← htm, ← hr]
        exact hm
      have hlast : ∀ c, (t ++ v).getLast? = some c → isNameCont u c = false := by
        intro c hc
        by_contra hcont
        have := hm' c hc (by simpa using hcont) 'd' (by rw [hmd]; rfl)
        rw [isNameCont_d] at this
        cases this
      have := Reads.inferenceDef (he.spaces_union hv) hlast Spaces.nil
      rw [hmd]
      simpa using this
    next =>
      apply Told.ok
      rw [append_nil]
      exact .plain he

theorem args_told (hw : WholeTold u n) (ha : ArgsTold u n) : ArgsTold u (n + 1) := by
  intro acc s hn
  rw [parseArgs]
  apply (hw s (by omega)).bind
  · intro t ⟨e, he⟩
    exact ⟨[], [e], by simpa using ArgsText.one he⟩
  intro t e r hs he
  have hlen : s.length = t.length + r.length := by rw [hs, length_append]
  apply (peek_told r).bind
  · intro v hv
    exact ⟨[], [e], by simpa using ArgsText.one (he.spaces hv)⟩
  intro v c r' hr ⟨hv, _, hc⟩
  have hlen' : r.length = v.length + r'.length := by rw [hr, length_append]
  dsimp only
  split
  next hcomma =>
    cases r' with
    | nil =>
      rw [hc] at hcomma
      cases hcomma
    | cons d r' =>
      rw [hc] at hcomma
      cases hcomma
      simp only [length_cons] at hlen'
      apply Told.bump
      apply (ha (acc ++ [e]) r' (by omega)).mono
      · intro t' args r'' _ ⟨more, hmore, htext⟩
        exact ⟨e :: more, by simp [hmore], by simpa using ArgsText.cons (he.spaces hv) htext⟩
      · intro t' ⟨more, htext⟩
        exact ⟨[], e :: more, by simpa using ArgsText.cons (he.spaces hv) htext⟩
  next =>
    apply Told.ok
    rw [append_nil]
    exact ⟨[e], rfl, ArgsText.one (he.spaces hv)⟩

theorem list_told (ha : ArgsTold u n) : ListTold u (n + 1) := by
  intro s hn
  rw [parseTypeList]
  apply (peek_told s).bind
  · intro v hv
    exact ⟨['X'], _, ArgsText.one (Reads.whole_X hv)⟩
  intro v c r hs ⟨hv, _, _⟩
  have hlen : s.length = v.length + r.length := by rw [hs, length_append]
  dsimp only
  split
  next => exact Told.ok (.inl rfl)
  next =>
    apply (ha [] r (by omega)).mono
    · intro t args r' _ ⟨more, hmore, htext⟩
      rw [nil_append] at hmore
      subst hmore
      exact .inr (htext.lead hv)
    · intro t ⟨more, htext⟩
      exact ⟨[], more, by simpa using htext.lead hv⟩

theorem parts_told (hw : WholeTold u n) (hp : PartsTold u n) : PartsTold u (n + 1) := by
  intro acc s hn
  rw [parseBlockParts]
  apply (peek_told s).bind
  · intro v hv
    exact ⟨['X'], _, none, PartsText.one (Reads.whole_X hv)⟩
  intro v c r hs ⟨hv, _, hc⟩
  have hlen : s.length = v.length + r.length := by rw [hs, length_append]
  dsimp only
  split
  next hcaret =>
    cases r with
    | nil =>
      rw [hc] at hcaret
      cases hcaret
    | cons d r =>
      rw [hc] at hcaret
      cases hcaret
      simp only [length_cons] at hlen
      have hreturn : ∀ t e, Reads u .whole t e → PartsText u (v ++ '^' :: t) [] (some e) := by
        intro t e he
        exact ⟨[], v, t, by simp [commaed], by simp, hv, he, rfl⟩
      apply Told.bump
      apply (hw r (by omega)).bind
      · intro t ⟨e, he⟩
        exact ⟨[], [], some e, by simpa using hreturn t e he⟩
      · intro t e r' _ he
        apply Told.ok
        exact ⟨[], by simp, by simpa using hreturn t e he⟩
  next =>
    apply (hw r (by omega)).bind
    · intro t ⟨e, he⟩
      exact ⟨[], [e], none, by simpa using PartsText.one (he.lead hv)⟩
    intro t e r' hr he
    have hlen' : r.length = t.length + r'.length := by rw [hr, length_append]
    have he' : Reads u .whole (v ++ t) e := he.lead hv
    apply (peek_told r').bind
    · intro x hx
      exact ⟨[], [e], none, by simpa using PartsText.one (he'.spaces hx)⟩
    intro x c' r'' hr' ⟨hx, _, hc'⟩
    have hlen'' : r'.length = x.length + r''.length := by rw [hr', length_append]
    split
    next hcomma =>
      cases r'' with
      | nil =>
        rw [hc'] at hcomma
        cases hcomma
      | cons d r'' =>
        rw [hc'] at hcomma
        cases hcomma
        simp only [length_cons] at hlen''
        apply Told.bump
        apply (hp (acc ++ [e]) r'' (by omega)).mono
        · intro t' parts r3 _ ⟨more, hmore, htext⟩
          exact ⟨e :: more, by simp [hmore], by simpa using PartsText.cons (he'.spaces hx) htext⟩
        · intro t' ⟨more, ret, htext⟩
          exact ⟨[], e :: more, ret, by simpa using PartsText.cons (he'.spaces hx) htext⟩
    next =>
      apply Told.ok
      exact ⟨[e], rfl, by simpa using PartsText.one (he'.spaces hx)⟩

theorem body_told (hp : PartsTold u n) : BodyTold u (n + 1) := by
  intro s hn
  rw [parseBlockBody]
  apply (peek_told s).bind
  · intro t ht
    refine ⟨[']'], ?_⟩
    intro v hv
    exact ⟨_, Reads.blockEmpty hv ht Spaces.nil⟩
  intro t c r hs ⟨ht, _, hc⟩
  have hlen : s.length = t.length + r.length := by rw [hs, length_append]
  dsimp only
  split
  next hclose =>
    change Told r _ _ (expect ']' r >>= fun x => Except.ok (TypeExpr.block [] none, x.2))
    apply (expect_told ']' r).bind
    · intro x hx
      refine ⟨[']'], ?_⟩
      intro v hv
      exact ⟨_, by simpa using Reads.blockEmpty hv (ht.append hx) Spaces.nil⟩
    · intro t' _ r' _ ⟨x, htx, hx⟩
      apply Told.ok
      subst htx
      refine ⟨⟨t ++ x, by simp⟩, ?_⟩
      intro v hv
      simpa using Reads.blockEmpty (u := u) hv (ht.append hx) Spaces.nil
  next =>
    apply (hp [] r (by omega)).bind
    · intro t' ⟨more, ret, htext⟩
      refine ⟨[']'], ?_⟩
      intro v hv
      exact ⟨_, by simpa using (htext.lead ht).block hv⟩
    intro t' parts r' _ ⟨more, hmore, htext⟩
    obtain ⟨args, ret⟩ := parts
    subst hmore
    apply (expect_told ']' r').bind
    · intro x hx
      refine ⟨[']'], ?_⟩
      intro v hv
      exact ⟨_, by simpa using ((htext.lead ht).spaces hx).block hv⟩
    · intro y _ r'' _ ⟨x, hyx, hx⟩
      apply Told.ok
      subst hyx
      refine ⟨⟨t ++ t' ++ x, by simp⟩, ?_⟩
      intro v hv
      simpa using ((htext.lead ht).spaces hx).block hv

structure AllTold (u : CharClass) (n : Nat) : Prop where
  atom : AtomTold u n
  variants : VariantsTold u n
  union : UnionTold u n
  whole : WholeTold u n
  args : ArgsTold u n
  list : ListTold u n
  parts : PartsTold u n
  body : BodyTold u n

theorem all_told (u : CharClass) (n : Nat) : AllTold u n := by
  induction n with
  | zero =>
    constructor
    all_goals
      intro
      omega
  | succ n ih =>
    exact {
      atom := atom_told ih.body ih.list
      variants := variants_told ih.atom ih.variants
      union := union_told ih.atom ih.variants
      whole := whole_told ih.union
      args := args_told ih.whole ih.args
      list := list_told ih.args
      parts := parts_told ih.whole ih.parts
      body := body_told ih.parts }

end WinArmVm.Types
