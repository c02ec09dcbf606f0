import WinArmVm.TypeText

namespace WinArmVm.Types

open List

open Frontend (isWhitespace)

def Wide (c : Char) : Prop := isWhitespace c = true ∧ c.utf8Size ≠ 1

def Spaces (v : List Char) : Prop := ∀ c ∈ v, isWhitespace c = true ∧ c.utf8Size = 1

theorem Spaces.nil : Spaces [] := by
  intro c hc
  cases hc

theorem Spaces.append {v w : List Char} (hv : Spaces v) (hw : Spaces w) : Spaces (v ++ w) := by
  intro c hc
  rcases mem_append.mp hc with hc | hc
  · exact hv c hc
  · exact hw c hc

theorem Spaces.space {v : List Char} (hv : Spaces v) : Spaces (v ++ [' ']) := by
  apply hv.append
  intro c hc
  cases mem_singleton.mp hc
  decide

def joinedRest (sep : Char) : List (List Char) → List Char
  | [] => []
  | t :: ts => sep :: (t ++ joinedRest sep ts)

def joined (sep : Char) : List (List Char) → List Char
  | [] => []
  | t :: ts => t ++ joinedRest sep ts

def commaed : List (List Char) → List Char
  | [] => []
  | t :: ts => t ++ ',' :: commaed ts

variable (u : CharClass)

def IsName (n : List Char) : Prop := ∃ c cs, n = c :: cs ∧ isNameStart u c = true ∧ ∀ d ∈ cs, isNameCont u d = true

inductive Level
  | atom
  | union
  | whole

/-- A text, with the spaces around it, and the type it is of. -/
inductive Reads : Level → List Char → TypeExpr → Prop
  | name {v n w : List Char} (hv : Spaces v) (hn : IsName u n) (hw : Spaces w) :
      Reads .atom (v ++ (n ++ w)) (.named (String.ofList n))
  | generic {v n w : List Char} {items : List (List Char × TypeExpr)} (hv : Spaces v) (hn : IsName u n)
      (hne : items ≠ []) (hi : ∀ i ∈ items, Reads .whole i.1 i.2) (hw : Spaces w) :
      Reads .atom (v ++ (n ++ '[' :: (joined ',' (items.map (·.1)) ++ ']' :: w)))
        (.generic (String.ofList n) (items.map (·.2)))
  | blockEmpty {v x w : List Char} (hv : Spaces v) (hx : Spaces x) (hw : Spaces w) :
      Reads .atom (v ++ '[' :: (x ++ ']' :: w)) (.block [] none)
  | blockArgs {v w : List Char} {items : List (List Char × TypeExpr)} (hv : Spaces v) (hne : items ≠ [])
      (hi : ∀ i ∈ items, Reads .whole i.1 i.2) (hw : Spaces w) :
      Reads .atom (v ++ '[' :: (joined ',' (items.map (·.1)) ++ ']' :: w)) (.block (items.map (·.2)) none)
  | blockReturn {v x t w : List Char} {r : TypeExpr} {items : List (List Char × TypeExpr)} (hv : Spaces v)
      (hi : ∀ i ∈ items, Reads .whole i.1 i.2) (hx : Spaces x) (hr : Reads .whole t r) (hw : Spaces w) :
      Reads .atom (v ++ '[' :: (commaed (items.map (·.1)) ++ (x ++ '^' :: (t ++ ']' :: w))))
        (.block (items.map (·.2)) (some r))
  | single {t : List Char} {e : TypeExpr} (h : Reads .atom t e) : Reads .union t e
  | variants {items : List (List Char × TypeExpr)} (hl : 2 ≤ items.length) (hi : ∀ i ∈ items, Reads .atom i.1 i.2) :
      Reads .union (joined '|' (items.map (·.1))) (.union (items.map (·.2)))
  | plain {t : List Char} {e : TypeExpr} (h : Reads .union t e) : Reads .whole t e
  | inferenceDef {t w : List Char} {e : TypeExpr} (h : Reads .union t e)
      (hl : ∀ c, t.getLast? = some c → isNameCont u c = false) (hw : Spaces w) :
      Reads .whole (t ++ ['d', 'e', 'f'] ++ w) (.inferenceDef e)

variable {u} {c : Char}

theorem isNameStart_cont (h : isNameStart u c = true) : isNameCont u c = true := by
  unfold isNameStart at h
  unfold isNameCont
  rcases (Bool.or_eq_true _ _).mp h with h | h
  · rw [u.alphanumeric_of_alphabetic c h, Bool.true_or]
  · rw [h, Bool.or_true]

theorem isNameCont_whitespace (h : isWhitespace c = true) : isNameCont u c = false := by
  unfold isNameCont
  rw [u.whitespace_not_alphanumeric c h, Bool.false_or]
  by_contra hc
  have he : c = '_' := by simpa using hc
  rw [he] at h
  exact absurd h (by decide)

theorem isNameCont_ascii (h : c.toNat < 128) (ha : c.isAlphanum = false) (hu : c ≠ '_') : isNameCont u c = false := by
  unfold isNameCont
  rw [u.ascii_alphanumeric c h, ha, Bool.false_or]
  simpa using hu

theorem isName_X : IsName u ['X'] := by
  refine ⟨'X', [], rfl, ?_, by simp⟩
  unfold isNameStart
  rw [u.ascii_alphabetic 'X' (by decide)]
  decide

theorem joined_append_last (sep : Char) (ts : List (List Char)) (t v : List Char) :
    joined sep (ts ++ [t]) ++ v = joined sep (ts ++ [t ++ v]) := by
  have hrest : ∀ ts : List (List Char), joinedRest sep (ts ++ [t]) ++ v = joinedRest sep (ts ++ [t ++ v]) := by
    intro ts
    induction ts with
    | nil => simp [joinedRest]
    | cons t' ts ih => simp [joinedRest, ih]
  cases ts with
  | nil => simp [joined, joinedRest]
  | cons t' ts => simp [joined, hrest]

variable {t v : List Char} {e : TypeExpr}

theorem Reads.spaces_atom (h : Reads u .atom t e) (hv : Spaces v) : Reads u .atom (t ++ v) e := by
  cases h with
  | name hv' hn hw =>
    have := Reads.name hv' hn (hw.append hv)
    simpa only [append_assoc] using this
  | generic hv' hn hne hi hw =>
    have := Reads.generic hv' hn hne hi (hw.append hv)
    simpa only [append_assoc, cons_append] using this
  | blockEmpty hv' hx hw =>
    have := Reads.blockEmpty (u := u) hv' hx (hw.append hv)
    simpa only [append_assoc, cons_append] using this
  | blockArgs hv' hne hi hw =>
    have := Reads.blockArgs hv' hne hi (hw.append hv)
    simpa only [append_assoc, cons_append] using this
  | blockReturn hv' hi hx hr hw =>
    have := Reads.blockReturn hv' hi hx hr (hw.append hv)
    simpa only [append_assoc, cons_append] using this

theorem Reads.spaces_union (h : Reads u .union t e) (hv : Spaces v) : Reads u .union (t ++ v) e := by
  cases h with
  | single h => exact .single (h.spaces_atom hv)
  | @variants items hl hi =>
    rcases eq_nil_or_concat items with rfl | ⟨before, last, rfl⟩
    · simp at hl
    · have hlast := (hi last (by simp)).spaces_atom hv
      have hread : Reads u .union (joined '|' ((before ++ [(last.1 ++ v, last.2)]).map (·.1)))
          (.union ((before ++ [(last.1 ++ v, last.2)]).map (·.2))) := by
        apply Reads.variants (by simpa using hl)
        intro i hm
        rcases mem_append.mp hm with hm | hm
        · exact hi i (by simp [hm])
        · cases mem_singleton.mp hm
          exact hlast
      simpa [joined_append_last] using hread

theorem Reads.spaces (h : Reads u .whole t e) (hv : Spaces v) : Reads u .whole (t ++ v) e := by
  cases h with
  | plain h => exact .plain (h.spaces_union hv)
  | inferenceDef h hl hw =>
    have := Reads.inferenceDef h hl (hw.append hv)
    simpa only [append_assoc] using this

theorem Reads.lead_atom (hv : Spaces v) (h : Reads u .atom t e) : Reads u .atom (v ++ t) e := by
  cases h with
  | name hv' hn hw =>
    rw [← append_assoc]
    exact .name (hv.append hv') hn hw
  | generic hv' hn hne hi hw =>
    rw [← append_assoc]
    exact .generic (hv.append hv') hn hne hi hw
  | blockEmpty hv' hx hw =>
    rw [← append_assoc]
    exact .blockEmpty (hv.append hv') hx hw
  | blockArgs hv' hne hi hw =>
    rw [← append_assoc]
    exact .blockArgs (hv.append hv') hne hi hw
  | blockReturn hv' hi hx hr hw =>
    rw [← append_assoc]
    exact .blockReturn (hv.append hv') hi hx hr hw

theorem Reads.lead_union (hv : Spaces v) (h : Reads u .union t e) : Reads u .union (v ++ t) e := by
  cases h with
  | single h => exact .single (h.lead_atom hv)
  | @variants items hl hi =>
    cases items with
    | nil => simp at hl
    | cons first items =>
      have hfirst := (hi first (by simp)).lead_atom hv
      have hread : Reads u .union (joined '|' (((v ++ first.1, first.2) :: items).map (·.1)))
          (.union (((v ++ first.1, first.2) :: items).map (·.2))) := by
        apply Reads.variants (by simpa using hl)
        intro i hm
        rcases mem_cons.mp hm with rfl | hm
        · exact hfirst
        · exact hi i (by simp [hm])
      simpa [joined] using hread

theorem Reads.length_pos {l : Level} {t : List Char} (h : Reads u l t e) : 0 < t.length := by
  induction h with
  | name _ hn _ =>
    obtain ⟨c, cs, rfl, _⟩ := hn
    simp
  | single _ ih => exact ih
  | @variants items hl _ ih =>
    cases items with
    | nil => simp at hl
    | cons i items =>
      have := ih i (by simp)
      simp only [map_cons, joined, length_append]
      omega
  | plain _ ih => exact ih
  | _ => simp

theorem Reads.lead (hv : Spaces v) (h : Reads u .whole t e) : Reads u .whole (v ++ t) e := by
  cases h with
  | plain h => exact .plain (h.lead_union hv)
  | @inferenceDef t w e h hl hw =>
    have hread : Reads u .whole ((v ++ t) ++ ['d', 'e', 'f'] ++ w) (.inferenceDef e) := by
      apply Reads.inferenceDef (h.lead_union hv) _ hw
      intro c hc
      apply hl c
      rcases eq_nil_or_concat t with rfl | ⟨t, d, rfl⟩
      · exact absurd h.length_pos (by simp)
      · rw [concat_eq_append, ← append_assoc, getLast?_concat] at hc
        rw [concat_eq_append, getLast?_concat]
        exact hc
    simpa using hread

end WinArmVm.Types
