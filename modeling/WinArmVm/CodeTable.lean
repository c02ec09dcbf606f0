import WinArmVm.MethodDict

namespace WinArmVm

open Function List

structure NmethodId where
  index : Nat
deriving DecidableEq, Repr

inductive NmState
  | alive
  | notEntrant
  | zombie
deriving DecidableEq, Repr

/-- What a `bl` or a PIC pair is linked to. A code address is represented by the
block it points at: an nmethod's guarded or verified entry, a method's c2i
adapter, the block-dispatch stub of an arity, or `stub_resolve`. -/
inductive CodeTarget
  | resolve
  | entry (id : NmethodId)
  | verifiedEntry (id : NmethodId)
  | c2i (method : MethodOop)
  | valueDispatch (argc : Nat)
deriving DecidableEq, Repr

/-- The lattice state of a compiled call site. A PIC is 1:1 with its site and
immutable once published, so its pairs stand here in place of the stub handle. -/
inductive CompiledIcState
  | unresolved
  | mono (klass : KlassOop) (target : CodeTarget)
  | pic (pairs : List (KlassOop × CodeTarget))
  | mega
deriving DecidableEq, Repr

/-- A compiled send site. `superKlass` is the static holder-superclass of a
`send_super` site; it survives a reset of `state`. -/
structure IcSite where
  selector : SymbolOop
  argc : Nat
  state : CompiledIcState
  superKlass : Option KlassOop
deriving DecidableEq, Repr

/-- `method` is the CompiledMethod the code was emitted from. The key of a block
nmethod is a filler. -/
structure Nmethod where
  keyKlass : KlassOop
  keySelector : SymbolOop
  ownsDynamicKey : Bool
  blockMethod : Option MethodOop
  method : MethodOop
  state : NmState
  version : Nat
  halfWarmOsr : Bool
  selfDevirt : Bool
  inlineDeps : List (KlassOop × SymbolOop)
  icSites : List IcSite
deriving DecidableEq, Repr

/-- `slots` is meaningful below `size`; a freed slot is `none`. -/
structure CodeTable where
  size : Nat
  slots : NmethodId → Option Nmethod
  byKey : KlassOop × SymbolOop → Option NmethodId
  byBlock : MethodOop → Option NmethodId

def picMaxEntries : Nat := 4

/-- Re-key the first pair of `k` in place. -/
def rekeyPairs {α : Type} (k : KlassOop) (target : α) : List (KlassOop × α) → List (KlassOop × α)
  | [] => []
  | p :: rest => if p.1 = k then (k, target) :: rest else p :: rekeyPairs k target rest

theorem mem_rekeyPairs {α : Type} {k : KlassOop} {target : α} {pairs : List (KlassOop × α)}
    {p : KlassOop × α} (h : p ∈ rekeyPairs k target pairs) : p = (k, target) ∨ p ∈ pairs := by
  induction pairs with
  | nil => cases h
  | cons q rest ih =>
    unfold rekeyPairs at h
    split at h
    next =>
      rcases mem_cons.mp h with h | h
      · exact .inl h
      · exact .inr (mem_cons_of_mem q h)
    next =>
      rcases mem_cons.mp h with h | h
      · exact .inr (mem_cons.mpr (.inl h))
      · rcases ih h with h | h
        · exact .inl h
        · exact .inr (mem_cons_of_mem q h)

def firstFree {α : Type} (size : Nat) (slots : NmethodId → Option α) : NmethodId :=
  ((List.range size).map NmethodId.mk).find? (fun id => (slots id).isNone) |>.getD ⟨size⟩

theorem firstFree_none {α : Type} {size : Nat} {slots : NmethodId → Option α}
    (h : ∀ id : NmethodId, size ≤ id.index → slots id = none) :
    slots (firstFree size slots) = none := by
  unfold firstFree
  cases hf : ((List.range size).map NmethodId.mk).find? (fun id => (slots id).isNone) with
  | none => exact h _ le_rfl
  | some id =>
    have := find?_some hf
    simpa using this

namespace CodeTable

def new : CodeTable := ⟨0, fun _ => none, fun _ => none, fun _ => none⟩

def get (t : CodeTable) (id : NmethodId) : Option Nmethod := t.slots id

def lookup (t : CodeTable) (k : KlassOop) (sel : SymbolOop) : Option NmethodId := t.byKey (k, sel)

def lookupBlock (t : CodeTable) (b : MethodOop) : Option NmethodId := do
  let id ← t.byBlock b
  let nm ← t.get id
  if nm.state = .alive then pure id else none

def freeSlot (t : CodeTable) : NmethodId := firstFree t.size t.slots

def install (t : CodeTable) (nm : Nmethod) : NmethodId × CodeTable :=
  let id := t.freeSlot
  (id,
    { size := max t.size (id.index + 1)
      slots := Function.update t.slots id (some nm)
      byKey :=
        if nm.blockMethod = none ∧ nm.ownsDynamicKey = true then
          Function.update t.byKey (nm.keyKlass, nm.keySelector) (some id)
        else t.byKey
      byBlock :=
        match nm.blockMethod with
        | some b => Function.update t.byBlock b (some id)
        | none => t.byBlock })

def modify (t : CodeTable) (id : NmethodId) (f : Nmethod → Nmethod) : CodeTable :=
  { t with slots := Function.update t.slots id ((t.slots id).map f) }

/-- Remove an index entry, unless a successor already answers it. -/
def eraseIf {α : Type} [DecidableEq α] (index : α → Option NmethodId) (a : α) (id : NmethodId) : α → Option NmethodId :=
  if index a = some id then Function.update index a none else index

def unhook (t : CodeTable) (id : NmethodId) (nm : Nmethod) : CodeTable :=
  { t with
    byKey := eraseIf t.byKey (nm.keyKlass, nm.keySelector) id
    byBlock :=
      match nm.blockMethod with
      | some b => eraseIf t.byBlock b id
      | none => t.byBlock }

def setNotEntrant (t : CodeTable) (id : NmethodId) : CodeTable :=
  match t.get id with
  | none => t
  | some nm => (t.modify id fun nm => { nm with state := .notEntrant }).unhook id nm

/-- `mark_zombie` followed by `remove`, as `flush_nmethod` runs them. -/
def flush (t : CodeTable) (id : NmethodId) : CodeTable :=
  match t.get id with
  | none => t
  | some nm => { t.unhook id nm with slots := Function.update t.slots id none }

variable (t : CodeTable) (id x : NmethodId)

theorem install_slots (nm : Nmethod) (x : NmethodId) :
    (t.install nm).2.slots x = if x = t.freeSlot then some nm else t.slots x := by
  unfold install
  simp only [update_apply]

theorem eraseIf_some {α : Type} [DecidableEq α] {index : α → Option NmethodId} {a b : α}
    {id x : NmethodId} (h : eraseIf index a id b = some x) : index b = some x ∧ (b = a → x ≠ id) := by
  unfold eraseIf at h
  split at h
  next hk =>
    by_cases he : b = a
    · subst he
      simp at h
    · rw [update_of_ne he] at h
      exact ⟨h, fun e => absurd e he⟩
  next hk =>
    refine ⟨h, ?_⟩
    rintro rfl rfl
    exact hk h

theorem setNotEntrant_slots : (t.setNotEntrant id).slots x =
      if x = id then (t.slots id).map (fun nm => { nm with state := .notEntrant }) else t.slots x := by
  unfold setNotEntrant get
  cases hs : t.slots id with
  | none =>
    by_cases hx : x = id
    · simp [hx, hs]
    · simp [hx]
  | some nm => simp only [unhook, modify, update_apply, hs]

theorem setNotEntrant_size (id : NmethodId) : (t.setNotEntrant id).size = t.size := by
  unfold setNotEntrant
  split <;> rfl

theorem flush_slots : (t.flush id).slots x = if x = id then none else t.slots x := by
  unfold flush get
  cases hs : t.slots id with
  | none =>
    by_cases hx : x = id
    · simp [hx, hs]
    · simp [hx]
  | some nm => simp only [update_apply]

theorem modify_slots (f : Nmethod → Nmethod) :
    (t.modify id f).slots x = if x = id then (t.slots id).map f else t.slots x := by
  unfold modify
  simp only [update_apply]

/-- Slots past the end are free, and the key index names live owners only. -/
structure Wf (t : CodeTable) : Prop where
  bounded : ∀ id : NmethodId, t.size ≤ id.index → t.slots id = none
  keyed : ∀ k sel id, t.byKey (k, sel) = some id → ∃ nm, t.slots id = some nm ∧
    nm.keyKlass = k ∧ nm.keySelector = sel ∧ nm.state = .alive ∧ nm.blockMethod = none

theorem new_wf : new.Wf := ⟨fun _ _ => rfl, fun _ _ _ h => by simp [new] at h⟩

variable {t : CodeTable}

theorem Wf.freeSlot_none (h : t.Wf) : t.slots t.freeSlot = none := firstFree_none h.bounded

theorem Wf.install (h : t.Wf) {nm : Nmethod} (ha : nm.state = .alive) : (t.install nm).2.Wf := by
  have hfree := h.freeSlot_none
  constructor
  · intro id hid
    have hb : max t.size (t.freeSlot.index + 1) ≤ id.index := hid
    have hne : id ≠ t.freeSlot := by
      rintro rfl
      omega
    rw [install_slots, if_neg hne]
    exact h.bounded id (by omega)
  · intro k sel id hk
    have hold : t.byKey (k, sel) = some id → ∃ nm', (t.install nm).2.slots id = some nm' ∧
        nm'.keyKlass = k ∧ nm'.keySelector = sel ∧ nm'.state = .alive ∧ nm'.blockMethod = none := by
      intro hb
      obtain ⟨nm', hs, hrest⟩ := h.keyed k sel id hb
      have hne : id ≠ t.freeSlot := by
        rintro rfl
        simp [hfree] at hs
      exact ⟨nm', by rw [install_slots, if_neg hne, hs], hrest⟩
    unfold CodeTable.install at hk
    split at hk
    next hown =>
      by_cases he : (k, sel) = (nm.keyKlass, nm.keySelector)
      · obtain ⟨rfl, rfl⟩ := Prod.mk.inj he
        simp only [update_self, Option.some.injEq] at hk
        subst id
        exact ⟨nm, by rw [install_slots, if_pos rfl], rfl, rfl, ha, hown.1⟩
      · simp only [update_of_ne he] at hk
        exact hold hk
    next => exact hold hk

theorem Wf.unhook {t t' : CodeTable} (h : t.Wf) {id : NmethodId} {nm : Nmethod}
    (hs : t.slots id = some nm) (hsize : t'.size = t.size)
    (hkey : t'.byKey = eraseIf t.byKey (nm.keyKlass, nm.keySelector) id)
    (hother : ∀ x, x ≠ id → t'.slots x = t.slots x) : t'.Wf := by
  constructor
  · intro x hx
    have hne : x ≠ id := by
      rintro rfl
      have hnone := h.bounded x (hsize ▸ hx)
      rw [hs] at hnone
      cases hnone
    rw [hother x hne]
    exact h.bounded x (hsize ▸ hx)
  · intro k sel x hk
    rw [hkey] at hk
    obtain ⟨hb, hne⟩ := eraseIf_some hk
    obtain ⟨nm', hs', rfl, rfl, ha⟩ := h.keyed k sel x hb
    have hx : x ≠ id := by
      rintro rfl
      rw [hs] at hs'
      cases hs'
      exact hne rfl rfl
    exact ⟨nm', by rw [hother x hx, hs'], rfl, rfl, ha⟩

theorem Wf.setNotEntrant (h : t.Wf) (id : NmethodId) : (t.setNotEntrant id).Wf := by
  cases hs : t.slots id with
  | none =>
    have he : t.setNotEntrant id = t := by simp [CodeTable.setNotEntrant, get, hs]
    rw [he]
    exact h
  | some nm =>
    apply h.unhook hs (setNotEntrant_size t id)
    · simp only [CodeTable.setNotEntrant, get, hs]
      rfl
    · intro x hx
      rw [setNotEntrant_slots, if_neg hx]

theorem Wf.flush {t : CodeTable} (h : t.Wf) (id : NmethodId) : (t.flush id).Wf := by
  cases hs : t.slots id with
  | none =>
    have he : t.flush id = t := by simp [CodeTable.flush, get, hs]
    rw [he]
    exact h
  | some nm =>
    have hf : t.flush id = { t.unhook id nm with slots := Function.update t.slots id none } := by
      simp only [CodeTable.flush, get, hs]
    apply h.unhook hs
    · rw [hf]
      rfl
    · rw [hf]
      rfl
    · intro x hx
      rw [flush_slots, if_neg hx]

theorem Wf.modify (h : t.Wf) (id : NmethodId) {f : Nmethod → Nmethod}
    (hk : ∀ nm, (f nm).keyKlass = nm.keyKlass) (hsel : ∀ nm, (f nm).keySelector = nm.keySelector)
    (hst : ∀ nm, (f nm).state = nm.state) (hb : ∀ nm, (f nm).blockMethod = nm.blockMethod) :
    (t.modify id f).Wf := by
  constructor
  · intro x hx
    rw [modify_slots]
    split
    next he =>
      subst x
      rw [h.bounded id hx, Option.map_none]
    next => exact h.bounded x hx
  · intro k sel x hx
    obtain ⟨nm, hs, rfl, rfl, ha, hn⟩ := h.keyed k sel x hx
    rw [modify_slots]
    split
    next he =>
      subst x
      exact ⟨f nm, by rw [hs, Option.map_some], hk nm, hsel nm, (hst nm).trans ha, (hb nm).trans hn⟩
    next => exact ⟨nm, hs, rfl, rfl, ha, hn⟩

end CodeTable

end WinArmVm
