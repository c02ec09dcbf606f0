import WinArmVm.VmState
import WinArmVm.SlotIndex

namespace WinArmVm

open Function SlotIndex

/-- `osrBci` is the `osr_bci` of the OSR map of the nmethod in a slot. -/
structure OsrCodeTable extends CodeTable where
  osrBci : NmethodId → Option Nat
  osrTable : KlassOop × SymbolOop × Nat → Option NmethodId

def CodeTarget.relocate (r : Relocation) : CodeTarget → CodeTarget
  | .c2i m => .c2i (r.method m)
  | target => target

def CompiledIcState.relocate (r : Relocation) : CompiledIcState → CompiledIcState
  | .mono k target => .mono (r.klass k) (target.relocate r)
  | .pic pairs => .pic (pairs.map fun p => (r.klass p.1, p.2.relocate r))
  | state => state

def IcSite.relocate (r : Relocation) (site : IcSite) : IcSite :=
  { site with
    selector := r.symbol site.selector
    state := site.state.relocate r
    superKlass := site.superKlass.map r.klass }

/-- `update_keys` for one nmethod, next to what the collector moves in its code. -/
def Nmethod.relocate (r : Relocation) (nm : Nmethod) : Nmethod :=
  { nm with
    keyKlass := r.klass nm.keyKlass
    keySelector := r.symbol nm.keySelector
    blockMethod := nm.blockMethod.map r.method
    method := r.method nm.method
    icSites := nm.icSites.map (IcSite.relocate r)
    inlineDeps := nm.inlineDeps.map fun d => (r.klass d.1, r.symbol d.2) }

/-- A key of one of the three indices. -/
inductive IndexKey
  | method (k : KlassOop) (sel : SymbolOop)
  | block (b : MethodOop)
  | osr (k : KlassOop) (sel : SymbolOop) (bci : Nat)
deriving DecidableEq, Repr

def Nmethod.OwnsKey (nm : Nmethod) (osrBci : Option Nat) : IndexKey → Prop
  | .method k sel =>
    nm.blockMethod = none ∧ nm.ownsDynamicKey = true ∧ nm.keyKlass = k ∧ nm.keySelector = sel
  | .block b => nm.blockMethod = some b
  | .osr k sel bci =>
    nm.blockMethod = none ∧ nm.ownsDynamicKey = true ∧ nm.keyKlass = k ∧ nm.keySelector = sel ∧ osrBci = some bci

namespace OsrCodeTable

def new : OsrCodeTable := ⟨CodeTable.new, fun _ => none, fun _ => none⟩

def lookupOsr (t : OsrCodeTable) (k : KlassOop) (sel : SymbolOop) (bci : Nat) : Option NmethodId :=
  t.osrTable (k, sel, bci)

def install (t : OsrCodeTable) (nm : Nmethod) (osrBci : Option Nat) : NmethodId × OsrCodeTable :=
  let r := t.toCodeTable.install nm
  (r.1, { toCodeTable := r.2, osrBci := Function.update t.osrBci r.1 osrBci, osrTable := t.osrTable })

def installOsr (t : OsrCodeTable) (k : KlassOop) (sel : SymbolOop) (bci : Nat) (id : NmethodId) : OsrCodeTable :=
  if (t.get id).any (fun nm => !nm.ownsDynamicKey) then t
  else { t with osrTable := Function.update t.osrTable (k, sel, bci) (some id) }

/-- The end of `compile_method_full`. -/
def installCompiled (t : OsrCodeTable) (nm : Nmethod) (osrBci : Option Nat) : OsrCodeTable :=
  let r := t.install nm osrBci
  match osrBci with
  | some bci => r.2.installOsr nm.keyKlass nm.keySelector bci r.1
  | none => r.2

def eraseOsr (t : OsrCodeTable) (id : NmethodId) (nm : Nmethod) : KlassOop × SymbolOop × Nat → Option NmethodId :=
  match t.osrBci id with
  | some bci => CodeTable.eraseIf t.osrTable (nm.keyKlass, nm.keySelector, bci) id
  | none => t.osrTable

/-- What `set_not_entrant` and `mark_zombie` have in common. -/
def retire (t : OsrCodeTable) (state : NmState) (id : NmethodId) : OsrCodeTable :=
  match t.get id with
  | none => t
  | some nm =>
    { toCodeTable := (t.toCodeTable.modify id fun nm => { nm with state := state }).unhook id nm
      osrBci := t.osrBci
      osrTable := t.eraseOsr id nm }

def setNotEntrant (t : OsrCodeTable) (id : NmethodId) : OsrCodeTable := t.retire .notEntrant id

def markZombie (t : OsrCodeTable) (id : NmethodId) : OsrCodeTable := t.retire .zombie id

def remove (t : OsrCodeTable) (id : NmethodId) : OsrCodeTable :=
  { t with slots := Function.update t.slots id none, osrBci := Function.update t.osrBci id none }

def updateKeys (t : OsrCodeTable) (r : Relocation) : OsrCodeTable :=
  { t with slots := fun id => (t.slots id).map (Nmethod.relocate r) }

def ids (t : OsrCodeTable) : List NmethodId := (List.range t.size).map NmethodId.mk

/-- One turn of `rehash`. -/
def rehashSlot (t : OsrCodeTable) (id : NmethodId) : OsrCodeTable :=
  match t.get id with
  | none => t
  | some nm =>
    if nm.state ≠ .alive then t
    else match nm.blockMethod with
      | some b => { t with byBlock := Function.update t.byBlock b (some id) }
      | none =>
        if nm.ownsDynamicKey = false then t
        else
          let t := { t with byKey := Function.update t.byKey (nm.keyKlass, nm.keySelector) (some id) }
          match t.osrBci id with
          | none => t
          | some bci =>
            { t with osrTable := Function.update t.osrTable (nm.keyKlass, nm.keySelector, bci) (some id) }

def rehash (t : OsrCodeTable) : OsrCodeTable :=
  t.ids.foldl rehashSlot { t with byKey := fun _ => none, byBlock := fun _ => none, osrTable := fun _ => none }

def collect (t : OsrCodeTable) (r : Relocation) : OsrCodeTable := (t.updateKeys r).rehash

def index (t : OsrCodeTable) : IndexKey → Option NmethodId
  | .method k sel => t.byKey (k, sel)
  | .block b => t.byBlock b
  | .osr k sel bci => t.osrTable (k, sel, bci)

def answer (t : OsrCodeTable) : IndexKey → Option NmethodId
  | .method k sel => t.lookup k sel
  | .block b => t.lookupBlock b
  | .osr k sel bci => t.lookupOsr k sel bci

def Owns (t : OsrCodeTable) (id : NmethodId) (a : IndexKey) : Prop :=
  ∃ nm, t.get id = some nm ∧ nm.state = .alive ∧ nm.OwnsKey (t.osrBci id) a

def view (t : OsrCodeTable) : View NmethodId IndexKey := ⟨t.Owns, t.index⟩

end OsrCodeTable

def Relocation.indexKey (r : Relocation) : IndexKey ≃ IndexKey where
  toFun
    | .method k sel => .method (r.klass k) (r.symbol sel)
    | .block b => .block (r.method b)
    | .osr k sel bci => .osr (r.klass k) (r.symbol sel) bci
  invFun
    | .method k sel => .method (r.klass.symm k) (r.symbol.symm sel)
    | .block b => .block (r.method.symm b)
    | .osr k sel bci => .osr (r.klass.symm k) (r.symbol.symm sel) bci
  left_inv := by
    intro a
    cases a <;> simp
  right_inv := by
    intro a
    cases a <;> simp

namespace OsrCodeTable

variable {t : OsrCodeTable} {id : NmethodId} {nm : Nmethod} {osrBci : Option Nat}

def Bounded (t : OsrCodeTable) : Prop := ∀ id : NmethodId, t.size ≤ id.index → t.slots id = none

theorem new_bounded : new.Bounded := fun _ _ => rfl

theorem new_settled : new.view.Settled NmethodId.index := by
  intro a i
  constructor
  · intro h
    cases a <;> cases h
  · rintro ⟨⟨nm, h, _⟩, _⟩
    cases h

theorem Bounded.free (h : t.Bounded) : t.slots t.freeSlot = none := firstFree_none h

theorem installCompiled_eq (nm : Nmethod) (osrBci : Option Nat) :
    (t.installCompiled nm osrBci).toCodeTable = (t.toCodeTable.install nm).2 ∧
      (t.installCompiled nm osrBci).osrBci = Function.update t.osrBci t.freeSlot osrBci := by
  unfold installCompiled
  cases osrBci with
  | none => exact ⟨rfl, rfl⟩
  | some bci =>
    dsimp only
    unfold installOsr
    split
    next => exact ⟨rfl, rfl⟩
    next => exact ⟨rfl, rfl⟩

theorem installCompiled_osrTable (nm : Nmethod) (osrBci : Option Nat) :
    (t.installCompiled nm osrBci).osrTable = match osrBci with
      | some bci =>
        if nm.ownsDynamicKey = true then
          Function.update t.osrTable (nm.keyKlass, nm.keySelector, bci) (some t.freeSlot)
        else t.osrTable
      | none => t.osrTable := by
  unfold installCompiled
  cases osrBci with
  | none => rfl
  | some bci =>
    have hget : (t.install nm (some bci)).2.get (t.install nm (some bci)).1 = some nm := by
      change (t.toCodeTable.install nm).2.slots t.freeSlot = some nm
      rw [CodeTable.install_slots, if_pos rfl]
    dsimp only
    unfold installOsr
    rw [hget]
    cases hown : nm.ownsDynamicKey with
    | false => simp [hown, install]
    | true => simp [hown, install, CodeTable.install]

theorem Bounded.installCompiled (h : t.Bounded) (nm : Nmethod) (osrBci : Option Nat) :
    (t.installCompiled nm osrBci).Bounded := by
  intro id hid
  have heq := (installCompiled_eq (t := t) nm osrBci).1
  have hsize : max t.size (t.freeSlot.index + 1) ≤ id.index := by
    have := congrArg CodeTable.size heq
    rw [this] at hid
    exact hid
  have hne : id ≠ t.freeSlot := by
    intro e
    have := congrArg NmethodId.index e
    omega
  rw [heq, CodeTable.install_slots, if_neg hne]
  exact h id (by omega)

theorem Bounded.hooked (h : t.Bounded) (ha : nm.state = .alive) (hblock : nm.blockMethod ≠ none → osrBci = none) :
    t.view.Hooked t.freeSlot (nm.OwnsKey osrBci) (t.installCompiled nm osrBci).view := by
  obtain ⟨htable, hbci⟩ := installCompiled_eq (t := t) nm osrBci
  have hget : ∀ x, (t.installCompiled nm osrBci).get x = if x = t.freeSlot then some nm else t.get x := by
    intro x
    rw [htable]
    exact CodeTable.install_slots t.toCodeTable nm x
  constructor
  · rintro a ⟨nm', hs, _⟩
    have hfree : t.get t.freeSlot = none := h.free
    rw [hfree] at hs
    cases hs
  · intro a
    constructor
    · rintro ⟨nm', hs, _, hown⟩
      rw [hget, if_pos rfl] at hs
      cases hs
      rw [hbci, update_self] at hown
      exact hown
    · intro hown
      refine ⟨nm, by rw [hget, if_pos rfl], ha, ?_⟩
      rw [hbci, update_self]
      exact hown
  · intro j a hne
    unfold view Owns
    dsimp only
    rw [hget, if_neg hne, hbci, update_of_ne hne]
  · intro a hown
    cases a with
    | method k sel =>
      obtain ⟨hb, hdyn, rfl, rfl⟩ := hown
      change (t.installCompiled nm osrBci).byKey _ = _
      rw [htable]
      unfold CodeTable.install
      dsimp only
      rw [if_pos ⟨hb, hdyn⟩, update_self]
    | block b =>
      change (t.installCompiled nm osrBci).byBlock _ = _
      rw [htable]
      unfold CodeTable.install
      rw [show nm.blockMethod = some b from hown]
      exact update_self b _ _
    | osr k sel bci =>
      obtain ⟨hb, hdyn, rfl, rfl, rfl⟩ := hown
      change (t.installCompiled nm (some bci)).osrTable _ = _
      rw [installCompiled_osrTable]
      dsimp only
      rw [if_pos hdyn, update_self]
  · intro a hown
    cases a with
    | method k sel =>
      change (t.installCompiled nm osrBci).byKey _ = t.byKey _
      rw [htable]
      unfold CodeTable.install
      split
      next hdyn =>
        apply update_of_ne
        intro e
        obtain ⟨rfl, rfl⟩ := Prod.mk.inj e
        exact hown ⟨hdyn.1, hdyn.2, rfl, rfl⟩
      next => rfl
    | block b =>
      change (t.installCompiled nm osrBci).byBlock _ = t.byBlock _
      rw [htable]
      unfold CodeTable.install
      cases hb : nm.blockMethod with
      | none => rfl
      | some b' =>
        apply update_of_ne
        rintro rfl
        exact hown hb
    | osr k sel bci =>
      change (t.installCompiled nm osrBci).osrTable _ = t.osrTable _
      rw [installCompiled_osrTable]
      split
      next bci' =>
        split
        next hdyn =>
          apply update_of_ne
          intro e
          obtain ⟨hk, e⟩ := Prod.mk.inj e
          obtain ⟨hsel, hbci'⟩ := Prod.mk.inj e
          refine hown ⟨?_, hdyn, hk.symm, hsel.symm, congrArg some hbci'.symm⟩
          by_contra hb
          cases hblock hb
        next => rfl
      next => rfl

theorem eraseIf_self {α : Type} [DecidableEq α] {f : α → Option NmethodId} {a : α} (h : f a = some id) :
    CodeTable.eraseIf f a id a = none := by
  unfold CodeTable.eraseIf
  rw [if_pos h, update_self]

theorem eraseIf_of_ne {α : Type} [DecidableEq α] {f : α → Option NmethodId} {a b : α}
    (h : f b ≠ some id) : CodeTable.eraseIf f a id b = f b := by
  unfold CodeTable.eraseIf
  split
  next ha =>
    apply update_of_ne
    rintro rfl
    exact h ha
  next => rfl

theorem retire_get (state : NmState) (id x : NmethodId) : (t.retire state id).get x =
      if x = id then (t.get id).map (fun nm => { nm with state := state }) else t.get x := by
  unfold retire
  cases hs : t.get id with
  | none =>
    by_cases hx : x = id
    · rw [if_pos hx, hx, hs, Option.map_none]
    · rw [if_neg hx]
  | some nm =>
    change ((t.toCodeTable.modify id fun nm => { nm with state := state }).slots x) = _
    rw [CodeTable.modify_slots]
    change (if x = id then (t.get id).map _ else t.get x) = _
    rw [hs]

theorem retire_osrBci (state : NmState) (id : NmethodId) : (t.retire state id).osrBci = t.osrBci := by
  unfold retire
  split
  next => rfl
  next => rfl

theorem Bounded.retire (h : t.Bounded) (state : NmState) (id : NmethodId) : (t.retire state id).Bounded := by
  intro x hx
  have hsize : (t.retire state id).size = t.size := by
    unfold OsrCodeTable.retire
    split
    next => rfl
    next => rfl
  have hfree : t.get x = none := h x (hsize ▸ hx)
  change (t.retire state id).get x = none
  rw [retire_get]
  split
  next he => rw [← he, hfree, Option.map_none]
  next => exact hfree

theorem unhooked (hv : t.view.Coherent) (state : NmState) (hstate : state ≠ .alive)
    (hs : t.get id = some nm) : t.view.Unhooked id (t.retire state id).view := by
  have hret : t.retire state id =
      { toCodeTable := (t.toCodeTable.modify id fun nm => { nm with state := state }).unhook id nm
        osrBci := t.osrBci
        osrTable := t.eraseOsr id nm } := by
    unfold retire
    rw [hs]
  constructor
  · rintro a ⟨nm', hs', ha, _⟩
    rw [retire_get, if_pos rfl, hs] at hs'
    cases hs'
    exact hstate ha
  · intro j a hne
    unfold view Owns
    dsimp only
    rw [retire_get, if_neg hne, retire_osrBci]
  · intro a hi
    obtain ⟨nm', hs', _, hown⟩ := hv a id hi
    rw [hs] at hs'
    cases hs'
    cases a with
    | method k sel =>
      obtain ⟨_, _, rfl, rfl⟩ := hown
      change (t.retire state id).byKey _ = none
      rw [hret]
      exact eraseIf_self hi
    | block b =>
      change (t.retire state id).byBlock _ = none
      rw [hret]
      unfold CodeTable.unhook
      rw [show nm.blockMethod = some b from hown]
      exact eraseIf_self hi
    | osr k sel bci =>
      obtain ⟨_, _, rfl, rfl, hbci⟩ := hown
      change (t.retire state id).osrTable _ = none
      rw [hret]
      unfold eraseOsr
      rw [hbci]
      exact eraseIf_self hi
  · intro a hi
    cases a with
    | method k sel =>
      change (t.retire state id).byKey _ = t.byKey _
      rw [hret]
      exact eraseIf_of_ne hi
    | block b =>
      change (t.retire state id).byBlock _ = t.byBlock _
      rw [hret]
      unfold CodeTable.unhook
      cases nm.blockMethod with
      | none => rfl
      | some b' => exact eraseIf_of_ne hi
    | osr k sel bci =>
      change (t.retire state id).osrTable _ = t.osrTable _
      rw [hret]
      unfold eraseOsr
      cases t.osrBci id with
      | none => rfl
      | some bci' => exact eraseIf_of_ne hi

theorem remove_view (hs : t.get id = some nm) (hz : nm.state = .zombie) : (t.remove id).view = t.view := by
  unfold view
  congr 1
  funext x a
  unfold Owns
  by_cases hx : x = id
  · subst x
    apply propext
    constructor
    · rintro ⟨nm', h, _⟩
      have hnone : (t.remove id).get id = none := update_self id _ _
      rw [hnone] at h
      cases h
    · rintro ⟨nm', h, ha, _⟩
      rw [hs] at h
      cases h
      rw [hz] at ha
      cases ha
  · have hget : (t.remove id).get x = t.get x := update_of_ne hx _ _
    have hbci : (t.remove id).osrBci x = t.osrBci x := update_of_ne hx _ _
    rw [hget, hbci]

theorem Bounded.remove (h : t.Bounded) (id : NmethodId) : (t.remove id).Bounded := by
  intro x hx
  change Function.update t.slots id none x = none
  by_cases he : x = id
  · rw [he, update_self]
  · rw [update_of_ne he]
    exact h x hx

end OsrCodeTable

end WinArmVm
