import WinArmVm.CodeIndices

namespace WinArmVm.OsrCodeTable

open Function SlotIndex List Option

variable {t : OsrCodeTable} {id : NmethodId} {nm : Nmethod} {osrBci : Option Nat}

structure SameSlots (t t' : OsrCodeTable) : Prop where
  size : t'.size = t.size
  slots : t'.slots = t.slots
  osrBci : t'.osrBci = t.osrBci

theorem SameSlots.owns {t' : OsrCodeTable} (h : SameSlots t t') (id : NmethodId) (a : IndexKey) :
    t'.Owns id a ↔ t.Owns id a := by
  unfold Owns CodeTable.get
  rw [h.slots, h.osrBci]

theorem rehashSlot_sameSlots (t : OsrCodeTable) (id : NmethodId) : SameSlots t (t.rehashSlot id) := by
  unfold rehashSlot
  split
  next => exact ⟨rfl, rfl, rfl⟩
  next =>
    split
    next => exact ⟨rfl, rfl, rfl⟩
    next =>
      split
      next => exact ⟨rfl, rfl, rfl⟩
      next =>
        split
        next => exact ⟨rfl, rfl, rfl⟩
        next =>
          dsimp only
          split
          next => exact ⟨rfl, rfl, rfl⟩
          next => exact ⟨rfl, rfl, rfl⟩

variable {a : IndexKey} {events : List Event} {e : Event}

theorem rehashSlot_takes (h : t.Owns id a) : (t.rehashSlot id).index a = some id := by
  obtain ⟨nm, hs, ha, hown⟩ := h
  unfold rehashSlot
  rw [hs]
  dsimp only
  rw [if_neg (not_not_intro ha)]
  cases a with
  | method k sel =>
    obtain ⟨hb, hdyn, rfl, rfl⟩ := hown
    rw [hb]
    rw [if_neg (by simp [hdyn])]
    cases t.osrBci id with
    | none => exact update_self (nm.keyKlass, nm.keySelector) _ _
    | some bci => exact update_self (nm.keyKlass, nm.keySelector) _ _
  | block b =>
    rw [show nm.blockMethod = some b from hown]
    exact update_self b _ _
  | osr k sel bci =>
    obtain ⟨hb, hdyn, rfl, rfl, hbci⟩ := hown
    rw [hb]
    rw [if_neg (by simp [hdyn]), hbci]
    exact update_self (nm.keyKlass, nm.keySelector, bci) _ _

theorem rehashSlot_keeps (h : ¬ t.Owns id a) : (t.rehashSlot id).index a = t.index a := by
  unfold rehashSlot
  cases hs : t.get id with
  | none => rfl
  | some nm =>
    dsimp only
    by_cases ha : nm.state = .alive
    · rw [if_neg (not_not_intro ha)]
      have hown : ¬ nm.OwnsKey (t.osrBci id) a := fun hown => h ⟨nm, hs, ha, hown⟩
      cases hb : nm.blockMethod with
      | some b =>
        cases a with
        | method k sel => rfl
        | block b' =>
          apply update_of_ne
          rintro rfl
          exact hown hb
        | osr k sel bci => rfl
      | none =>
        dsimp only
        by_cases hdyn : nm.ownsDynamicKey = false
        · rw [if_pos hdyn]
        · rw [if_neg hdyn]
          have hdyn' : nm.ownsDynamicKey = true := by simpa using hdyn
          have hkey : ∀ k sel, ¬ nm.OwnsKey (t.osrBci id) (.method k sel) →
              (k, sel) ≠ (nm.keyKlass, nm.keySelector) := by
            intro k sel hno e
            obtain ⟨rfl, rfl⟩ := Prod.mk.inj e
            exact hno ⟨hb, hdyn', rfl, rfl⟩
          cases hbci : t.osrBci id with
          | none =>
            cases a with
            | method k sel => exact update_of_ne (hkey k sel hown) _ _
            | block b => rfl
            | osr k sel bci => rfl
          | some bci =>
            cases a with
            | method k sel => exact update_of_ne (hkey k sel hown) _ _
            | block b => rfl
            | osr k sel bci' =>
              apply update_of_ne
              intro e
              obtain ⟨hk, e⟩ := Prod.mk.inj e
              obtain ⟨hsel, hbci'⟩ := Prod.mk.inj e
              refine hown ⟨hb, hdyn', hk.symm, hsel.symm, ?_⟩
              rw [hbci, hbci']
    · rw [if_pos ha]

theorem mem_ids (id : NmethodId) : id ∈ t.ids ↔ id.index < t.size := by
  unfold ids
  constructor
  · intro h
    obtain ⟨i, hi, rfl⟩ := mem_map.mp h
    exact mem_range.mp hi
  · intro h
    exact mem_map.mpr ⟨id.index, mem_range.mpr h, rfl⟩

theorem ids_ascending (t : OsrCodeTable) : t.ids.Pairwise fun i j => NmethodId.index i < NmethodId.index j := by
  unfold ids
  rw [pairwise_map]
  exact pairwise_lt_range

theorem rehash_settled (h : t.Bounded) : SameSlots t t.rehash ∧ t.rehash.view.Settled NmethodId.index := by
  have hfold : ∀ a, SameSlots t t.rehash ∧ ∀ i, t.rehash.index a = some i ↔
      i ∈ t.ids ∧ t.Owns i a ∧ ∀ j ∈ t.ids, t.Owns j a → j.index ≤ i.index := by
    intro a
    unfold rehash
    apply foldl_last NmethodId.index (fun i => t.Owns i a) (fun s => s.index a) (SameSlots t)
    · intro s i hs
      have hslot := rehashSlot_sameSlots s i
      exact ⟨hslot.size.trans hs.size, hslot.slots.trans hs.slots, hslot.osrBci.trans hs.osrBci⟩
    · intro s i hs hown
      exact rehashSlot_takes ((hs.owns i a).mpr hown)
    · intro s i hs hown
      exact rehashSlot_keeps fun h => hown ((hs.owns i a).mp h)
    · exact ⟨rfl, rfl, rfl⟩
    · cases a <;> rfl
    · exact t.ids_ascending
  have hsame := (hfold (.block ⟨0⟩)).1
  refine ⟨hsame, ?_⟩
  have hin : ∀ i a, t.Owns i a → i ∈ t.ids := by
    rintro i a ⟨nm, hs, _⟩
    rw [mem_ids]
    by_contra hlt
    have hnone : t.get i = none := h i (by omega)
    rw [hnone] at hs
    cases hs
  intro a i
  change t.rehash.index a = some i ↔ _
  rw [(hfold a).2 i]
  unfold Last
  change _ ↔ t.rehash.Owns i a ∧ ∀ j, t.rehash.Owns j a → _
  simp only [hsame.owns]
  constructor
  · rintro ⟨_, hown, hmax⟩
    exact ⟨hown, fun j hj => hmax j (hin j a hj) hj⟩
  · rintro ⟨hown, hmax⟩
    exact ⟨hin i a hown, hown, fun j _ hj => hmax j hj⟩

theorem updateKeys_owns (r : Relocation) (i : NmethodId) (a : IndexKey) :
    (t.updateKeys r).Owns i (r.indexKey a) ↔ t.Owns i a := by
  have hget : (t.updateKeys r).get i = (t.get i).map (Nmethod.relocate r) := rfl
  have hkey : ∀ nm : Nmethod,
      (nm.relocate r).OwnsKey (t.osrBci i) (r.indexKey a) ↔ nm.OwnsKey (t.osrBci i) a := by
    intro nm
    cases a with
    | method k sel => simp [Nmethod.OwnsKey, Nmethod.relocate, Relocation.indexKey]
    | block b => simp [Nmethod.OwnsKey, Nmethod.relocate, Relocation.indexKey]
    | osr k sel bci => simp [Nmethod.OwnsKey, Nmethod.relocate, Relocation.indexKey]
  unfold Owns
  rw [hget]
  constructor
  · rintro ⟨nm', hs', ha, hown⟩
    obtain ⟨nm, hs, rfl⟩ := map_eq_some_iff.mp hs'
    exact ⟨nm, hs, ha, (hkey nm).mp hown⟩
  · rintro ⟨nm, hs, ha, hown⟩
    exact ⟨nm.relocate r, by rw [hs, map_some], ha, (hkey nm).mpr hown⟩

theorem Bounded.updateKeys (h : t.Bounded) (r : Relocation) : (t.updateKeys r).Bounded := by
  intro id hid
  have hnone : t.slots id = none := h id hid
  change (t.slots id).map _ = none
  rw [hnone, map_none]

theorem Bounded.collect (h : t.Bounded) (r : Relocation) : (t.collect r).Bounded := by
  have hsame := (rehash_settled (h.updateKeys r)).1
  intro id hid
  have hslots : (t.collect r).slots = (t.updateKeys r).slots := hsame.slots
  have hsize : (t.collect r).size = (t.updateKeys r).size := hsame.size
  rw [hslots]
  exact h.updateKeys r id (hsize ▸ hid)

theorem Bounded.collect_keeps (h : t.Bounded) (r : Relocation) :
    (∀ a, (t.collect r).index (r.indexKey a) = t.index a) ↔ t.view.Settled NmethodId.index := by
  obtain ⟨hsame, hbuilt⟩ := rehash_settled (h.updateKeys r)
  have howns : ∀ i a, (t.collect r).view.owns i (r.indexKey a) ↔ t.view.owns i a := fun i a =>
    (hsame.owns i _).trans (updateKeys_owns r i a)
  exact View.settled_iff_renamed r.indexKey howns hbuilt

theorem answer_eq_index (h : t.view.Coherent) (a : IndexKey) : t.answer a = t.index a := by
  cases a with
  | method k sel => rfl
  | osr k sel bci => rfl
  | block b =>
    change t.lookupBlock b = t.byBlock b
    unfold CodeTable.lookupBlock
    cases hb : t.byBlock b with
    | none => rfl
    | some id =>
      obtain ⟨nm, hs, ha, _⟩ := h (.block b) id hb
      simp [hs, ha]

/-- What happens to the table. `remove` ends a flush that began with `mark_zombie`. -/
inductive Event
  | install (nm : Nmethod) (osrBci : Option Nat)
  | setNotEntrant (id : NmethodId)
  | markZombie (id : NmethodId)
  | remove (id : NmethodId)
  | collect (r : Relocation)

def step (t : OsrCodeTable) : Event → OsrCodeTable
  | .install nm osrBci => t.installCompiled nm osrBci
  | .setNotEntrant id => t.setNotEntrant id
  | .markZombie id => t.markZombie id
  | .remove id => t.remove id
  | .collect r => t.collect r

def run : OsrCodeTable → List Event → OsrCodeTable
  | t, [] => t
  | t, e :: events => run (t.step e) events

def Along (P : OsrCodeTable → Event → Prop) : OsrCodeTable → List Event → Prop
  | _, [] => True
  | t, e :: events => P t e ∧ Along P (t.step e) events

/-- What the operations assert and their callers see to. An OSR compile is never of a block. -/
def Legal (t : OsrCodeTable) : Event → Prop
  | .install nm osrBci => nm.state = .alive ∧ (nm.blockMethod ≠ none → osrBci = none)
  | .setNotEntrant id => ∃ nm, t.get id = some nm ∧ nm.state = .alive
  | .markZombie id => ∃ nm, t.get id = some nm
  | .remove id => ∃ nm, t.get id = some nm ∧ nm.state = .zombie
  | .collect _ => True

/-- No key of a new nmethod has a live owner in a later slot, and an nmethod that answers a key is
retired only where it is the only live owner. -/
def Orderly (t : OsrCodeTable) : Event → Prop
  | .install nm osrBci => ∀ a, nm.OwnsKey osrBci a → ∀ i, t.Owns i a → i.index < t.freeSlot.index
  | .setNotEntrant id => ∀ a, t.index a = some id → ∀ i, t.Owns i a → i = id
  | .markZombie id => ∀ a, t.index a = some id → ∀ i, t.Owns i a → i = id
  | .remove _ => True
  | .collect _ => True

theorem step_coherent (hb : t.Bounded) (hv : t.view.Coherent) (h : t.Legal e) :
    (t.step e).Bounded ∧ (t.step e).view.Coherent := by
  cases e with
  | install nm osrBci => exact ⟨hb.installCompiled nm osrBci, (hb.hooked h.1 h.2).coherent hv⟩
  | setNotEntrant id =>
    obtain ⟨nm, hs, _⟩ := h
    exact ⟨hb.retire _ id, (unhooked hv .notEntrant nofun hs).coherent hv⟩
  | markZombie id =>
    obtain ⟨nm, hs⟩ := h
    exact ⟨hb.retire _ id, (unhooked hv .zombie nofun hs).coherent hv⟩
  | remove id =>
    obtain ⟨nm, hs, hz⟩ := h
    refine ⟨hb.remove id, ?_⟩
    change (t.remove id).view.Coherent
    rw [remove_view hs hz]
    exact hv
  | collect r => exact ⟨hb.collect r, (rehash_settled (hb.updateKeys r)).2.coherent⟩

theorem step_settled (hb : t.Bounded) (hv : t.view.Settled NmethodId.index) (h : t.Legal e)
    (ho : t.Orderly e) : (t.step e).view.Settled NmethodId.index := by
  cases e with
  | install nm osrBci => exact (hb.hooked h.1 h.2).settled hv ho
  | setNotEntrant id =>
    obtain ⟨nm, hs, _⟩ := h
    exact (unhooked hv.coherent .notEntrant nofun hs).settled hv ho
  | markZombie id =>
    obtain ⟨nm, hs⟩ := h
    exact (unhooked hv.coherent .zombie nofun hs).settled hv ho
  | remove id =>
    obtain ⟨nm, hs, hz⟩ := h
    change (t.remove id).view.Settled _
    rw [remove_view hs hz]
    exact hv
  | collect r => exact (rehash_settled (hb.updateKeys r)).2

theorem run_coherent (hb : t.Bounded) (hv : t.view.Coherent)
    (h : Along Legal t events) : (run t events).Bounded ∧ (run t events).view.Coherent := by
  induction events generalizing t with
  | nil => exact ⟨hb, hv⟩
  | cons e events ih =>
    obtain ⟨hb', hv'⟩ := step_coherent hb hv h.1
    exact ih hb' hv' h.2

theorem run_settled (hb : t.Bounded) (hv : t.view.Settled NmethodId.index)
    (h : Along Legal t events) (ho : Along Orderly t events) :
    (run t events).view.Settled NmethodId.index := by
  induction events generalizing t with
  | nil => exact hv
  | cons e events ih =>
    exact ih (step_coherent hb hv.coherent h.1).1 (step_settled hb hv h.1 ho.1) h.2 ho.2

theorem retire_keeps_successor (hv : t.view.Coherent) (state : NmState)
    (hstate : state ≠ .alive) {id x : NmethodId} (hne : x ≠ id) (hx : t.index a = some x) :
    (t.retire state id).index a = some x := by
  cases hs : t.get id with
  | none =>
    have : t.retire state id = t := by
      unfold retire
      rw [hs]
    rw [this, hx]
  | some nm =>
    have hno : t.view.index a ≠ some id := by
      intro e
      exact hne (Option.some.inj (hx.symm.trans e))
    exact ((unhooked hv state hstate hs).kept a hno).trans hx

/-- In every history each index names only live owners of its keys, and a retirement unhooks none but
the nmethod retired; where the history is orderly, a collection changes no lookup's answer. -/
theorem indices_coherent (events : List Event) (h : Along Legal new events) :
    (∀ a id, (run new events).index a = some id → (run new events).Owns id a) ∧
    (∀ id x a, x ≠ id → (run new events).index a = some x →
      ((run new events).setNotEntrant id).index a = some x ∧ ((run new events).markZombie id).index a = some x) ∧
    (Along Orderly new events → ∀ r a,
      ((run new events).collect r).answer (r.indexKey a) = (run new events).answer a) := by
  obtain ⟨hb, hv⟩ := run_coherent new_bounded new_settled.coherent h
  refine ⟨hv, ?_, ?_⟩
  · intro id x a hne hx
    exact ⟨retire_keeps_successor hv .notEntrant nofun hne hx, retire_keeps_successor hv .zombie nofun hne hx⟩
  · intro ho r a
    have hset := run_settled new_bounded new_settled h ho
    have hbuilt := (rehash_settled (hb.updateKeys r)).2
    have hcoh : (run new events |>.collect r).view.Coherent := hbuilt.coherent
    rw [answer_eq_index hcoh, answer_eq_index hv]
    exact (hb.collect_keeps r).mpr hset a

def hotNmethod (sel : SymbolOop) (version : Nat) : Nmethod where
  keyKlass := ⟨1⟩
  keySelector := sel
  ownsDynamicKey := true
  blockMethod := none
  method := ⟨1⟩
  state := .alive
  version := version
  halfWarmOsr := false
  selfDevirt := false
  inlineDeps := []
  icSites := []

def osrBelow : List Event :=
  [.install (hotNmethod ⟨1⟩ 0) none, .install (hotNmethod ⟨2⟩ 0) none, .markZombie ⟨0⟩, .remove ⟨0⟩,
    .install (hotNmethod ⟨2⟩ 0) (some 7)]

def osrAbove : List Event := [.install (hotNmethod ⟨2⟩ 0) none, .install (hotNmethod ⟨2⟩ 0) (some 7)]

def unmoved : Relocation := ⟨Equiv.refl _, Equiv.refl _, Equiv.refl _⟩

theorem indices_coherent_above : ((run new osrAbove).collect unmoved).answer (unmoved.indexKey (.method ⟨1⟩ ⟨2⟩)) =
      (run new osrAbove).answer (.method ⟨1⟩ ⟨2⟩) := by
  refine (indices_coherent osrAbove ?_).2.2 ?_ unmoved _
  · exact ⟨⟨rfl, fun h => absurd rfl h⟩, ⟨rfl, fun h => absurd rfl h⟩, trivial⟩
  · refine ⟨?_, ?_, trivial⟩
    · rintro a _ i ⟨nm, h, _⟩
      cases h
    · rintro a _ ⟨i⟩ ⟨nm, h, _⟩
      change i < 1
      by_contra hi
      have hnone : (new.step (.install (hotNmethod ⟨2⟩ 0) none)).get ⟨i⟩ = none :=
        new_bounded.installCompiled (hotNmethod ⟨2⟩ 0) none ⟨i⟩ (by change 1 ≤ i; omega)
      rw [hnone] at h
      cases h

theorem indices_incoherent_below : ¬ ∀ events, Along Legal new events →
      (∀ a id, (run new events).index a = some id → (run new events).Owns id a) ∧
      (∀ id x a, x ≠ id → (run new events).index a = some x →
        ((run new events).setNotEntrant id).index a = some x ∧ ((run new events).markZombie id).index a = some x) ∧
      ∀ r a, ((run new events).collect r).answer (r.indexKey a) = (run new events).answer a := by
  intro h
  have hlegal : Along Legal new osrBelow :=
    ⟨⟨rfl, fun h => absurd rfl h⟩, ⟨rfl, fun h => absurd rfl h⟩, ⟨_, rfl⟩, ⟨_, rfl, rfl⟩,
      ⟨rfl, fun h => absurd rfl h⟩, trivial⟩
  have hkept := (h osrBelow hlegal).2.2 unmoved (.method ⟨1⟩ ⟨2⟩)
  revert hkept
  decide

end WinArmVm.OsrCodeTable
