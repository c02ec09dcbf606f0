import WinArmVm.LinearProbing

namespace WinArmVm

open LinearProbing.Table Option

structure KlassOop where
  raw : Nat
deriving DecidableEq, Repr

structure SymbolOop where
  raw : Nat
deriving DecidableEq, Repr

/-- A `CompiledMethod` or `CompiledBlock`, by the raw word of its oop. -/
structure MethodOop where
  raw : Nat
deriving DecidableEq, Repr

/-- The open-addressed `(Symbol, CompiledMethod)` table. The hash of a selector
is its eager identity hash, which lives in the symbol's mark word. -/
structure MethodDict where
  table : LinearProbing.Table SymbolOop MethodOop
  tally : Nat

namespace MethodDict

def capacity (d : MethodDict) : Nat := d.table.capacity

def probeSlot (d : MethodDict) (hash : SymbolOop → Nat) (selector : SymbolOop) : Option Nat :=
  if d.capacity = 0 then none else d.table.probe hash selector

def probe (d : MethodDict) (hash : SymbolOop → Nat) (selector : SymbolOop) : Option MethodOop :=
  (d.probeSlot hash selector).bind fun slot => (d.table.slot slot).map Prod.snd

def allocMethodDict (capacity : Nat) : MethodDict := ⟨.empty capacity, 0⟩

def grow (d : MethodDict) (hash : SymbolOop → Nat) : Option MethodDict := do
  let grown ← d.table.rehash hash d.capacity (.empty (max (d.capacity * 2) 8))
  pure ⟨grown, d.tally⟩

def withRoom (d : MethodDict) (hash : SymbolOop → Nat) : Option MethodDict :=
  if d.capacity = 0 ∨ 4 * (d.tally + 1) > 3 * d.capacity then d.grow hash else some d

/-- `none` is the panic of `raw_insert_new` when a full lap finds no nil slot. -/
def insert (d : MethodDict) (hash : SymbolOop → Nat) (selector : SymbolOop) (method : MethodOop) : Option MethodDict :=
  match d.probeSlot hash selector with
  | some slot => some { d with table := d.table.put slot selector method }
  | none => do
    let dict ← d.withRoom hash
    let table ← dict.table.insertNew hash selector method
    pure ⟨table, dict.tally + 1⟩

/-- The three-quarter load factor leaves every probe sequence a nil slot to stop at. -/
structure Valid (d : MethodDict) (hash : SymbolOop → Nat) : Prop where
  probed : d.table.Probed hash
  tally : d.tally = d.table.occupied
  load : 4 * d.tally ≤ 3 * d.capacity

variable {hash : SymbolOop → Nat} {d : MethodDict}

theorem Valid.probe_eq_find? (h : d.Valid hash)
    (selector : SymbolOop) : d.probe hash selector = d.table.find? hash selector := by
  have hc : d.capacity ≠ 0 := h.probed.capacity_pos.ne'
  simp only [probe, probeSlot, if_neg hc, find?]

theorem allocMethodDict_valid (p : Nat) (hash : SymbolOop → Nat) : (allocMethodDict (2 ^ p)).Valid hash :=
  ⟨empty_probed p hash, (empty_occupied _).symm, Nat.zero_le _⟩

theorem allocMethodDict_probe (p : Nat) (hash : SymbolOop → Nat) (selector : SymbolOop) :
    (allocMethodDict (2 ^ p)).probe hash selector = none := by
  rw [(allocMethodDict_valid p hash).probe_eq_find?]
  exact empty_find? p hash selector

theorem Valid.grow_spec (h : d.Valid hash) : ∃ grown, d.grow hash = some grown ∧ grown.Valid hash ∧
      4 * (grown.tally + 1) ≤ 3 * grown.capacity ∧
      ∀ q, grown.probe hash q = d.probe hash q := by
  obtain ⟨p, hp⟩ := h.probed.power
  have hcap : max (d.capacity * 2) 8 = 2 ^ max (p + 1) 3 := by
    have he : d.capacity * 2 = 2 ^ (p + 1) := by rw [capacity, hp, Nat.pow_succ]
    rcases le_total (p + 1) 3 with hle | hle
    · have := Nat.pow_le_pow_right (show 0 < 2 by omega) hle
      rw [max_eq_right hle, he]
      exact max_eq_right this
    · have := Nat.pow_le_pow_right (show 0 < 2 by omega) hle
      rw [max_eq_left hle, he]
      exact max_eq_left this
  have hbig : d.table.capacity < max (d.capacity * 2) 8 := by
    have := h.probed.capacity_pos
    have : d.table.capacity = d.capacity := rfl
    omega
  have hstart : d.table.Rehashed (.empty (max (d.capacity * 2) 8)) hash 0 := by
    rw [hcap]
    refine ⟨empty_probed _ hash, fun k v => ?_, ?_⟩
    · simp [empty_find?]
    · simp [empty_occupied]
  obtain ⟨grown, hr, hc, hg⟩ := rehash_spec h.probed hstart hbig _ le_rfl
  have hocc : grown.occupied = d.tally := by rw [hg.occupied, h.tally]; rfl
  have hload : 4 * (d.tally + 1) ≤ 3 * grown.capacity := by
    have := h.load
    have := h.probed.capacity_pos
    have hh : grown.capacity = max (d.capacity * 2) 8 := hc
    have : d.table.capacity = d.capacity := rfl
    omega
  have hv : (⟨grown, d.tally⟩ : MethodDict).Valid hash :=
    ⟨hg.probed, hocc.symm, by change 4 * d.tally ≤ 3 * grown.capacity; omega⟩
  have hgrow : d.grow hash = some ⟨grown, d.tally⟩ := by
    have hr' : d.table.rehash hash d.capacity (.empty (max (d.capacity * 2) 8)) = some grown := hr
    simp only [grow, hr', bind_eq_bind, bind_some, pure_def]
  refine ⟨⟨grown, d.tally⟩, hgrow, hv, hload, fun q => ?_⟩
  rw [hv.probe_eq_find?, h.probe_eq_find?]
  refine Option.ext fun v => ?_
  rw [hg.holds, find?_eq_some_iff h.probed]

theorem Valid.withRoom_spec (h : d.Valid hash) : ∃ dict, d.withRoom hash = some dict ∧ dict.Valid hash ∧
      4 * (dict.tally + 1) ≤ 3 * dict.capacity ∧ ∀ q, dict.probe hash q = d.probe hash q := by
  by_cases hfull : d.capacity = 0 ∨ 4 * (d.tally + 1) > 3 * d.capacity
  · rw [withRoom, if_pos hfull]
    exact h.grow_spec
  · rw [withRoom, if_neg hfull]
    push Not at hfull
    exact ⟨d, rfl, h, hfull.2, fun _ => rfl⟩

theorem Valid.insert_spec {d : MethodDict} {hash : SymbolOop → Nat} (h : d.Valid hash)
    (selector : SymbolOop) (method : MethodOop) :
    ∃ d', d.insert hash selector method = some d' ∧ d'.Valid hash ∧
      ∀ q, d'.probe hash q = if q = selector then some method else d.probe hash q := by
  have hc : d.capacity ≠ 0 := h.probed.capacity_pos.ne'
  have hps : d.probeSlot hash selector = d.table.probe hash selector := by
    rw [probeSlot, if_neg hc]
  cases hp : d.table.probe hash selector with
  | some slot =>
    obtain ⟨hi, held⟩ := (probe_eq_some_iff h.probed).mp hp
    have hprobed : (d.table.put slot selector method).Probed hash :=
      h.probed.put_path (.inr held) (h.probed.path slot selector hi held)
    have hv : ({ d with table := d.table.put slot selector method } : MethodDict).Valid hash :=
      ⟨hprobed, by rw [occupied_put_held held]; exact h.tally, h.load⟩
    refine ⟨{ d with table := d.table.put slot selector method }, by simp [insert, hps, hp], hv,
      fun q => ?_⟩
    rw [hv.probe_eq_find?, h.probe_eq_find?]
    exact find?_put h.probed hi (.inr held) hprobed q
  | none =>
    obtain ⟨dict, hd, hdv, hroom, hsame⟩ := h.withRoom_spec
    have absent : ∀ i < dict.table.capacity, ¬ dict.table.Holds selector i := by
      rintro i hi ⟨v, hv⟩
      have hf : dict.probe hash selector = some v := by
        rw [hdv.probe_eq_find?]
        exact (find?_eq_some_iff hdv.probed).mpr ⟨i, hi, hv⟩
      rw [hsame, probe, hps, hp] at hf
      simp at hf
    have hlt : dict.table.occupied < dict.table.capacity := by
      have := hdv.tally
      have : dict.capacity = dict.table.capacity := rfl
      omega
    obtain ⟨i, hi, free, hput, hprobed⟩ := insertNew_spec hdv.probed absent (exists_free_of_occupied_lt hlt) method
    have hv : (⟨dict.table.put i selector method, dict.tally + 1⟩ : MethodDict).Valid hash :=
      ⟨hprobed, by rw [occupied_put_free hi free, ← hdv.tally], hroom⟩
    refine ⟨⟨dict.table.put i selector method, dict.tally + 1⟩, ?_, hv, fun q => ?_⟩
    · simp only [insert, hps, hp, hd, bind_eq_bind, bind_some, hput, pure_def]
    · rw [hv.probe_eq_find?, ← hsame, hdv.probe_eq_find?]
      exact find?_put hdv.probed hi (.inl free) hprobed q

end MethodDict

end WinArmVm
