import WinArmVm.MethodDict

namespace WinArmVm.MethodDict

open List LinearProbing

variable (hash : SymbolOop → Nat)

/-- The turns of the probe loop; none while it has not come to an end. -/
def probeTurns (t : Table SymbolOop MethodOop) (selector : SymbolOop) (start : Nat) : Nat → Nat → Option (Option Nat)
  | 0, _ => none
  | turns + 1, i =>
    match t.slot i with
    | none => some none
    | some (k, _) =>
      if k = selector then some (some i)
      else if t.next i = start then some none
      else probeTurns t selector start turns (t.next i)

def insertAll (d : MethodDict) : List (SymbolOop × MethodOop) → Option MethodDict
  | [] => some d
  | (selector, method) :: rest => (d.insert hash selector method).bind fun d => d.insertAll rest

structure Maps (d : MethodDict) (sets : List (SymbolOop × MethodOop)) : Prop where
  valid : d.Valid hash
  value : ∀ q, d.probe hash q = sets.reverse.lookup q

variable {hash} {t : Table SymbolOop MethodOop} {selector : SymbolOop} {d : MethodDict} {sets : List (SymbolOop × MethodOop)}
  {start : Nat}

theorem probeTurns_sound : ∀ {turns i : Nat} {r : Option Nat}, probeTurns t selector start turns i = some r →
      t.probeLoop selector start turns i = r := by
  intro turns
  induction turns with
  | zero => intro i r h; cases h
  | succ turns ih =>
    intro i r h
    unfold probeTurns at h
    unfold Table.probeLoop
    split at h
    next hs =>
      cases h
      rw [hs]
    next k v hs =>
      rw [hs]
      dsimp only
      split at h
      next he =>
        cases Option.some.inj h
        exact if_pos he
      next hne =>
        rw [if_neg hne]
        split at h
        next hlap =>
          cases h
          exact if_pos hlap
        next hlap =>
          rw [if_neg hlap]
          exact ih h

theorem probeTurns_ends (h : t.Probed hash) {j : Nat} (hj : j < t.capacity)
    (hstop : t.slot (t.pos hash selector j) = none ∨ t.Holds selector (t.pos hash selector j))
    (past : ∀ j' < j, t.HoldsOther selector (t.pos hash selector j')) :
    ∀ d ≤ j, ∃ r, probeTurns t selector (t.pos hash selector 0) (d + 1) (t.pos hash selector (j - d)) = some r := by
  intro d
  induction d with
  | zero =>
    intro _
    rw [Nat.sub_zero]
    rcases hstop with hn | ⟨v, hv⟩
    · exact ⟨none, by simp only [probeTurns, hn]⟩
    · exact ⟨some (t.pos hash selector j), by simp [probeTurns, hv]⟩
  | succ d ih =>
    intro hd
    obtain ⟨k, v, hs, hne⟩ := past (j - (d + 1)) (by omega)
    obtain ⟨r, hr⟩ := ih (by omega)
    have hlap : t.pos hash selector (j - (d + 1) + 1) ≠ t.pos hash selector 0 := by
      intro he
      have := h.pos_injective selector (by omega) h.capacity_pos he
      omega
    refine ⟨r, ?_⟩
    unfold probeTurns
    rw [hs]
    dsimp only
    rw [if_neg hne, h.next_pos, if_neg hlap, show j - (d + 1) + 1 = j - d by omega]
    exact hr

theorem probeTurns_mono :
    ∀ {turns more i : Nat} {r : Option Nat}, turns ≤ more → probeTurns t selector start turns i = some r →
      probeTurns t selector start more i = some r := by
  intro turns
  induction turns with
  | zero => intro more i r _ h; cases h
  | succ turns ih =>
    intro more i r hle h
    obtain ⟨more, rfl⟩ := Nat.exists_eq_add_of_le' (show 1 ≤ more by omega)
    unfold probeTurns at h ⊢
    split at h
    next => exact h
    next k v hs =>
      split at h
      next he => rwa [if_pos he]
      next hne =>
        rw [if_neg hne]
        split at h
        next hlap => rwa [if_pos hlap]
        next hlap =>
          rw [if_neg hlap]
          exact ih (by omega) h

theorem Valid.room (h : d.Valid hash) : ∃ i < d.capacity, d.table.slot i = none := by
  apply Table.exists_free_of_occupied_lt
  have := h.tally
  have := h.load
  have := h.probed.capacity_pos
  have : d.capacity = d.table.capacity := rfl
  omega

theorem Valid.probe_ends (h : d.Valid hash) (selector : SymbolOop) :
    probeTurns d.table selector (hash selector &&& (d.capacity - 1)) d.capacity (hash selector &&& (d.capacity - 1)) =
      some (d.probeSlot hash selector) := by
  obtain ⟨j, hj, hstop, past⟩ := h.probed.stop h.room selector
  have hstart : hash selector &&& (d.capacity - 1) = d.table.pos hash selector 0 := by
    rw [capacity, h.probed.and_mask, Table.pos, Nat.add_zero]
  obtain ⟨r, hr⟩ := probeTurns_ends h.probed hj hstop past j (Nat.le_refl j)
  rw [Nat.sub_self, ← hstart] at hr
  have hr' := probeTurns_mono (show j + 1 ≤ d.capacity from hj) hr
  rw [hr', probeSlot, if_neg (show d.capacity ≠ 0 from h.probed.capacity_pos.ne')]
  exact congrArg some (probeTurns_sound hr').symm

theorem Maps.insert_spec {d : MethodDict} {sets : List (SymbolOop × MethodOop)} (h : d.Maps hash sets)
    (selector : SymbolOop) (method : MethodOop) :
    ∃ d', d.insert hash selector method = some d' ∧ d'.Maps hash (sets ++ [(selector, method)]) := by
  obtain ⟨d', hd, hv, hprobe⟩ := h.valid.insert_spec selector method
  refine ⟨d', hd, hv, fun q => ?_⟩
  rw [hprobe, h.value, reverse_append, reverse_singleton, singleton_append, lookup_cons]
  by_cases hq : q = selector
  · rw [if_pos hq, beq_iff_eq.mpr hq]
  · rw [if_neg hq, beq_false_of_ne hq]

theorem Maps.insertAll_spec : ∀ (more : List (SymbolOop × MethodOop)) {d : MethodDict}
    {sets : List (SymbolOop × MethodOop)}, d.Maps hash sets →
    ∃ d', d.insertAll hash more = some d' ∧ d'.Maps hash (sets ++ more) := by
  intro more
  induction more with
  | nil => intro d sets h; exact ⟨d, rfl, by rwa [append_nil]⟩
  | cons c more ih =>
    intro d sets h
    obtain ⟨d₁, hd, h₁⟩ := h.insert_spec c.1 c.2
    obtain ⟨d', hd', h'⟩ := ih h₁
    refine ⟨d', ?_, by rwa [append_assoc] at h'⟩
    show (d.insert hash c.1 c.2).bind _ = _
    rw [hd]
    exact hd'

theorem lookup_isSome_iff {q : SymbolOop} : (sets.lookup q).isSome ↔ q ∈ sets.map Prod.fst := by
  induction sets with
  | nil => simp
  | cons c sets ih =>
    rw [lookup_cons, map_cons, mem_cons]
    by_cases hq : q = c.1
    · rw [beq_iff_eq.mpr hq]
      exact iff_of_true rfl (.inl hq)
    · rw [beq_false_of_ne hq, or_iff_right hq]
      exact ih

theorem Maps.tally_eq (h : d.Maps hash sets) : d.tally = (sets.map Prod.fst).dedup.length := by
  rw [h.valid.tally, ← card_toFinset]
  apply h.valid.probed.occupied_eq_card
  intro k
  rw [mem_toFinset, ← mem_reverse, ← map_reverse, ← lookup_isSome_iff, ← h.value,
    h.valid.probe_eq_find?, Option.isSome_iff_exists]
  simp only [Table.find?_eq_some_iff h.valid.probed, Table.Holds]
  constructor
  · intro hv
    obtain ⟨v, i, hi, hs⟩ := hv
    exact ⟨i, hi, v, hs⟩
  · intro hat
    obtain ⟨i, hi, v, hs⟩ := hat
    exact ⟨v, i, hi, hs⟩

/-- A dictionary of a power-of-two capacity is the map of its insertions, and every probe ends. -/
theorem insertAll_maps (hash : SymbolOop → Nat) (p : Nat) (sets : List (SymbolOop × MethodOop)) :
    ∃ d, (allocMethodDict (2 ^ p)).insertAll hash sets = some d ∧
      (∀ q, d.probe hash q = sets.reverse.lookup q) ∧ d.tally = (sets.map Prod.fst).dedup.length ∧
      (∃ p', d.capacity = 2 ^ p') ∧ (∃ i < d.capacity, d.table.slot i = none) ∧
      ∀ q, probeTurns d.table q (hash q &&& (d.capacity - 1)) d.capacity (hash q &&& (d.capacity - 1)) =
        some (d.probeSlot hash q) := by
  have hnew : (allocMethodDict (2 ^ p)).Maps hash [] :=
    ⟨allocMethodDict_valid p hash, fun q => allocMethodDict_probe p hash q⟩
  obtain ⟨d, hd, h⟩ := hnew.insertAll_spec sets
  rw [nil_append] at h
  exact ⟨d, hd, h.value, h.tally_eq, h.valid.probed.power, h.valid.room, h.valid.probe_ends⟩

end WinArmVm.MethodDict
