import WinArmVm.LinearProbing

namespace WinArmVm

open Option

open LinearProbing (Table)

/-- Two parallel arrays, a nil key being an empty slot. A nil value is a tombstone: there is
no removal. -/
structure Dictionary (K V : Type) where
  table : Table K (Option V)
  tally : Nat

namespace Dictionary

variable {K V : Type} [DecidableEq K]

def scanLoop (t : Table K (Option V)) (key : K) : Nat → Nat → Option Nat
  | 0, _ => none
  | fuel + 1, i =>
    match t.slot i with
    | none => some i
    | some (probe, _) => if probe = key then some i else scanLoop t key fuel (t.next i)

def scanFor (hash : K → Nat) (t : Table K (Option V)) (key : K) : Option Nat :=
  scanLoop t key t.capacity (hash key &&& (t.capacity - 1))

def new : Dictionary K V := ⟨.empty 8, 0⟩

/-- The slots below `n` of the old arrays, each probed for its place in the fresh ones. -/
def reprobe (hash : K → Nat) (old : Table K (Option V)) : Nat → Table K (Option V) → Option (Table K (Option V))
  | 0, fresh => some fresh
  | n + 1, fresh => do
    let grown ← reprobe hash old n fresh
    match old.slot n with
    | none => pure grown
    | some (k, v) => (scanFor hash grown k).map fun j => grown.put j k v

def grow (hash : K → Nat) (d : Dictionary K V) : Option (Dictionary K V) :=
  (reprobe hash d.table d.table.capacity (.empty (d.table.capacity * 2))).map fun t => ⟨t, d.tally⟩

def checkGrow (hash : K → Nat) (d : Dictionary K V) : Option (Dictionary K V) :=
  if d.tally * 2 > d.table.capacity then d.grow hash else some d

/-- `none` is a probe that does not end. -/
def atPut (hash : K → Nat) (d : Dictionary K V) (key : K) (value : Option V) : Option (Dictionary K V) :=
  match scanFor hash d.table key with
  | none => none
  | some i =>
    match d.table.slot i with
    | none => checkGrow hash ⟨d.table.put i key value, d.tally + 1⟩
    | some _ => some ⟨d.table.put i key value, d.tally⟩

/-- `at:ifAbsent:` with nil for the absent: a tombstone reads the same. -/
def lookup (hash : K → Nat) (d : Dictionary K V) (key : K) : Option V :=
  (scanFor hash d.table key).bind fun i => (d.table.slot i).bind Prod.snd

structure Valid (hash : K → Nat) (d : Dictionary K V) : Prop where
  probed : d.table.Probed hash
  tally : d.tally = d.table.occupied
  load : d.tally * 2 ≤ d.table.capacity
  size : 8 ≤ d.table.capacity

variable {hash : K → Nat} {d : Dictionary K V} {t : Table K (Option V)} {key : K}

theorem scanLoop_walk (h : t.Probed hash) {j : Nat}
    (past : ∀ j' < j, t.HoldsOther key (t.pos hash key j')) (fuel : Nat) :
    scanLoop t key (fuel + j) (t.pos hash key 0) = scanLoop t key fuel (t.pos hash key j) := by
  induction j generalizing fuel with
  | zero => rfl
  | succ j ih =>
    obtain ⟨k, v, hs, hne⟩ := past j (by omega)
    rw [show fuel + (j + 1) = (fuel + 1) + j by omega, ih (fun j' hj' => past j' (by omega)) (fuel + 1)]
    simp only [scanLoop, hs, if_neg hne, h.next_pos]

theorem scanFor_spec (h : t.Probed hash) (room : ∃ i < t.capacity, t.slot i = none) (key : K) :
    ∃ j < t.capacity, scanFor hash t key = some (t.pos hash key j) ∧
      (t.slot (t.pos hash key j) = none ∨ t.Holds key (t.pos hash key j)) ∧
      ∀ j' < j, t.HoldsOther key (t.pos hash key j') := by
  classical
  have hex : ∃ j, j < t.capacity ∧
      (t.slot (t.pos hash key j) = none ∨ t.Holds key (t.pos hash key j)) := by
    obtain ⟨i, hi, hs⟩ := room
    obtain ⟨j, hj, rfl⟩ := h.pos_surjective key hi
    exact ⟨j, hj, .inl hs⟩
  obtain ⟨hj, hstop⟩ := Nat.find_spec hex
  have past : ∀ j' < Nat.find hex, t.HoldsOther key (t.pos hash key j') := by
    intro j' hj'
    have hnot := Nat.find_min hex hj'
    have hno : ¬ (t.slot (t.pos hash key j') = none ∨ t.Holds key (t.pos hash key j')) :=
      fun hstop => hnot ⟨by omega, hstop⟩
    rcases Table.Probed.slot_cases (t.pos hash key j') (fun hk => hno (.inr hk)) with hn | ho
    · exact absurd (.inl hn) hno
    · exact ho
  refine ⟨Nat.find hex, hj, ?_, hstop, past⟩
  have hstart : hash key &&& (t.capacity - 1) = t.pos hash key 0 := by
    rw [h.and_mask, Table.pos, Nat.add_zero]
  obtain ⟨fuel, hfuel⟩ : ∃ fuel, t.capacity = fuel + 1 + Nat.find hex := ⟨t.capacity - 1 - Nat.find hex, by omega⟩
  unfold scanFor
  rw [hstart]
  conv_lhs => rw [hfuel]
  rw [scanLoop_walk h past]
  rcases hstop with hn | ⟨v, hv⟩
  · simp only [scanLoop, hn]
  · simp only [scanLoop, hv, if_pos]

omit [DecidableEq K] in
theorem Valid.room (h : d.Valid hash) : ∃ i < d.table.capacity, d.table.slot i = none := by
  apply Table.exists_free_of_occupied_lt
  have := h.load
  have := h.size
  rw [← h.tally]
  omega

theorem scanFor_absent (h : t.Probed hash) (room : ∃ i < t.capacity, t.slot i = none)
    (absent : ∀ i < t.capacity, ¬ t.Holds key i) (v : Option V) :
    (scanFor hash t key).map (fun j => t.put j key v) = t.insertNew hash key v := by
  obtain ⟨j, hj, hscan, hstop, past⟩ := scanFor_spec h room key
  have hn := hstop.resolve_right (absent _ (h.pos_lt key j))
  have hstart : hash key &&& (t.capacity - 1) = t.pos hash key 0 := by
    rw [h.and_mask, Table.pos, Nat.add_zero]
  rw [hscan, map_some, Table.insertNew, hstart,
    show t.capacity + 1 = (t.capacity - j + 1) + j by omega, Table.insertLoop_walk h past]
  simp only [Table.insertLoop, hn]

theorem reprobe_eq {old fresh : Table K (Option V)} (ho : old.Probed hash)
    (hf : Table.Rehashed old fresh hash 0) (hcap : old.capacity < fresh.capacity) :
    ∀ n ≤ old.capacity, reprobe hash old n fresh = old.rehash hash n fresh := by
  intro n hn
  induction n with
  | zero => rfl
  | succ n ih =>
    obtain ⟨grown, hr, hc, hg⟩ := Table.rehash_spec ho hf hcap n (by omega)
    have hih := ih (by omega)
    rw [hr] at hih
    unfold reprobe Table.rehash
    rw [hih, hr]
    rcases hs : old.slot n with _ | ⟨k, v⟩
    · rfl
    · apply scanFor_absent hg.probed
      · apply Table.exists_free_of_occupied_lt
        have hle : grown.occupied ≤ n := by
          rw [hg.occupied]
          exact (Finset.card_filter_le _ _).trans (by simp)
        omega
      · intro i hi hin
        obtain ⟨w, hw⟩ := hin
        obtain ⟨x, hx, he⟩ := (hg.holds k w).mp ((Table.find?_eq_some_iff hg.probed).mpr ⟨i, hi, hw⟩)
        have := ho.holds_unique (by omega) (by omega) ⟨w, he⟩ ⟨v, hs⟩
        omega

omit [DecidableEq K] in
theorem new_valid : (new : Dictionary K V).Valid hash :=
  ⟨Table.empty_probed 3 hash, (Table.empty_occupied 8).symm, Nat.zero_le _, Nat.le_refl _⟩

theorem lookup_eq_some_iff (h : d.Valid hash) {v : V} :
    d.lookup hash key = some v ↔ ∃ i < d.table.capacity, d.table.slot i = some (key, some v) := by
  obtain ⟨j, hj, hscan, hstop, past⟩ := scanFor_spec h.probed h.room key
  unfold lookup
  rw [hscan, bind_some]
  constructor
  · intro hv
    obtain ⟨⟨k, w⟩, hs, hw⟩ := bind_eq_some_iff.mp hv
    rcases hstop with hn | ⟨u, hu⟩
    · rw [hn] at hs
      cases hs
    · rw [hu] at hs
      cases hs
      have hwv : w = some v := hw
      rw [hwv] at hu
      exact ⟨_, h.probed.pos_lt key j, hu⟩
  · intro ⟨i, hi, hs⟩
    obtain ⟨j', hj', hij, past'⟩ := h.probed.path i key hi ⟨_, hs⟩
    have hsame : j' = j := by
      rcases Nat.lt_trichotomy j' j with hlt | he | hlt
      · obtain ⟨k, w, hw, hne⟩ := past j' hlt
        rw [← hij, hs] at hw
        cases hw
        exact absurd rfl hne
      · exact he
      · obtain ⟨k, w, hw, hne⟩ := past' j hlt
        rcases hstop with hn | ⟨u, hu⟩
        · rw [hn] at hw
          cases hw
        · rw [hu] at hw
          cases hw
          exact absurd rfl hne
    rw [← hsame, ← hij, hs]
    rfl

theorem lookup_eq_find? (h : d.Valid hash) (key : K) : d.lookup hash key = (d.table.find? hash key).join := by
  refine Option.ext fun v => ?_
  rw [lookup_eq_some_iff h, join_eq_some_iff, Table.find?_eq_some_iff h.probed]

theorem new_lookup (key : K) : (new : Dictionary K V).lookup hash key = none := by
  rw [lookup_eq_find? new_valid]
  have := Table.empty_find? (β := Option V) 3 hash key
  have hnew : (new : Dictionary K V).table.find? hash key = none := this
  rw [hnew]
  rfl

theorem grow_spec (hp : d.table.Probed hash) (ht : d.tally = d.table.occupied) (hsize : 8 ≤ d.table.capacity)
    (hload : d.tally ≤ d.table.capacity) :
    ∃ d', d.grow hash = some d' ∧ d'.Valid hash ∧ ∀ q, d'.table.find? hash q = d.table.find? hash q := by
  obtain ⟨p, hpow⟩ := hp.power
  have hcap : d.table.capacity * 2 = 2 ^ (p + 1) := by rw [hpow, Nat.pow_succ]
  have hstart : d.table.Rehashed (.empty (d.table.capacity * 2)) hash 0 := by
    rw [hcap]
    refine ⟨Table.empty_probed _ hash, fun k v => ?_, ?_⟩
    · simp [Table.empty_find?]
    · simp [Table.empty_occupied]
  have hbig : d.table.capacity < (Table.empty (d.table.capacity * 2) : Table K (Option V)).capacity := by
    show d.table.capacity < d.table.capacity * 2
    omega
  obtain ⟨grown, hr, hc, hg⟩ := Table.rehash_spec hp hstart hbig _ le_rfl
  have hcapacity : grown.capacity = d.table.capacity * 2 := hc
  refine ⟨⟨grown, d.tally⟩, ?_, ⟨hg.probed, ?_, ?_, ?_⟩, fun q => ?_⟩
  · unfold grow
    rw [reprobe_eq hp hstart hbig _ le_rfl, hr]
    rfl
  · rw [hg.occupied, ht]
    rfl
  · show d.tally * 2 ≤ grown.capacity
    omega
  · show 8 ≤ grown.capacity
    omega
  · refine Option.ext fun v => ?_
    rw [hg.holds, Table.find?_eq_some_iff hp]

theorem atPut_spec (h : d.Valid hash) (key : K) (value : Option V) :
    ∃ d', d.atPut hash key value = some d' ∧ d'.Valid hash ∧
      ∀ q, d'.lookup hash q = if q = key then value else d.lookup hash q := by
  obtain ⟨j, hj, hscan, hstop, past⟩ := scanFor_spec h.probed h.room key
  have hi := h.probed.pos_lt key j
  have hprobed : (d.table.put (d.table.pos hash key j) key value).Probed hash :=
    h.probed.put_path hstop ⟨j, hj, rfl, past⟩
  have hfind := Table.find?_put h.probed hi hstop hprobed
  have hjoin : ∀ (d' : Dictionary K V), d'.Valid hash →
      (∀ q, d'.table.find? hash q = (d.table.put (d.table.pos hash key j) key value).find? hash q) →
      ∀ q, d'.lookup hash q = if q = key then value else d.lookup hash q := by
    intro d' hv hd q
    rw [lookup_eq_find? hv, lookup_eq_find? h, hd, hfind]
    split
    next => rfl
    next => rfl
  unfold atPut
  rw [hscan]
  dsimp only
  have hcapacity : (d.table.put (d.table.pos hash key j) key value).capacity = d.table.capacity := rfl
  have hload := h.load
  have hsize := h.size
  rcases hs : d.table.slot (d.table.pos hash key j) with _ | ⟨k, w⟩
  · have hocc : (d.table.put (d.table.pos hash key j) key value).occupied = d.table.occupied + 1 :=
      Table.occupied_put_free hi hs
    have htally : d.tally + 1 = (d.table.put (d.table.pos hash key j) key value).occupied := by
      rw [hocc, h.tally]
    dsimp only
    unfold checkGrow
    split
    next hfull =>
      obtain ⟨d', hgrow, hv, hd⟩ := grow_spec (d := ⟨_, d.tally + 1⟩) hprobed htally hsize
        (by show d.tally + 1 ≤ d.table.capacity; omega)
      exact ⟨d', hgrow, hv, hjoin d' hv hd⟩
    next hfull =>
      have hv : (⟨_, d.tally + 1⟩ : Dictionary K V).Valid hash := ⟨hprobed, htally, Nat.le_of_not_lt hfull, hsize⟩
      exact ⟨_, rfl, hv, hjoin _ hv fun _ => rfl⟩
  · have hheld : d.table.Holds key (d.table.pos hash key j) := by
      rcases hstop with hn | hh
      · rw [hn] at hs
        cases hs
      · exact hh
    have hocc : (d.table.put (d.table.pos hash key j) key value).occupied = d.table.occupied :=
      Table.occupied_put_held hheld
    have htally : d.tally = (d.table.put (d.table.pos hash key j) key value).occupied := by
      rw [hocc, h.tally]
    have hv : (⟨_, d.tally⟩ : Dictionary K V).Valid hash := ⟨hprobed, htally, hload, hsize⟩
    exact ⟨_, rfl, hv, hjoin _ hv fun _ => rfl⟩

theorem reprobe_capacity {old fresh grown : Table K (Option V)} {n : Nat}
    (h : reprobe hash old n fresh = some grown) : grown.capacity = fresh.capacity := by
  induction n generalizing grown with
  | zero =>
    cases h
    rfl
  | succ n ih =>
    obtain ⟨g, hg, h⟩ := bind_eq_some_iff.mp h
    split at h
    next =>
      cases h
      exact ih hg
    next =>
      obtain ⟨j, _, hj⟩ := map_eq_some_iff.mp h
      have hcap : g.capacity = fresh.capacity := ih hg
      rw [← hj, ← hcap]
      rfl

theorem capacity_le_of_atPut {d d' : Dictionary K V} {value : Option V}
    (h : d.atPut hash key value = some d') : d.table.capacity ≤ d'.table.capacity := by
  unfold atPut at h
  split at h
  next => cases h
  next =>
    split at h
    next =>
      unfold checkGrow at h
      split at h
      next =>
        obtain ⟨t, ht, he⟩ := map_eq_some_iff.mp h
        have hcap : t.capacity = d.table.capacity * 2 := reprobe_capacity ht
        rw [← he]
        show d.table.capacity ≤ t.capacity
        omega
      next =>
        cases h
        exact Nat.le_refl _
    next =>
      cases h
      exact Nat.le_refl _

end Dictionary

end WinArmVm
