import Mathlib.Data.Finset.Card
import Mathlib.Data.Nat.Bitwise
import Mathlib.Data.Nat.Find
import Mathlib.Data.Nat.ModEq

namespace LinearProbing

open Nat Option Function

/-- An open-addressed table whose slots are filled by linear probing and never
emptied; `slot i` is meaningful below `capacity`. -/
structure Table (α β : Type) where
  capacity : Nat
  slot : Nat → Option (α × β)

variable {α β : Type}

namespace Table

def next (t : Table α β) (i : Nat) : Nat := (i + 1) &&& (t.capacity - 1)

def put (t : Table α β) (i : Nat) (key : α) (value : β) : Table α β :=
  { t with slot := Function.update t.slot i (some (key, value)) }

def insertLoop (t : Table α β) (key : α) (value : β) : Nat → Nat → Option (Table α β)
  | 0, _ => none
  | fuel + 1, i =>
    match t.slot i with
    | none => some (t.put i key value)
    | some _ => insertLoop t key value fuel (t.next i)

def insertNew (t : Table α β) (hash : α → Nat) (key : α) (value : β) : Option (Table α β) :=
  t.insertLoop key value (t.capacity + 1) (hash key &&& (t.capacity - 1))

/-- The position `j` steps along the probe sequence of `key`. -/
def pos (t : Table α β) (hash : α → Nat) (key : α) (j : Nat) : Nat := (hash key + j) % t.capacity

def Holds (t : Table α β) (key : α) (i : Nat) : Prop := ∃ v, t.slot i = some (key, v)

def HoldsOther (t : Table α β) (key : α) (i : Nat) : Prop := ∃ k v, t.slot i = some (k, v) ∧ k ≠ key

structure Probed (t : Table α β) (hash : α → Nat) : Prop where
  power : ∃ p, t.capacity = 2 ^ p
  path : ∀ i k, i < t.capacity → t.Holds k i →
    ∃ j < t.capacity, i = t.pos hash k j ∧ ∀ j' < j, t.HoldsOther k (t.pos hash k j')

variable {t : Table α β} {hash : α → Nat} {i : Nat} {key : α} {value : β}

section

variable (h : t.Probed hash)

include h

theorem Probed.capacity_pos : 0 < t.capacity := by
  obtain ⟨p, hp⟩ := h.power
  rw [hp]
  exact Nat.two_pow_pos p

theorem Probed.and_mask (n : Nat) : n &&& (t.capacity - 1) = n % t.capacity := by
  obtain ⟨p, hp⟩ := h.power
  rw [hp, and_two_pow_sub_one_eq_mod]

theorem Probed.next_pos (key : α) (j : Nat) : t.next (t.pos hash key j) = t.pos hash key (j + 1) := by
  rw [next, h.and_mask, pos, pos, mod_add_mod]
  rfl

theorem Probed.pos_lt (key : α) (j : Nat) : t.pos hash key j < t.capacity := Nat.mod_lt _ h.capacity_pos

theorem Probed.pos_surjective (key : α) (hi : i < t.capacity) : ∃ j < t.capacity, i = t.pos hash key j := by
  have hc := h.capacity_pos
  have hm := mod_lt (hash key) hc
  have hd := div_add_mod (hash key) t.capacity
  refine ⟨(i + t.capacity - hash key % t.capacity) % t.capacity, mod_lt _ hc, ?_⟩
  rw [pos, add_mod_mod]
  have he : hash key + (i + t.capacity - hash key % t.capacity) =
      i + t.capacity * (hash key / t.capacity + 1) := by
    rw [mul_add]
    omega
  rw [he, add_mul_mod_self_left, mod_eq_of_lt hi]

omit h in
theorem Probed.pos_injective (_h : t.Probed hash) (key : α) {j j' : Nat} (hj : j < t.capacity) (hj' : j' < t.capacity)
    (he : t.pos hash key j = t.pos hash key j') : j = j' := by
  have hh : Nat.ModEq t.capacity (hash key + j) (hash key + j') := he
  exact Nat.ModEq.eq_of_lt_of_lt (Nat.ModEq.add_left_cancel' _ hh) hj hj'

theorem Probed.holds_unique {i i' : Nat} (hi : i < t.capacity) (hi' : i' < t.capacity)
    (hk : t.Holds key i) (hk' : t.Holds key i') : i = i' := by
  have aux : ∀ {j j' : Nat}, j < j' → t.Holds key (t.pos hash key j) →
      ¬ ∀ j'' < j', t.HoldsOther key (t.pos hash key j'') := by
    rintro j j' hlt ⟨v, hv⟩ hall
    obtain ⟨k, w, hw, hne⟩ := hall j hlt
    rw [hv] at hw
    exact hne (Prod.mk.inj (some.inj hw)).1.symm
  obtain ⟨j, _, rfl, hp⟩ := h.path i key hi hk
  obtain ⟨j', _, rfl, hp'⟩ := h.path i' key hi' hk'
  rcases lt_trichotomy j j' with hlt | rfl | hlt
  · exact absurd hp' (aux hlt hk)
  · rfl
  · exact absurd hp (aux hlt hk')

omit h in
theorem Probed.slot_cases (i : Nat) (absent : ¬ t.Holds key i) : t.slot i = none ∨ t.HoldsOther key i := by
  rcases hs : t.slot i with _ | ⟨k, v⟩
  · exact .inl rfl
  · refine .inr ⟨k, v, hs, ?_⟩
    rintro rfl
    exact absent ⟨v, hs⟩

theorem Probed.put_path (free : t.slot i = none ∨ t.Holds key i) (reach : ∃ j < t.capacity, i = t.pos hash key j ∧
      ∀ j' < j, t.HoldsOther key (t.pos hash key j')) :
    (t.put i key value).Probed hash := by
  have kept : ∀ {k x}, t.HoldsOther k x → x ≠ i ∨ k ≠ key → (t.put i key value).HoldsOther k x := by
    rintro k x ⟨k', v, hs, hne⟩ hx
    by_cases he : x = i
    · subst x
      have hk : k ≠ key := hx.resolve_left (by simp)
      exact ⟨key, value, by simp [put], fun e => hk e.symm⟩
    · exact ⟨k', v, by simpa [put, he] using hs, hne⟩
  refine ⟨h.power, ?_⟩
  rintro x k hx ⟨v, hv⟩
  by_cases he : x = i
  · subst x
    have hk : key = k := by
      simp only [put, update_self, Option.some.injEq, Prod.mk.injEq] at hv
      exact hv.1
    subst k
    obtain ⟨j, hj, rfl, past⟩ := reach
    refine ⟨j, hj, rfl, fun j' hj' => kept (past j' hj') (.inl ?_)⟩
    intro hp
    have := h.pos_injective key (by omega) hj hp
    omega
  · have hold : t.Holds k x := ⟨v, by simpa [put, he] using hv⟩
    obtain ⟨j, hj, rfl, past⟩ := h.path x k hx hold
    refine ⟨j, hj, rfl, fun j' hj' => kept (past j' hj') ?_⟩
    -- A slot of the walk to `k` is overwritten only when it held `key` already.
    by_cases hp : t.pos hash k j' = i
    · obtain ⟨k', w, hs, hne⟩ := past j' hj'
      rcases free with free | ⟨u, hu⟩
      · rw [hp, free] at hs
        simp at hs
      · rw [hp, hu] at hs
        cases hs
        exact .inr hne.symm
    · exact .inl hp

theorem insertLoop_walk {j : Nat} (past : ∀ j' < j, t.HoldsOther key (t.pos hash key j')) (fuel : Nat) :
    t.insertLoop key value (fuel + j) (t.pos hash key 0) =
      t.insertLoop key value fuel (t.pos hash key j) := by
  induction j generalizing fuel with
  | zero => rfl
  | succ j ih =>
    obtain ⟨k, v, hs, _⟩ := past j (by omega)
    rw [show fuel + (j + 1) = (fuel + 1) + j by omega, ih (fun j' hj' => past j' (by omega)) (fuel + 1)]
    simp only [insertLoop, hs, h.next_pos]

theorem Probed.stop (room : ∃ i < t.capacity, t.slot i = none) (key : α) :
    ∃ j < t.capacity, (t.slot (t.pos hash key j) = none ∨ t.Holds key (t.pos hash key j)) ∧
      ∀ j' < j, t.HoldsOther key (t.pos hash key j') := by
  classical
  have hex : ∃ j, j < t.capacity ∧ (t.slot (t.pos hash key j) = none ∨ t.Holds key (t.pos hash key j)) := by
    obtain ⟨i, hi, hs⟩ := room
    obtain ⟨j, hj, rfl⟩ := h.pos_surjective key hi
    exact ⟨j, hj, .inl hs⟩
  obtain ⟨hj, hstop⟩ := Nat.find_spec hex
  refine ⟨Nat.find hex, hj, hstop, fun j' hj' => ?_⟩
  have hno : ¬ (t.slot (t.pos hash key j') = none ∨ t.Holds key (t.pos hash key j')) :=
    fun hs => Nat.find_min hex hj' ⟨by omega, hs⟩
  rcases Probed.slot_cases (t.pos hash key j') (fun hk => hno (.inr hk)) with hn | ho
  · exact absurd (.inl hn) hno
  · exact ho

theorem insertNew_spec (absent : ∀ i < t.capacity, ¬ t.Holds key i)
    (room : ∃ i < t.capacity, t.slot i = none) (value : β) :
    ∃ i < t.capacity, t.slot i = none ∧ t.insertNew hash key value = some (t.put i key value) ∧
      (t.put i key value).Probed hash := by
  classical
  have hex : ∃ j, j < t.capacity ∧ t.slot (t.pos hash key j) = none := by
    obtain ⟨i, hi, hs⟩ := room
    obtain ⟨j, hj, rfl⟩ := h.pos_surjective key hi
    exact ⟨j, hj, hs⟩
  obtain ⟨hj, hs⟩ := Nat.find_spec hex
  have past : ∀ j' < Nat.find hex, t.HoldsOther key (t.pos hash key j') := by
    intro j' hj'
    refine (Probed.slot_cases _ (absent _ (h.pos_lt key j'))).resolve_left fun he => ?_
    exact Nat.find_min hex hj' ⟨by omega, he⟩
  refine ⟨_, h.pos_lt key _, hs, ?_, h.put_path (.inl hs) ⟨_, hj, rfl, past⟩⟩
  have hstart : hash key &&& (t.capacity - 1) = t.pos hash key 0 := by
    rw [h.and_mask, pos, Nat.add_zero]
  rw [insertNew, hstart,
    show t.capacity + 1 = (t.capacity - Nat.find hex + 1) + Nat.find hex by omega,
    insertLoop_walk h past]
  simp only [insertLoop, hs]

end

def occupied (t : Table α β) : Nat := ((Finset.range t.capacity).filter fun i => (t.slot i).isSome).card

theorem exists_free_of_occupied_lt (h : t.occupied < t.capacity) : ∃ i < t.capacity, t.slot i = none := by
  by_contra hno
  push Not at hno
  have hall : (Finset.range t.capacity).filter (fun i => (t.slot i).isSome) =
      Finset.range t.capacity := by
    refine Finset.filter_true_of_mem fun i hi => ?_
    exact isSome_iff_ne_none.mpr (hno i (Finset.mem_range.mp hi))
  rw [occupied, hall, Finset.card_range] at h
  exact lt_irrefl _ h

theorem occupied_put_free (hi : i < t.capacity) (free : t.slot i = none) :
    (t.put i key value).occupied = t.occupied + 1 := by
  have hset : (Finset.range t.capacity).filter (fun x => ((t.put i key value).slot x).isSome) =
      insert i ((Finset.range t.capacity).filter fun x => (t.slot x).isSome) := by
    ext x
    rw [Finset.mem_insert, Finset.mem_filter, Finset.mem_filter, Finset.mem_range]
    by_cases he : x = i
    · subst x
      exact iff_of_true ⟨hi, by simp [put]⟩ (.inl rfl)
    · simp only [or_iff_right he, put, update_of_ne he]
  rw [occupied, show (t.put i key value).capacity = t.capacity from rfl, hset,
    Finset.card_insert_of_notMem (by simp [free]), occupied]

theorem occupied_put_held (held : t.Holds key i) : (t.put i key value).occupied = t.occupied := by
  obtain ⟨v, hv⟩ := held
  have hset : ∀ x, ((t.put i key value).slot x).isSome = (t.slot x).isSome := by
    intro x
    by_cases he : x = i
    · subst x
      simp [put, hv]
    · simp [put, he]
  simp only [occupied, hset]
  rfl

theorem Probed.occupied_eq_card (h : t.Probed hash) {keys : Finset α}
    (hkeys : ∀ k, k ∈ keys ↔ ∃ i < t.capacity, t.Holds k i) : t.occupied = keys.card := by
  classical
  have hslot : ∀ i ∈ (Finset.range t.capacity).filter fun i => (t.slot i).isSome,
      ∃ k v, i < t.capacity ∧ t.slot i = some (k, v) := by
    intro i hi
    obtain ⟨hlt, hs⟩ := Finset.mem_filter.mp hi
    obtain ⟨⟨k, v⟩, hkv⟩ := isSome_iff_exists.mp hs
    exact ⟨k, v, Finset.mem_range.mp hlt, hkv⟩
  choose key value hspec using hslot
  refine Finset.card_bij key (fun i hi => ?_) (fun i hi i' hi' he => ?_) fun k hk => ?_
  · obtain ⟨hlt, hs⟩ := hspec i hi
    exact (hkeys _).mpr ⟨i, hlt, _, hs⟩
  · obtain ⟨hlt, hs⟩ := hspec i hi
    obtain ⟨hlt', hs'⟩ := hspec i' hi'
    rw [← he] at hs'
    exact h.holds_unique hlt hlt' ⟨_, hs⟩ ⟨_, hs'⟩
  · obtain ⟨i, hlt, v, hv⟩ := (hkeys k).mp hk
    have hmem : i ∈ (Finset.range t.capacity).filter fun i => (t.slot i).isSome := by
      rw [Finset.mem_filter, Finset.mem_range, hv]
      exact ⟨hlt, rfl⟩
    refine ⟨i, hmem, ?_⟩
    have hs := (hspec i hmem).2
    rw [hv] at hs
    exact (Prod.mk.inj (some.inj hs)).1.symm

def empty (capacity : Nat) : Table α β := ⟨capacity, fun _ => none⟩

theorem empty_probed (p : Nat) (hash : α → Nat) : (empty (2 ^ p) : Table α β).Probed hash :=
  ⟨⟨p, rfl⟩, fun _ _ _ ⟨_, hv⟩ => by simp [empty] at hv⟩

theorem empty_occupied (n : Nat) : (empty n : Table α β).occupied = 0 := by
  simp [occupied, empty]

/-- Reinserting the slots below `n` of an old table into a new one. -/
def rehash (old : Table α β) (hash : α → Nat) : Nat → Table α β → Option (Table α β)
  | 0, fresh => some fresh
  | n + 1, fresh => do
    let grown ← rehash old hash n fresh
    match old.slot n with
    | none => pure grown
    | some (k, v) => grown.insertNew hash k v

section Probe

variable [DecidableEq α]

def probeLoop (t : Table α β) (key : α) (start : Nat) : Nat → Nat → Option Nat
  | 0, _ => none
  | fuel + 1, i =>
    match t.slot i with
    | none => none
    | some (k, _) =>
      if k = key then some i
      else if t.next i = start then none
      else probeLoop t key start fuel (t.next i)

def probe (t : Table α β) (hash : α → Nat) (key : α) : Option Nat :=
  let start := hash key &&& (t.capacity - 1)
  t.probeLoop key start t.capacity start

variable {hash : α → Nat} {t : Table α β} {key : α} {i : Nat} {start : Nat} {j : Nat}

theorem probeLoop_walk (h : t.Probed hash)
    (hj : j < t.capacity) (past : ∀ j' < j, t.HoldsOther key (t.pos hash key j')) :
    ∀ d ≤ j, t.probeLoop key (t.pos hash key 0) t.capacity (t.pos hash key 0) =
      t.probeLoop key (t.pos hash key 0) (t.capacity - d) (t.pos hash key d) := by
  intro d hd
  induction d with
  | zero => rfl
  | succ d ih =>
    rw [ih (by omega)]
    obtain ⟨k, v, hs, hne⟩ := past d (by omega)
    have hlap : t.pos hash key (d + 1) ≠ t.pos hash key 0 := by
      intro he
      have := h.pos_injective key (by omega) h.capacity_pos he
      omega
    rw [show t.capacity - d = (t.capacity - (d + 1)) + 1 by omega]
    simp only [probeLoop, hs, if_neg hne, h.next_pos, if_neg hlap]

theorem probe_hit (h : t.Probed hash) (hi : i < t.capacity) (hk : t.Holds key i) : t.probe hash key = some i := by
  obtain ⟨j, hj, rfl, past⟩ := h.path i key hi hk
  obtain ⟨v, hv⟩ := hk
  have hstart : hash key &&& (t.capacity - 1) = t.pos hash key 0 := by
    rw [h.and_mask, pos, add_zero]
  simp only [probe, hstart, probeLoop_walk h hj past j le_rfl]
  rw [show t.capacity - j = (t.capacity - (j + 1)) + 1 by omega]
  simp only [probeLoop, hv, ↓reduceIte]

theorem probeLoop_sound : ∀ {fuel i r : Nat}, t.probeLoop key start fuel i = some r → t.Holds key r := by
  intro fuel
  induction fuel with
  | zero => intro i r h; simp [probeLoop] at h
  | succ fuel ih =>
    intro i r h
    simp only [probeLoop] at h
    split at h
    next => simp at h
    next k v hs =>
      split at h
      next he =>
        cases h
        exact ⟨v, by rw [hs, he]⟩
      next =>
        split at h
        next => simp at h
        next => exact ih h

theorem probeLoop_lt (h : t.Probed hash) : ∀ {fuel i r : Nat}, i < t.capacity → t.probeLoop key start fuel i = some r →
      r < t.capacity := by
  intro fuel
  induction fuel with
  | zero => intro i r _ hr; simp [probeLoop] at hr
  | succ fuel ih =>
    intro i r hi hr
    simp only [probeLoop] at hr
    split at hr
    next => simp at hr
    next =>
      split at hr
      next => cases hr; exact hi
      next =>
        split at hr
        next => simp at hr
        next =>
          refine ih ?_ hr
          rw [next, h.and_mask]
          exact mod_lt _ h.capacity_pos

theorem probe_eq_some_iff (h : t.Probed hash) : t.probe hash key = some i ↔ i < t.capacity ∧ t.Holds key i := by
  refine ⟨fun hp => ⟨?_, probeLoop_sound hp⟩, fun hh => probe_hit h hh.1 hh.2⟩
  refine probeLoop_lt h ?_ hp
  rw [h.and_mask]
  exact mod_lt _ h.capacity_pos

def find? (t : Table α β) (hash : α → Nat) (key : α) : Option β :=
  (t.probe hash key).bind fun i => (t.slot i).map Prod.snd

theorem find?_eq_some_iff (h : t.Probed hash) {v : β} :
    t.find? hash key = some v ↔ ∃ i < t.capacity, t.slot i = some (key, v) := by
  simp only [find?, bind_eq_some_iff, map_eq_some_iff]
  constructor
  · rintro ⟨i, hp, ⟨k, w⟩, hs, rfl⟩
    obtain ⟨hi, u, hu⟩ := (probe_eq_some_iff h).mp hp
    rw [hs] at hu
    cases some.inj hu
    exact ⟨i, hi, hs⟩
  · rintro ⟨i, hi, hs⟩
    exact ⟨i, probe_hit h hi ⟨v, hs⟩, (key, v), hs, rfl⟩

theorem Probed.find?_stop (h : t.Probed hash)
    (hstop : t.slot (t.pos hash key j) = none ∨ t.Holds key (t.pos hash key j))
    (past : ∀ j' < j, t.HoldsOther key (t.pos hash key j')) :
    t.find? hash key = (t.slot (t.pos hash key j)).map Prod.snd := by
  rcases hstop with hn | ⟨v, hv⟩
  · rw [hn]
    refine eq_none_iff_forall_ne_some.mpr fun v hv => ?_
    obtain ⟨i, hi, hs⟩ := (find?_eq_some_iff h).mp hv
    obtain ⟨j₀, -, rfl, past₀⟩ := h.path i key hi ⟨v, hs⟩
    rcases lt_trichotomy j₀ j with hlt | rfl | hlt
    · obtain ⟨k, w, hw, hne⟩ := past j₀ hlt
      rw [hs] at hw
      exact hne (Prod.mk.inj (some.inj hw)).1.symm
    · rw [hn] at hs
      cases hs
    · obtain ⟨k, w, hw, -⟩ := past₀ j hlt
      rw [hn] at hw
      cases hw
  · rw [hv]
    exact (find?_eq_some_iff h).mpr ⟨_, h.pos_lt key j, hv⟩

theorem find?_put (h : t.Probed hash) {value : β} (hi : i < t.capacity) (free : t.slot i = none ∨ t.Holds key i)
    (h' : (t.put i key value).Probed hash) (q : α) :
    (t.put i key value).find? hash q = if q = key then some value else t.find? hash q := by
  by_cases hq : q = key
  · subst q
    rw [if_pos rfl, find?_eq_some_iff h']
    exact ⟨i, hi, by simp [put]⟩
  · rw [if_neg hq]
    refine Option.ext fun v => ?_
    rw [find?_eq_some_iff h', find?_eq_some_iff h]
    refine exists_congr fun x => and_congr_right fun _ => ?_
    by_cases he : x = i
    · subst x
      simp only [put, update_self, Option.some.injEq, Prod.mk.injEq]
      constructor
      · exact fun e => absurd e.1.symm hq
      · intro e
        rcases free with free | ⟨u, hu⟩
        · rw [free] at e
          simp at e
        · rw [hu] at e
          exact absurd (Prod.mk.inj (some.inj e)).1.symm hq
    · simp [put, he]

theorem empty_find? (p : Nat) (hash : α → Nat) (key : α) : (empty (2 ^ p) : Table α β).find? hash key = none := by
  refine eq_none_iff_forall_ne_some.mpr fun v hv => ?_
  obtain ⟨i, _, hi⟩ := (find?_eq_some_iff (empty_probed p hash)).mp hv
  simp [empty] at hi

/-- What a partial rehash has to preserve: the new table holds exactly the
bindings of the slots already visited. -/
structure Rehashed (old fresh : Table α β) (hash : α → Nat) (n : Nat) : Prop where
  probed : fresh.Probed hash
  holds : ∀ k v, fresh.find? hash k = some v ↔ ∃ i < n, old.slot i = some (k, v)
  occupied : fresh.occupied = ((Finset.range n).filter fun i => (old.slot i).isSome).card

theorem rehash_spec {old fresh : Table α β} (ho : old.Probed hash)
    (hf : Rehashed old fresh hash 0) (hcap : old.capacity < fresh.capacity) :
    ∀ n ≤ old.capacity, ∃ grown, rehash old hash n fresh = some grown ∧
      grown.capacity = fresh.capacity ∧ Rehashed old grown hash n := by
  intro n hn
  induction n with
  | zero => exact ⟨fresh, rfl, rfl, hf⟩
  | succ n ih =>
    obtain ⟨grown, hr, hc, hg⟩ := ih (by omega)
    have hrange : Finset.range (n + 1) = insert n (Finset.range n) := Finset.range_add_one
    rcases hs : old.slot n with _ | ⟨k, v⟩
    · refine ⟨grown, by simp [rehash, hr, hs], hc, ⟨hg.probed, ?_, ?_⟩⟩
      · intro k v
        rw [hg.holds]
        constructor
        · rintro ⟨i, hi, he⟩
          exact ⟨i, by omega, he⟩
        · rintro ⟨i, hi, he⟩
          have : i ≠ n := by rintro rfl; simp [hs] at he
          exact ⟨i, by omega, he⟩
      · rw [hg.occupied, hrange, Finset.filter_insert, if_neg (by simp [hs])]
    · have absent : ∀ i < grown.capacity, ¬ grown.Holds k i := by
        rintro i hi ⟨w, hw⟩
        obtain ⟨x, hx, he⟩ := (hg.holds k w).mp ((find?_eq_some_iff hg.probed).mpr ⟨i, hi, hw⟩)
        have := ho.holds_unique (by omega) (by omega) ⟨w, he⟩ ⟨v, hs⟩
        omega
      have hle : grown.occupied ≤ n := by
        rw [hg.occupied]
        exact (Finset.card_filter_le _ _).trans (by simp)
      obtain ⟨i, hi, free, hput, hp⟩ := insertNew_spec hg.probed absent (exists_free_of_occupied_lt (by omega)) v
      refine ⟨grown.put i k v, by simpa [rehash, hr, hs] using hput, hc, ⟨hp, ?_, ?_⟩⟩
      · intro q w
        rw [find?_put hg.probed hi (.inl free) hp q]
        by_cases hq : q = k
        · subst q
          rw [if_pos rfl]
          constructor
          · rintro ⟨⟩
            exact ⟨n, by omega, hs⟩
          · rintro ⟨x, hx, he⟩
            have := ho.holds_unique (by omega) (by omega) ⟨w, he⟩ ⟨v, hs⟩
            subst x
            rw [hs] at he
            cases he
            rfl
        · rw [if_neg hq, hg.holds]
          constructor
          · rintro ⟨x, hx, he⟩
            exact ⟨x, by omega, he⟩
          · rintro ⟨x, hx, he⟩
            have : x ≠ n := by
              rintro rfl
              rw [hs] at he
              cases he
              exact hq rfl
            exact ⟨x, by omega, he⟩
      · rw [occupied_put_free hi free, hg.occupied, hrange, Finset.filter_insert,
          if_pos (by simp [hs]), Finset.card_insert_of_notMem (by simp)]

end Probe

def mapEntries {α' β' : Type} (t : Table α β) (f : α → α') (g : β → β') : Table α' β' :=
  ⟨t.capacity, fun i => (t.slot i).map (Prod.map f g)⟩

variable {α' β' : Type} {t : Table α β} (e : α ≃ α') (g : β → β')

theorem mapEntries_slot_iff {k : α} {w : β'} :
    (t.mapEntries e g).slot i = some (e k, w) ↔ ∃ v, t.slot i = some (k, v) ∧ g v = w := by
  simp only [mapEntries, map_eq_some_iff, Prod.exists, Prod.map, Prod.mk.injEq]
  constructor
  · rintro ⟨k', v, hs, hk, hw⟩
    rw [e.injective hk] at hs
    exact ⟨v, hs, hw⟩
  · rintro ⟨v, hs, hw⟩
    exact ⟨k, v, hs, rfl, hw⟩

theorem mapEntries_holds {k : α} : (t.mapEntries e g).Holds (e k) i ↔ t.Holds k i := by
  unfold Holds
  simp only [mapEntries_slot_iff]
  exact ⟨fun ⟨_, v, hv, _⟩ => ⟨v, hv⟩, fun ⟨v, hv⟩ => ⟨g v, v, hv, rfl⟩⟩

theorem HoldsOther.mapEntries {k : α} (h : t.HoldsOther k i) : (t.mapEntries e g).HoldsOther (e k) i := by
  obtain ⟨k', v, hs, hne⟩ := h
  exact ⟨e k', g v, (mapEntries_slot_iff e g).mpr ⟨v, hs, rfl⟩, fun he => hne (e.injective he)⟩

theorem Probed.mapEntries (h : t.Probed hash) : (t.mapEntries e g).Probed (hash ∘ e.symm) := by
  refine ⟨h.power, fun i k' hi hk => ?_⟩
  obtain ⟨k, rfl⟩ := e.surjective k'
  obtain ⟨j, hj, hp, past⟩ := h.path i k hi ((mapEntries_holds e g).mp hk)
  have hpos : ∀ j, (t.mapEntries e g).pos (hash ∘ e.symm) (e k) j = t.pos hash k j := by
    intro j
    simp [pos, Table.mapEntries]
  exact ⟨j, hj, by rw [hpos, hp], fun j' hj' => by rw [hpos]; exact (past j' hj').mapEntries e g⟩

theorem mapEntries_occupied (t : Table α β) : (t.mapEntries e g).occupied = t.occupied := by
  simp [occupied, mapEntries]

end Table
end LinearProbing
