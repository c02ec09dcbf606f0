import Mathlib.Data.Multiset.Count
import WinArmVm.HashedCollection

namespace WinArmVm.Hashing

open Option Function

open LinearProbing (Table)

variable {K V : Type} (H : Hashing K)

/-- Objects that are `=` are one key. -/
def setoid : Setoid K := ⟨fun a b => H.same a b = true, H.refl, H.symm, H.trans⟩

def Key : Type := Quotient H.setoid

def key (k : K) : H.Key := Quotient.mk H.setoid k

theorem key_eq_iff {a b : K} : H.key a = H.key b ↔ H.same a b = true :=
  ⟨fun h => Quotient.exact (s := H.setoid) h, fun h => Quotient.sound (s := H.setoid) h⟩

instance : DecidableEq H.Key :=
  Quotient.decidableEq (s := H.setoid) (d := fun a b => inferInstanceAs (Decidable (H.same a b = true)))

def keyWord : H.Key → Nat := Quotient.lift H.word fun a b h => by
  unfold word
  rw [H.consistent h]

/-- The table with its keys up to `=`. -/
def view (t : Table K V) : Table H.Key V := t.mapEntries H.key id

variable {t : Table K V}

theorem view_slot (t : Table K V) (i : Nat) : (H.view t).slot i = (t.slot i).map fun kv => (H.key kv.1, kv.2) := rfl

variable {i : Nat} {q : H.Key}

theorem view_slot_eq_some {v : V} : (H.view t).slot i = some (q, v) ↔ ∃ k, t.slot i = some (k, v) ∧ H.key k = q := by
  rw [view_slot, map_eq_some_iff]
  constructor
  · rintro ⟨⟨k, w⟩, hs, he⟩
    cases he
    exact ⟨k, hs, rfl⟩
  · rintro ⟨k, hs, rfl⟩
    exact ⟨(k, v), hs, rfl⟩

theorem view_slot_eq_none : (H.view t).slot i = none ↔ t.slot i = none := by
  rw [view_slot, map_eq_none_iff]

theorem view_put (i : Nat) (k : K) (v : V) : H.view (t.put i k v) = (H.view t).put i (H.key k) v := by
  have hslot : (H.view (t.put i k v)).slot = ((H.view t).put i (H.key k) v).slot := by
    funext j
    rw [view_slot]
    by_cases hj : j = i
    · rw [hj, Table.put_slot_self, Table.put_slot_self]
      rfl
    · rw [Table.put_slot_ne _ _ _ hj, Table.put_slot_ne _ _ _ hj]
      rfl
  exact congrArg (Table.mk t.capacity) hslot

theorem view_clear (i : Nat) : H.view (t.clear i) = (H.view t).clear i := by
  have hslot : (H.view (t.clear i)).slot = ((H.view t).clear i).slot := by
    funext j
    rw [view_slot]
    by_cases hj : j = i
    · rw [hj, Table.clear_slot_self, Table.clear_slot_self]
      rfl
    · rw [Table.clear_slot_ne _ hj, Table.clear_slot_ne _ hj]
      rfl
  exact congrArg (Table.mk t.capacity) hslot

theorem view_empty (n : Nat) : H.view (.empty n : Table K V) = .empty n := rfl

theorem scanFrom_view (key : K) (fuel i : Nat) :
    Table.scanFrom (fun a b => decide (a = b)) (H.view t) (H.key key) fuel i = Table.scanFrom H.same t key fuel i := by
  induction fuel generalizing i with
  | zero => rfl
  | succ fuel ih =>
    unfold Table.scanFrom
    rw [view_slot]
    cases hs : t.slot i with
    | none => rfl
    | some kv =>
      obtain ⟨probe, v⟩ := kv
      simp only [map_some, decide_eq_true_eq, key_eq_iff]
      rw [ih]
      rfl

theorem scan_view (key : K) :
    Table.scan (fun a b => decide (a = b)) H.keyWord (H.view t) (H.key key) = Table.scan H.same H.word t key :=
  H.scanFrom_view key _ _

theorem healFrom_view (fuel i : Nat) (t : Table K V) :
    Table.healFrom (fun a b => decide (a = b)) H.keyWord fuel (H.view t) i =
      (Table.healFrom H.same H.word fuel t i).map H.view := by
  induction fuel generalizing t i with
  | zero => rfl
  | succ fuel ih =>
    have hstep : (H.view t).step i = t.step i := rfl
    unfold Table.healFrom
    rw [hstep, view_slot]
    cases hs : t.slot (t.step i) with
    | none => rfl
    | some kv =>
      obtain ⟨k, v⟩ := kv
      dsimp only [map_some]
      rw [← view_clear, scan_view]
      cases Table.scan H.same H.word (t.clear (t.step i)) k with
      | none => rfl
      | some j =>
        dsimp only
        rw [← view_put]
        exact ih _ _

theorem heal_view (i : Nat) :
    Table.heal (fun a b => decide (a = b)) H.keyWord (H.view t) i = (Table.heal H.same H.word t i).map H.view :=
  H.healFrom_view ..

theorem reprobe_view (old : Table K V) (n : Nat) (fresh : Table K V) :
    Table.reprobe (fun a b => decide (a = b)) H.keyWord (H.view old) n (H.view fresh) =
      (Table.reprobe H.same H.word old n fresh).map H.view := by
  induction n with
  | zero => rfl
  | succ n ih =>
    unfold Table.reprobe
    rw [ih]
    cases Table.reprobe H.same H.word old n fresh with
    | none => rfl
    | some grown =>
      simp only [map_some, bind_eq_bind, bind_some]
      rw [view_slot]
      cases hs : old.slot n with
      | none => rfl
      | some kv =>
        obtain ⟨k, v⟩ := kv
        simp only [map_some]
        rw [scan_view]
        cases Table.scan H.same H.word grown k with
        | none => rfl
        | some j => exact congrArg some (H.view_put j k v).symm

variable {tally : Nat} {m : H.Key → Option V}

structure Binds (t : Table K V) (tally : Nat) (m : H.Key → Option V) : Prop where
  power : ∃ p, t.capacity = 2 ^ p
  size : 8 ≤ t.capacity
  unique : (H.view t).UniqueKeys
  entries : ∀ q v, m q = some v ↔ ∃ i < t.capacity, (H.view t).slot i = some (q, v)
  tally : tally = (H.view t).keys.card

structure Stores (t : Table K V) (tally : Nat) (m : H.Key → Option V) : Prop extends Binds H t tally m where
  probed : (H.view t).Probed H.keyWord

theorem empty_stores : H.Stores (.empty 8 : Table K V) 0 fun _ => none := by
  have hprobed : (H.view (.empty 8 : Table K V)).Probed H.keyWord := Table.empty_probed 3 _
  refine ⟨⟨⟨3, rfl⟩, Nat.le_refl 8, hprobed.uniqueKeys, fun q v => ⟨(fun h => nomatch h), ?_⟩, ?_⟩, hprobed⟩
  · rintro ⟨i, -, h⟩
    cases h
  · rw [view_empty, Table.empty_keys, Finset.card_empty]

variable {H}

theorem Binds.mem_keys (h : H.Binds t tally m) : q ∈ (H.view t).keys ↔ ∃ v, m q = some v := by
  rw [Table.mem_keys]
  constructor
  · rintro ⟨i, hi, v, hv⟩
    exact ⟨v, (h.entries q v).mpr ⟨i, hi, hv⟩⟩
  · rintro ⟨v, hv⟩
    obtain ⟨i, hi, hs⟩ := (h.entries q v).mp hv
    exact ⟨i, hi, v, hs⟩

theorem Binds.eq_none_iff (h : H.Binds t tally m) : m q = none ↔ q ∉ (H.view t).keys := by
  rw [h.mem_keys, eq_none_iff_forall_ne_some, not_exists]

theorem Stores.room (h : H.Stores t tally m) (hload : tally < t.capacity) :
    ∃ e < (H.view t).capacity, (H.view t).slot e = none := by
  apply Table.exists_free_of_occupied_lt
  rw [← h.probed.card_keys, ← h.tally]
  exact hload

theorem Binds.put (h : H.Binds t tally m) (hi : i < t.capacity) {k : K} {v : V}
    (hat : t.slot i = none ∧ m (H.key k) = none ∨ (H.view t).Holds (H.key k) i) {tally' : Nat}
    (htally : tally' = (insert (H.key k) (H.view t).keys).card) :
    H.Binds (t.put i k v) tally' (Function.update m (H.key k) (some v)) := by
  have hother : ∀ {q w i'}, q ≠ H.key k → (((H.view t).put i (H.key k) v).slot i' = some (q, w) ↔
      (H.view t).slot i' = some (q, w)) := by
    intro q w i' hq
    by_cases hii : i' = i
    · subst hii
      rw [Table.put_slot_self]
      refine iff_of_false (fun he => ?_) fun he => ?_
      · cases he
        exact absurd rfl hq
      · rcases hat with ⟨hnone, -⟩ | ⟨u, hu⟩
        · rw [view_slot, hnone] at he
          cases he
        · rw [hu] at he
          cases he
          exact absurd rfl hq
    · rw [Table.put_slot_ne _ _ _ hii]
  have hhere : ∀ {i'}, i' < t.capacity → ((H.view t).put i (H.key k) v).Holds (H.key k) i' → i' = i := by
    rintro i' hi' ⟨w, hw⟩
    by_contra hne
    rw [Table.put_slot_ne _ _ _ hne] at hw
    rcases hat with ⟨-, hmiss⟩ | hkey
    · rw [(h.entries (H.key k) w).mpr ⟨i', hi', hw⟩] at hmiss
      cases hmiss
    · exact hne (h.unique _ _ _ hi' hi ⟨w, hw⟩ hkey)
  have hbound : ∀ {q}, (∃ i' < t.capacity, ((H.view t).put i (H.key k) v).Holds q i') ↔
      q = H.key k ∨ q ∈ (H.view t).keys := by
    intro q
    rw [Table.mem_keys]
    by_cases hq : q = H.key k
    · rw [hq]
      exact iff_of_true ⟨i, hi, v, Table.put_slot_self ..⟩ (.inl rfl)
    · rw [or_iff_right hq]
      exact exists_congr fun i' => and_congr_right fun _ => exists_congr fun w => hother hq
  refine ⟨h.power, h.size, fun q i₁ i₂ hi₁ hi₂ h₁ h₂ => ?_, fun q w => ?_, ?_⟩
  · rw [view_put] at h₁ h₂
    by_cases hq : q = H.key k
    · subst hq
      exact (hhere hi₁ h₁).trans (hhere hi₂ h₂).symm
    · obtain ⟨w₁, hw₁⟩ := h₁
      obtain ⟨w₂, hw₂⟩ := h₂
      exact h.unique q i₁ i₂ hi₁ hi₂ ⟨w₁, (hother hq).mp hw₁⟩ ⟨w₂, (hother hq).mp hw₂⟩
  · rw [view_put]
    by_cases hq : q = H.key k
    · rw [hq, update_self, some_inj]
      constructor
      · rintro rfl
        exact ⟨i, hi, Table.put_slot_self ..⟩
      · rintro ⟨i', hi', he⟩
        rw [hhere hi' ⟨w, he⟩, Table.put_slot_self] at he
        cases he
        rfl
    · rw [update_of_ne hq, h.entries]
      exact exists_congr fun i' => and_congr_right fun _ => (hother hq).symm
  · rw [htally, view_put]
    congr 1
    ext q
    rw [Finset.mem_insert]
    exact hbound.symm.trans (Table.mem_keys (t := (H.view t).put i (H.key k) v)).symm

theorem Binds.grow (h : H.Binds t tally m) :
    ∃ t', Table.reprobe H.same H.word t t.capacity (.empty (t.capacity * 2)) = some t' ∧
      t'.capacity = t.capacity * 2 ∧ H.Stores t' tally m := by
  obtain ⟨p, hp⟩ := h.power
  have hdouble : t.capacity * 2 = 2 ^ (p + 1) := by rw [hp, Nat.pow_succ]
  have hsize := h.size
  have hlt : (H.view t).capacity < 2 ^ (p + 1) := by
    show t.capacity < _
    omega
  obtain ⟨grown, hgrown, hcap, hprobed, -, hentries⟩ := Table.reprobe_spec h.unique hlt (H.view t).capacity le_rfl
  rw [← hdouble, ← view_empty, reprobe_view, map_eq_some_iff] at hgrown
  obtain ⟨t', ht', rfl⟩ := hgrown
  have hcap' : t'.capacity = t.capacity * 2 := hcap.trans hdouble.symm
  have hslots : ∀ q v, (∃ i < t'.capacity, (H.view t').slot i = some (q, v)) ↔
      ∃ i < t.capacity, (H.view t).slot i = some (q, v) := by
    intro q v
    rw [hcap', hdouble]
    exact hentries q v
  refine ⟨t', ht', hcap', ⟨⟨p + 1, hcap'.trans hdouble⟩, by omega, hprobed.uniqueKeys,
    fun q v => (h.entries q v).trans (hslots q v).symm, ?_⟩, hprobed⟩
  rw [h.tally]
  congr 1
  ext q
  rw [Table.mem_keys, Table.mem_keys]
  constructor
  · rintro ⟨i, hi, v, hv⟩
    obtain ⟨i', hi', hs⟩ := (hslots q v).mpr ⟨i, hi, hv⟩
    exact ⟨i', hi', v, hs⟩
  · rintro ⟨i, hi, v, hv⟩
    obtain ⟨i', hi', hs⟩ := (hslots q v).mp ⟨i, hi, hv⟩
    exact ⟨i', hi', v, hs⟩

theorem Stores.scan (h : H.Stores t tally m) (hload : tally < t.capacity) (k : K) :
    ∃ i < t.capacity, Table.scan H.same H.word t k = some i ∧ (t.slot i = none ∧ m (H.key k) = none ∧
          (∀ v, H.Stores (t.put i k v) (tally + 1) (Function.update m (H.key k) (some v))) ∨
        ∃ k' v', t.slot i = some (k', v') ∧ H.key k' = H.key k ∧ m (H.key k) = some v' ∧
          ∀ v, H.Stores (t.put i k' v) tally (Function.update m (H.key k) (some v))) := by
  obtain ⟨i, hi, hscan, hat, hput⟩ := h.probed.scan_spec (h.room hload) (H.key k)
  rw [scan_view] at hscan
  refine ⟨i, hi, hscan, ?_⟩
  rcases hat with ⟨hnone, habsent⟩ | hkey
  · have hnot : H.key k ∉ (H.view t).keys := by
      rw [Table.mem_keys]
      rintro ⟨i', hi', hs⟩
      exact habsent i' hi' hs
    have hmiss := h.eq_none_iff.mpr hnot
    have hfree := H.view_slot_eq_none.mp hnone
    refine .inl ⟨hfree, hmiss, fun v => ⟨h.put hi (.inl ⟨hfree, hmiss⟩) ?_, by rw [view_put]; exact hput v⟩⟩
    rw [Finset.card_insert_of_notMem hnot, ← h.tally]
  · obtain ⟨v', hv'⟩ := hkey
    obtain ⟨k', hs, hkk⟩ := H.view_slot_eq_some.mp hv'
    have hm := (h.entries _ v').mpr ⟨i, hi, hv'⟩
    refine .inr ⟨k', v', hs, hkk, hm, fun v => ?_⟩
    rw [← hkk]
    refine ⟨h.put hi (.inr ⟨v', by rw [hkk]; exact hv'⟩) ?_, by rw [view_put, hkk]; exact hput v⟩
    rw [Finset.insert_eq_of_mem (h.mem_keys.mpr ⟨v', by rw [hkk]; exact hm⟩), ← h.tally]

theorem Stores.remove (h : H.Stores t tally m) (hload : tally < t.capacity) {k k' : K} {v' : V}
    (hi : i < t.capacity) (hs : t.slot i = some (k', v')) (hk : H.key k' = H.key k) :
    ∃ t', Table.heal H.same H.word (t.clear i) i = some t' ∧ t'.capacity = t.capacity ∧
      H.Stores t' (tally - 1) (Function.update m (H.key k) none) := by
  have hkey : (H.view t).Holds (H.key k) i := ⟨v', H.view_slot_eq_some.mpr ⟨k', hs, hk⟩⟩
  obtain ⟨u, hheal, hcap, hprobed, hentries⟩ := h.probed.heal (h.room hload) hi hkey
  rw [← view_clear, heal_view, map_eq_some_iff] at hheal
  obtain ⟨t', ht', rfl⟩ := hheal
  have hcap' : t'.capacity = t.capacity := hcap
  have hslots : ∀ q v, (∃ i < t'.capacity, (H.view t').slot i = some (q, v)) ↔
      q ≠ H.key k ∧ ∃ i < t.capacity, (H.view t).slot i = some (q, v) := by
    intro q v
    rw [hcap']
    exact hentries q v
  refine ⟨t', ht', hcap', ⟨hcap' ▸ h.power, hcap' ▸ h.size, hprobed.uniqueKeys, fun q v => ?_, ?_⟩, hprobed⟩
  · rw [hslots, ← h.entries]
    by_cases hq : q = H.key k
    · rw [hq, update_self]
      exact iff_of_false (fun h => nomatch h) fun h => h.1 rfl
    · rw [update_of_ne hq]
      exact (and_iff_right hq).symm
  · have hmem : H.key k ∈ (H.view t).keys := Table.mem_keys.mpr ⟨i, hi, hkey⟩
    have hkeys : (H.view t').keys = (H.view t).keys.erase (H.key k) := by
      ext q
      rw [Finset.mem_erase, Table.mem_keys, Table.mem_keys]
      constructor
      · rintro ⟨i, hi, v, hv⟩
        obtain ⟨hq, i', hi', hs⟩ := (hslots q v).mp ⟨i, hi, hv⟩
        exact ⟨hq, i', hi', v, hs⟩
      · rintro ⟨hq, i, hi, v, hv⟩
        obtain ⟨i', hi', hs⟩ := (hslots q v).mpr ⟨hq, i, hi, hv⟩
        exact ⟨i', hi', v, hs⟩
    rw [hkeys, Finset.card_erase_of_mem hmem, h.tally]

end WinArmVm.Hashing
