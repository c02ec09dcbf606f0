import Mathlib.Data.Finset.Option
import WinArmVm.LinearProbing

namespace LinearProbing.Table

open Nat Option

variable {α β : Type}

def step (t : Table α β) (i : Nat) : Nat := if i + 1 = t.capacity then 0 else i + 1

def clear (t : Table α β) (i : Nat) : Table α β := { t with slot := Function.update t.slot i none }

/-- The first slot from `i` on that is empty or holds the key. -/
def scanFrom (same : α → α → Bool) (t : Table α β) (key : α) : Nat → Nat → Option Nat
  | 0, _ => none
  | fuel + 1, i =>
    match t.slot i with
    | none => some i
    | some (probe, _) => if same probe key then some i else scanFrom same t key fuel (t.step i)

def scan (same : α → α → Bool) (hash : α → Nat) (t : Table α β) (key : α) : Option Nat :=
  scanFrom same t key t.capacity (hash key &&& (t.capacity - 1))

/-- The slots after `i` up to an empty one, each emptied and its entry probed again. -/
def healFrom (same : α → α → Bool) (hash : α → Nat) : Nat → Table α β → Nat → Option (Table α β)
  | 0, _, _ => none
  | fuel + 1, t, i =>
    match t.slot (t.step i) with
    | none => some t
    | some (k, v) =>
      match scan same hash (t.clear (t.step i)) k with
      | none => none
      | some j => healFrom same hash fuel ((t.clear (t.step i)).put j k v) (t.step i)

def heal (same : α → α → Bool) (hash : α → Nat) (t : Table α β) (i : Nat) : Option (Table α β) :=
  healFrom same hash (t.capacity + 1) t i

/-- The slots below `n` of an old table, each entry probed for its place in a fresh one. -/
def reprobe (same : α → α → Bool) (hash : α → Nat) (old : Table α β) : Nat → Table α β → Option (Table α β)
  | 0, fresh => some fresh
  | n + 1, fresh => do
    let grown ← reprobe same hash old n fresh
    match old.slot n with
    | none => pure grown
    | some (k, v) => (scan same hash grown k).map fun j => grown.put j k v

variable (t : Table α β)

theorem put_slot_self (i : Nat) (k : α) (v : β) : (t.put i k v).slot i = some (k, v) := Function.update_self ..

theorem put_slot_ne {i j : Nat} (k : α) (v : β) (h : j ≠ i) : (t.put i k v).slot j = t.slot j :=
  Function.update_of_ne h ..

theorem clear_slot_self (i : Nat) : (t.clear i).slot i = none := Function.update_self ..

theorem clear_slot_ne {i j : Nat} (h : j ≠ i) : (t.clear i).slot j = t.slot j := Function.update_of_ne h ..

/-- The slot that stands at place `c` of the row that ends with slot `e`. -/
def place (n e c : Nat) : Nat := (e + 1 + c) % n

theorem place_inj {n e c c' : Nat} (hc : c < n) (hc' : c' < n) (h : place n e c = place n e c') : c = c' := by
  have hmod : Nat.ModEq n (e + 1 + c) (e + 1 + c') := h
  exact Nat.ModEq.eq_of_lt_of_lt (Nat.ModEq.add_left_cancel' _ hmod) hc hc'

theorem exists_place {n e i : Nat} (he : e < n) (hi : i < n) : ∃ c < n, place n e c = i := by
  refine ⟨(i + (n - 1 - e)) % n, mod_lt _ (by omega), ?_⟩
  unfold place
  rw [add_mod_mod, show e + 1 + (i + (n - 1 - e)) = i + n by omega, add_mod_right, mod_eq_of_lt hi]

theorem place_last {n e : Nat} (he : e < n) : place n e (n - 1) = e := by
  unfold place
  rw [show e + 1 + (n - 1) = e + n by omega, add_mod_right, mod_eq_of_lt he]

theorem place_lt {n e c : Nat} (hn : 0 < n) : place n e c < n := Nat.mod_lt _ hn

variable {t : Table α β} {hash : α → Nat}

theorem step_place {e c : Nat} (hn : 0 < t.capacity) : t.step (place t.capacity e c) = place t.capacity e (c + 1) := by
  have hlt := place_lt (e := e) (c := c) hn
  have hnext : place t.capacity e (c + 1) = (place t.capacity e c + 1) % t.capacity := by
    unfold place
    rw [mod_add_mod]
    rfl
  unfold step
  rw [hnext]
  split
  next h => rw [h, mod_self]
  next h => rw [mod_eq_of_lt (by omega)]

/-- Every entry of the row stands behind entries of other keys only, from its home on. -/
def Settled (hash : α → Nat) (t : Table α β) (e c : Nat) : Prop :=
  ∀ k v, t.slot (place t.capacity e c) = some (k, v) → ∃ h ≤ c, place t.capacity e h = hash k % t.capacity ∧
    ∀ c', h ≤ c' → c' < c → t.HoldsOther k (place t.capacity e c')

theorem Probed.settled (h : t.Probed hash) {e : Nat} (he : e < t.capacity)
    (hempty : t.slot e = none) {c : Nat} (hc : c < t.capacity) : t.Settled hash e c := by
  intro k v hs
  have hn := h.capacity_pos
  obtain ⟨j, hj, hpos, past⟩ := h.path _ k (place_lt hn) ⟨v, hs⟩
  obtain ⟨home, hhome, hplace⟩ := exists_place (i := hash k % t.capacity) he (mod_lt _ hn)
  have hwalk : ∀ j', t.pos hash k j' = place t.capacity e (home + j') := by
    intro j'
    unfold pos place
    rw [← mod_add_mod, ← hplace, place, mod_add_mod]
    congr 1
    omega
  have hstraight : home + j < t.capacity := by
    by_contra hwrap
    obtain ⟨k', v', hs', -⟩ := past (t.capacity - 1 - home) (by omega)
    rw [hwalk, show home + (t.capacity - 1 - home) = t.capacity - 1 by omega, place_last he, hempty] at hs'
    cases hs'
  have hcj : c = home + j := place_inj hc hstraight (by rw [← hwalk, hpos])
  refine ⟨home, by omega, hplace, fun c' hlow hhigh => ?_⟩
  have := past (c' - home) (by omega)
  rw [hwalk, show home + (c' - home) = c' by omega] at this
  exact this

theorem probed_of_settled {e : Nat} (hpower : ∃ p, t.capacity = 2 ^ p)
    (he : e < t.capacity) (h : ∀ c < t.capacity, t.Settled hash e c) : t.Probed hash := by
  refine ⟨hpower, fun i k hi ⟨v, hs⟩ => ?_⟩
  obtain ⟨c, hc, rfl⟩ := exists_place he hi
  obtain ⟨home, hhome, hplace, past⟩ := h c hc k v hs
  have hwalk : ∀ j', t.pos hash k j' = place t.capacity e (home + j') := by
    intro j'
    unfold pos place
    rw [← mod_add_mod, ← hplace, place, mod_add_mod]
    congr 1
    omega
  refine ⟨c - home, by omega, ?_, fun j' hj' => ?_⟩
  · rw [hwalk, show home + (c - home) = c by omega]
  · rw [hwalk]
    exact past _ (by omega) (by omega)

section Scan

variable [DecidableEq α]

variable {t : Table α β} {hash : α → Nat} {key : α}

theorem scanFrom_place {e home c : Nat} (hn : 0 < t.capacity)
    (past : ∀ c', home ≤ c' → c' < c → t.HoldsOther key (place t.capacity e c'))
    (hstop : t.slot (place t.capacity e c) = none ∨ t.Holds key (place t.capacity e c)) (hle : home ≤ c)
    {fuel : Nat} (hfuel : c - home < fuel) :
    scanFrom (fun a b => decide (a = b)) t key fuel (place t.capacity e home) = some (place t.capacity e c) := by
  induction fuel generalizing home with
  | zero => omega
  | succ fuel ih =>
    unfold scanFrom
    by_cases hhere : home = c
    · subst hhere
      rcases hstop with hnone | ⟨v, hv⟩
      · rw [hnone]
      · rw [hv]
        simp
    · obtain ⟨k, v, hs, hne⟩ := past home (le_refl _) (by omega)
      rw [hs]
      simp only [decide_eq_true_eq, if_neg hne]
      rw [step_place hn]
      exact ih (fun c' hlow hhigh => past c' (by omega) hhigh) (by omega) (by omega)

theorem scan_place {t : Table α β} {hash : α → Nat} {key : α} {e home c : Nat} (hpower : ∃ p, t.capacity = 2 ^ p)
    (hhome : place t.capacity e home = hash key % t.capacity)
    (past : ∀ c', home ≤ c' → c' < c → t.HoldsOther key (place t.capacity e c'))
    (hstop : t.slot (place t.capacity e c) = none ∨ t.Holds key (place t.capacity e c)) (hle : home ≤ c)
    (hc : c < t.capacity) :
    scan (fun a b => decide (a = b)) hash t key = some (place t.capacity e c) := by
  have hmask : hash key &&& (t.capacity - 1) = place t.capacity e home := by
    obtain ⟨p, hp⟩ := hpower
    rw [hhome, hp, and_two_pow_sub_one_eq_mod]
  unfold scan
  rw [hmask]
  exact scanFrom_place (by omega) past hstop hle (by omega)

theorem Probed.scan_eq (h : t.Probed hash) {j : Nat} (hj : j < t.capacity)
    (hstop : t.slot (t.pos hash key j) = none ∨ t.Holds key (t.pos hash key j))
    (past : ∀ j' < j, t.HoldsOther key (t.pos hash key j')) :
    scan (fun a b => decide (a = b)) hash t key = some (t.pos hash key j) := by
  have hn := h.capacity_pos
  have hwalk : ∀ j', t.pos hash key j' = place t.capacity (hash key + t.capacity - 1) j' := by
    intro j'
    unfold pos place
    rw [show hash key + t.capacity - 1 + 1 + j' = hash key + j' + t.capacity by omega, add_mod_right]
  rw [hwalk] at hstop ⊢
  apply @scan_place _ _ _ _ _ _ _ 0 _ h.power (by rw [← hwalk]; rfl) (fun c' _ hc' => ?_) hstop (zero_le _) hj
  rw [← hwalk]
  exact past c' hc'

omit [DecidableEq α] in
theorem not_holds_of_stop {t : Table α β} {hash : α → Nat} (h : t.Probed hash) {key : α} {j : Nat} (hj : j < t.capacity)
    (hnone : t.slot (t.pos hash key j) = none) (past : ∀ j' < j, t.HoldsOther key (t.pos hash key j')) :
    ∀ i < t.capacity, ¬ t.Holds key i := by
  rintro i hi ⟨v, hv⟩
  obtain ⟨j₁, hj₁, rfl, past₁⟩ := h.path i key hi ⟨v, hv⟩
  rcases lt_trichotomy j₁ j with hlt | rfl | hlt
  · obtain ⟨k, w, hw, hne⟩ := past j₁ hlt
    rw [hv] at hw
    cases hw
    exact hne rfl
  · rw [hnone] at hv
    cases hv
  · obtain ⟨k, w, hw, -⟩ := past₁ j hlt
    rw [hnone] at hw
    cases hw

theorem Probed.scan_spec (h : t.Probed hash) (room : ∃ e < t.capacity, t.slot e = none)
    (key : α) : ∃ i < t.capacity, scan (fun a b => decide (a = b)) hash t key = some i ∧
      (t.slot i = none ∧ (∀ i' < t.capacity, ¬ t.Holds key i') ∨ t.Holds key i) ∧
      ∀ v, (t.put i key v).Probed hash := by
  obtain ⟨j, hj, hstop, past⟩ := h.stop room key
  refine ⟨_, h.pos_lt key j, h.scan_eq hj hstop past, ?_, fun v => h.put_path hstop ⟨j, hj, rfl, past⟩⟩
  rcases hstop with hnone | hkey
  · exact .inl ⟨hnone, not_holds_of_stop h hj hnone past⟩
  · exact .inr hkey

end Scan

/-- Taking `key` out, healed up to place `c` of the row that ends with slot `e`: the places behind
are as they were, and the entries are those of the other keys. -/
structure Healing (hash : α → Nat) (old t : Table α β) (key : α) (e c : Nat) : Prop where
  capacity : t.capacity = old.capacity
  ahead : ∀ i, c < i → i < old.capacity → t.slot (place old.capacity e i) = old.slot (place old.capacity e i)
  settled : ∀ i ≤ c, t.Settled hash e i
  entries : ∀ k v, (∃ i < old.capacity, t.slot i = some (k, v)) ↔ k ≠ key ∧ ∃ i < old.capacity, old.slot i = some (k, v)
  unique : ∀ k i i', i < old.capacity → i' < old.capacity → t.Holds k i → t.Holds k i' → i = i'

theorem Probed.healing (h : t.Probed hash) {e c : Nat} (he : e < t.capacity)
    (hempty : t.slot e = none) (hc : c < t.capacity) {key : α} (hkey : t.Holds key (place t.capacity e c)) :
    Healing hash t (t.clear (place t.capacity e c)) key e c := by
  have hn := h.capacity_pos
  refine ⟨rfl, fun i hi hlt => ?_, fun i hi => ?_, fun k v => ⟨?_, ?_⟩, ?_⟩
  · exact clear_slot_ne t fun heq => by have := place_inj hlt hc heq; omega
  · intro k v hs
    by_cases hic : i = c
    · subst hic
      have hgone : (t.clear (place t.capacity e i)).slot (place t.capacity e i) = none := clear_slot_self ..
      have hs' : (t.clear (place t.capacity e i)).slot (place t.capacity e i) = some (k, v) := hs
      rw [hgone] at hs'
      cases hs'
    · have hne : ∀ j < c, place t.capacity e j ≠ place t.capacity e c := fun j hj heq => by
        have := place_inj (by omega) hc heq
        omega
      have hs' : t.slot (place t.capacity e i) = some (k, v) := (clear_slot_ne t (hne i (by omega))).symm.trans hs
      obtain ⟨home, hhome, hplace, past⟩ := h.settled he hempty (by omega) k v hs'
      refine ⟨home, hhome, hplace, fun c' hlow hhigh => ?_⟩
      obtain ⟨k', v', hk', hother⟩ := past c' hlow hhigh
      exact ⟨k', v', (clear_slot_ne t (hne c' (by omega))).trans hk', hother⟩
  · rintro ⟨i, hi, hs⟩
    have hne : i ≠ place t.capacity e c := by
      rintro rfl
      rw [clear_slot_self] at hs
      cases hs
    rw [clear_slot_ne t hne] at hs
    refine ⟨?_, i, hi, hs⟩
    rintro rfl
    exact hne (h.holds_unique hi (place_lt hn) ⟨v, hs⟩ hkey)
  · rintro ⟨hne, i, hi, hs⟩
    refine ⟨i, hi, ?_⟩
    rw [clear_slot_ne t ?_]
    · exact hs
    · rintro rfl
      obtain ⟨w, hw⟩ := hkey
      rw [hs] at hw
      exact hne (Prod.mk.inj (Option.some.inj hw)).1
  · have hsub : ∀ {k i}, (t.clear (place t.capacity e c)).Holds k i → t.Holds k i := by
      intro k i ⟨v, hv⟩
      have hne : i ≠ place t.capacity e c := by
        rintro rfl
        rw [clear_slot_self] at hv
        cases hv
      exact ⟨v, (clear_slot_ne t hne).symm.trans hv⟩
    exact fun k i i' hi hi' hk hk' => h.holds_unique hi hi' (hsub hk) (hsub hk')

section Heal

variable [DecidableEq α]

variable {hash : α → Nat} {key : α}

theorem Healing.turn {old t : Table α β} {key k : α} {v : β} {e c : Nat} (hold : old.Probed hash)
    (he : e < old.capacity) (hempty : old.slot e = none) (h : Healing hash old t key e c) (hc : c + 1 < old.capacity)
    (hs : t.slot (place old.capacity e (c + 1)) = some (k, v)) :
    ∃ j, scan (fun a b => decide (a = b)) hash (t.clear (place old.capacity e (c + 1))) k = some j ∧
      Healing hash old ((t.clear (place old.capacity e (c + 1))).put j k v) key e (c + 1) := by
  classical
  have hn := hold.capacity_pos
  have hcap := h.capacity
  have hne : ∀ {i i' : Nat}, i < old.capacity → i' < old.capacity → i ≠ i' →
      place old.capacity e i ≠ place old.capacity e i' := fun hi hi' hd heq => hd (place_inj hi hi' heq)
  have hsold : old.slot (place old.capacity e (c + 1)) = some (k, v) := (h.ahead _ (by omega) hc).symm.trans hs
  obtain ⟨home, hhome, hplace, -⟩ := hold.settled he hempty hc k v hsold
  have hex : ∃ m, (t.clear (place old.capacity e (c + 1))).slot (place old.capacity e (home + m)) = none :=
    ⟨c + 1 - home, by rw [show home + (c + 1 - home) = c + 1 by omega]; exact clear_slot_self ..⟩
  obtain ⟨j, hjlow, hjnone, hjpast, hjle⟩ : ∃ j, home ≤ j ∧
      (t.clear (place old.capacity e (c + 1))).slot (place old.capacity e j) = none ∧
      (∀ c', home ≤ c' → c' < j →
        (t.clear (place old.capacity e (c + 1))).slot (place old.capacity e c') ≠ none) ∧ j ≤ c + 1 := by
    refine ⟨home + Nat.find hex, by omega, Nat.find_spec hex, fun c' hlow hhigh hnone => ?_, ?_⟩
    · apply Nat.find_min hex (m := c' - home) (by omega)
      rw [show home + (c' - home) = c' by omega]
      exact hnone
    · have := Nat.find_min' hex (m := c + 1 - home)
        (by rw [show home + (c + 1 - home) = c + 1 by omega]; exact clear_slot_self ..)
      omega
  -- No other place holds the key.
  have hothers : ∀ i, i < old.capacity → i ≠ c + 1 → ∀ k' v', t.slot (place old.capacity e i) = some (k', v') → k' ≠ k := by
    rintro i hi hd k' v' hk' rfl
    exact hne hi hc hd (h.unique _ _ _ (place_lt hn) (place_lt hn) ⟨v', hk'⟩ ⟨v, hs⟩)
  have hclear : ∀ i, i < old.capacity → i ≠ c + 1 →
      (t.clear (place old.capacity e (c + 1))).slot (place old.capacity e i) = t.slot (place old.capacity e i) :=
    fun i hi hd => clear_slot_ne t (hne hi hc hd)
  have past : ∀ c', home ≤ c' → c' < j →
      (t.clear (place old.capacity e (c + 1))).HoldsOther k (place old.capacity e c') := by
    intro c' hlow hhigh
    obtain ⟨⟨k', v'⟩, hk'⟩ := ne_none_iff_exists'.mp (hjpast c' hlow hhigh)
    have hk := hk'
    rw [hclear c' (by omega) (by omega)] at hk
    exact ⟨k', v', hk', hothers c' (by omega) (by omega) k' v' hk⟩
  have hscan : scan (fun a b => decide (a = b)) hash (t.clear (place old.capacity e (c + 1))) k =
      some (place old.capacity e j) := by
    have hclearcap : (t.clear (place old.capacity e (c + 1))).capacity = old.capacity := hcap
    have := @scan_place _ _ _ (t.clear (place old.capacity e (c + 1))) hash k e home j
      (by rw [hclearcap]; exact hold.power) (by rw [hclearcap]; exact hplace)
      (by rw [hclearcap]; exact past) (by rw [hclearcap]; exact .inl hjnone) hjlow (by rw [hclearcap]; omega)
    rw [hclearcap] at this
    exact this
  generalize hu : t.clear (place old.capacity e (c + 1)) = u at *
  have hucap : u.capacity = old.capacity := by rw [← hu]; exact hcap
  have hput : ∀ i, i < old.capacity → i ≠ j → (u.put (place old.capacity e j) k v).slot (place old.capacity e i) =
      u.slot (place old.capacity e i) := fun i hi hd => put_slot_ne u k v (hne hi (by omega) hd)
  refine ⟨_, hscan, ⟨hucap, fun i hi hlt => ?_, fun i hi => ?_, fun k' v' => ⟨?_, ?_⟩, ?_⟩⟩
  · rw [hput i hlt (by omega), hclear i hlt (by omega)]
    exact h.ahead i (by omega) hlt
  · intro k' v' hk'
    have hk'' : (u.put (place old.capacity e j) k v).slot (place old.capacity e i) = some (k', v') := by
      rw [← hucap]
      rw [← hucap] at hk'
      exact hk'
    show ∃ h ≤ i, place u.capacity e h = hash k' % u.capacity ∧ ∀ c', h ≤ c' → c' < i →
      (u.put (place old.capacity e j) k v).HoldsOther k' (place u.capacity e c')
    rw [hucap]
    by_cases hij : i = j
    · subst hij
      rw [put_slot_self] at hk''
      cases hk''
      refine ⟨home, hjlow, hplace, fun c' hlow hhigh => ?_⟩
      obtain ⟨k₁, v₁, hk₁, hother⟩ := past c' hlow hhigh
      exact ⟨k₁, v₁, (hput c' (by omega) (by omega)).trans hk₁, hother⟩
    · rw [hput i (by omega) hij] at hk''
      by_cases hic : i = c + 1
      · subst hic
        rw [← hu, clear_slot_self] at hk''
        cases hk''
      · rw [hclear i (by omega) hic] at hk''
        obtain ⟨h', hh', hp', past'⟩ := h.settled i (by omega) k' v' (by rw [hcap]; exact hk'')
        rw [hcap] at hp' past'
        refine ⟨h', hh', hp', fun c' hlow hhigh => ?_⟩
        by_cases hcj : c' = j
        · subst hcj
          exact ⟨k, v, put_slot_self .., (hothers i (by omega) hic k' v' hk'').symm⟩
        · obtain ⟨k₁, v₁, hk₁, hother⟩ := past' c' hlow hhigh
          exact ⟨k₁, v₁, (hput c' (by omega) hcj).trans ((hclear c' (by omega) (by omega)).trans hk₁), hother⟩
  · rintro ⟨i, hi, hk'⟩
    apply (h.entries k' v').mp
    obtain ⟨c', hc', rfl⟩ := exists_place he hi
    by_cases hcj : c' = j
    · subst hcj
      rw [put_slot_self] at hk'
      cases hk'
      exact ⟨_, place_lt hn, hs⟩
    · rw [hput c' hc' hcj] at hk'
      by_cases hcc : c' = c + 1
      · subst hcc
        rw [← hu, clear_slot_self] at hk'
        cases hk'
      · exact ⟨_, hi, (hclear c' hc' hcc).symm.trans hk'⟩
  · intro hkeep
    obtain ⟨i, hi, hk'⟩ := (h.entries k' v').mpr hkeep
    obtain ⟨c', hc', rfl⟩ := exists_place he hi
    by_cases hcc : c' = c + 1
    · subst hcc
      rw [hs] at hk'
      cases hk'
      exact ⟨_, place_lt hn, put_slot_self ..⟩
    · have hcj : c' ≠ j := by
        rintro rfl
        rw [hclear c' hc' hcc, hk'] at hjnone
        cases hjnone
      exact ⟨_, hi, (hput c' hc' hcj).trans ((hclear c' hc' hcc).trans hk')⟩
  · -- Each key of the new table stands where it stood, `k` alone at its new place.
    have hwhere : ∀ k' c', c' < old.capacity → (u.put (place old.capacity e j) k v).Holds k' (place old.capacity e c') →
        (k' = k ∧ c' = j) ∨ (k' ≠ k ∧ t.Holds k' (place old.capacity e c')) := by
      rintro k' c' hc' ⟨v', hk'⟩
      by_cases hcj : c' = j
      · subst hcj
        rw [put_slot_self] at hk'
        cases hk'
        exact .inl ⟨rfl, rfl⟩
      · rw [hput c' hc' hcj] at hk'
        have hcc : c' ≠ c + 1 := by
          rintro rfl
          rw [← hu, clear_slot_self] at hk'
          cases hk'
        rw [hclear c' hc' hcc] at hk'
        exact .inr ⟨hothers c' hc' hcc k' v' hk', v', hk'⟩
    intro k' i i' hi hi' hk hk'
    obtain ⟨c₁, hc₁, rfl⟩ := exists_place he hi
    obtain ⟨c₂, hc₂, rfl⟩ := exists_place he hi'
    rcases hwhere k' c₁ hc₁ hk with ⟨rfl, rfl⟩ | ⟨hk₁, hold₁⟩
    · rcases hwhere _ c₂ hc₂ hk' with ⟨-, rfl⟩ | ⟨hk₂, -⟩
      · rfl
      · exact absurd rfl hk₂
    · rcases hwhere _ c₂ hc₂ hk' with ⟨rfl, -⟩ | ⟨-, hold₂⟩
      · exact absurd rfl hk₁
      · exact h.unique _ _ _ hi hi' hold₁ hold₂

structure Without (hash : α → Nat) (old t : Table α β) (key : α) : Prop where
  capacity : t.capacity = old.capacity
  probed : t.Probed hash
  entries : ∀ k v, (∃ i < old.capacity, t.slot i = some (k, v)) ↔ k ≠ key ∧ ∃ i < old.capacity, old.slot i = some (k, v)

theorem Healing.run {old : Table α β} {e : Nat} (hold : old.Probed hash)
    (he : e < old.capacity) (hempty : old.slot e = none) : ∀ (fuel c : Nat) (t : Table α β),
    Healing hash old t key e c → c + 1 < old.capacity → old.capacity < c + fuel →
      ∃ t', healFrom (fun a b => decide (a = b)) hash fuel t (place old.capacity e c) = some t' ∧
        Without hash old t' key := by
  intro fuel
  induction fuel with
  | zero =>
    intro c t _ hc hfuel
    omega
  | succ fuel ih =>
    intro c t h hc hfuel
    have hstep : t.step (place old.capacity e c) = place old.capacity e (c + 1) := by
      have := step_place (t := t) (e := e) (c := c) (by rw [h.capacity]; omega)
      rw [h.capacity] at this
      exact this
    unfold healFrom
    rw [hstep]
    cases hs : t.slot (place old.capacity e (c + 1)) with
    | none =>
      refine ⟨t, rfl, h.capacity, ?_, h.entries⟩
      apply probed_of_settled (e := e) (by rw [h.capacity]; exact hold.power) (by rw [h.capacity]; exact he)
      intro i hi
      rw [h.capacity] at hi
      by_cases hic : i ≤ c
      · exact h.settled i hic
      · intro k v hk
        rw [h.capacity] at hk ⊢
        have hgap : old.slot (place old.capacity e (c + 1)) = none := (h.ahead _ (by omega) hc).symm.trans hs
        have hkold := hk
        rw [h.ahead i (by omega) hi] at hkold
        obtain ⟨home, hhome, hplace, past⟩ := hold.settled he hempty hi k v hkold
        have hbehind : c + 1 < home := by
          by_contra hfront
          have hci : c + 1 ≠ i := by
            rintro rfl
            rw [hgap] at hkold
            cases hkold
          obtain ⟨k', v', hk', -⟩ := past (c + 1) (by omega) (by omega)
          rw [hgap] at hk'
          cases hk'
        refine ⟨home, hhome, hplace, fun c' hlow hhigh => ?_⟩
        obtain ⟨k', v', hk', hother⟩ := past c' hlow hhigh
        exact ⟨k', v', (h.ahead c' (by omega) (by omega)).trans hk', hother⟩
    | some kv =>
      obtain ⟨k, v⟩ := kv
      obtain ⟨j, hscan, hnext⟩ := h.turn hold he hempty hc hs
      have hroom : c + 1 + 1 < old.capacity := by
        by_contra hend
        have hlast := place_last he
        rw [show old.capacity - 1 = c + 1 by omega] at hlast
        have := (h.ahead _ (by omega) hc).symm.trans hs
        rw [hlast, hempty] at this
        cases this
      dsimp only
      rw [hscan]
      exact ih (c + 1) _ hnext hroom (by omega)

theorem Probed.heal {t : Table α β} (h : t.Probed hash) (room : ∃ e < t.capacity, t.slot e = none)
    {i : Nat} (hi : i < t.capacity) (hkey : t.Holds key i) :
    ∃ t', Table.heal (fun a b => decide (a = b)) hash (t.clear i) i = some t' ∧ Without hash t t' key := by
  obtain ⟨e, he, hempty⟩ := room
  obtain ⟨c, hc, rfl⟩ := exists_place he hi
  have hinner : c + 1 < t.capacity := by
    by_contra hend
    have hlast := place_last he
    rw [show t.capacity - 1 = c by omega] at hlast
    obtain ⟨v, hv⟩ := hkey
    rw [hlast, hempty] at hv
    cases hv
  exact Healing.run h he hempty (t.capacity + 1) c _ (h.healing he hempty hc hkey) hinner (by omega)

end Heal

section Keys

variable [DecidableEq α]

def keyAt (t : Table α β) (i : Nat) : Option α := (t.slot i).map Prod.fst

def keys (t : Table α β) : Finset α := ((Finset.range t.capacity).image t.keyAt).eraseNone

theorem mem_keys {t : Table α β} {k : α} : k ∈ t.keys ↔ ∃ i < t.capacity, t.Holds k i := by
  unfold keys
  rw [Finset.mem_eraseNone, Finset.mem_image]
  constructor
  · rintro ⟨i, hi, hk⟩
    obtain ⟨⟨k', v⟩, hs, rfl⟩ := map_eq_some_iff.mp hk
    exact ⟨i, Finset.mem_range.mp hi, v, hs⟩
  · rintro ⟨i, hi, v, hs⟩
    refine ⟨i, Finset.mem_range.mpr hi, ?_⟩
    unfold keyAt
    rw [hs]
    rfl

def UniqueKeys (t : Table α β) : Prop :=
  ∀ k i i', i < t.capacity → i' < t.capacity → t.Holds k i → t.Holds k i' → i = i'

omit [DecidableEq α] in
theorem Probed.uniqueKeys {t : Table α β} {hash : α → Nat} (h : t.Probed hash) : t.UniqueKeys :=
  fun _ _ _ hi hi' => h.holds_unique hi hi'

theorem Probed.card_keys {t : Table α β} {hash : α → Nat} (h : t.Probed hash) : t.keys.card = t.occupied :=
  (h.occupied_eq_card fun _ => mem_keys).symm

theorem empty_keys (n : Nat) : (empty n : Table α β).keys = ∅ := by
  refine Finset.eq_empty_of_forall_notMem fun k hk => ?_
  obtain ⟨i, _, v, hv⟩ := mem_keys.mp hk
  cases hv

omit [DecidableEq α] in
theorem reprobe_keys {hash : α → Nat} {same : α → α → Bool} {old fresh grown : Table α β} {n : Nat}
    (h : reprobe same hash old n fresh = some grown) :
    grown.capacity = fresh.capacity ∧ ∀ k, (∃ i, grown.Holds k i) → (∃ i, fresh.Holds k i) ∨ ∃ i < n, old.Holds k i := by
  induction n generalizing grown with
  | zero =>
    cases h
    exact ⟨rfl, fun _ hk => .inl hk⟩
  | succ n ih =>
    obtain ⟨g, hg, h⟩ := bind_eq_some_iff.mp h
    obtain ⟨hcap, hkeys⟩ := ih hg
    have hless : ∀ k, (∃ i, g.Holds k i) → (∃ i, fresh.Holds k i) ∨ ∃ i < n + 1, old.Holds k i := by
      intro k hk
      rcases hkeys k hk with hf | ⟨i, hi, ho⟩
      · exact .inl hf
      · exact .inr ⟨i, by omega, ho⟩
    split at h
    next =>
      cases h
      exact ⟨hcap, hless⟩
    next k' v' hs =>
      obtain ⟨j, _, rfl⟩ := map_eq_some_iff.mp h
      refine ⟨hcap, fun k ⟨i, w, hw⟩ => ?_⟩
      by_cases hij : i = j
      · subst hij
        rw [put_slot_self] at hw
        cases hw
        exact .inr ⟨n, by omega, _, hs⟩
      · rw [put_slot_ne g _ _ hij] at hw
        exact hless k ⟨i, w, hw⟩

theorem reprobe_spec {hash : α → Nat} {old : Table α β} (hunique : old.UniqueKeys) {p : Nat} (hp : old.capacity < 2 ^ p) :
    ∀ n ≤ old.capacity, ∃ grown, reprobe (fun a b => decide (a = b)) hash old n (.empty (2 ^ p)) = some grown ∧
      grown.capacity = 2 ^ p ∧ grown.Probed hash ∧ grown.occupied ≤ n ∧
      ∀ k v, (∃ i < 2 ^ p, grown.slot i = some (k, v)) ↔ ∃ i < n, old.slot i = some (k, v) := by
  intro n
  induction n with
  | zero =>
    refine fun _ => ⟨_, rfl, rfl, empty_probed p hash, (empty_occupied _).le, fun k v => ⟨?_, ?_⟩⟩
    · rintro ⟨i, _, hv⟩
      cases hv
    · rintro ⟨i, hi, _⟩
      omega
  | succ n ih =>
    intro hn
    obtain ⟨grown, hg, hcap, hprobed, hocc, hentries⟩ := ih (by omega)
    unfold reprobe
    rw [hg]
    cases hs : old.slot n with
    | none =>
      refine ⟨grown, rfl, hcap, hprobed, by omega, fun k v => (hentries k v).trans ⟨?_, ?_⟩⟩
      · rintro ⟨i, hi, hv⟩
        exact ⟨i, by omega, hv⟩
      · rintro ⟨i, hi, hv⟩
        have hin : i ≠ n := by
          rintro rfl
          rw [hs] at hv
          cases hv
        exact ⟨i, by omega, hv⟩
    | some kv =>
      obtain ⟨k, v⟩ := kv
      have hroom : ∃ i < grown.capacity, grown.slot i = none := exists_free_of_occupied_lt (by omega)
      have habsent : ∀ i < grown.capacity, ¬ grown.Holds k i := by
        rintro i hi ⟨w, hw⟩
        obtain ⟨i', hi', hold⟩ := (hentries k w).mp ⟨i, by omega, hw⟩
        have := hunique k i' n (by omega) (by omega) ⟨w, hold⟩ ⟨v, hs⟩
        omega
      obtain ⟨j, hj, hstop, past⟩ := hprobed.stop hroom k
      have hjlt := hprobed.pos_lt k j
      have hfree := hstop.resolve_right (habsent _ hjlt)
      refine ⟨grown.put (grown.pos hash k j) k v, ?_, hcap, ?_, ?_, fun k' v' => ⟨?_, ?_⟩⟩
      · show (scan _ hash grown k).map _ = _
        rw [hprobed.scan_eq hj hstop past]
        rfl
      · exact hprobed.put_path (.inl hfree) ⟨j, hj, rfl, past⟩
      · rw [occupied_put_free hjlt hfree]
        omega
      · rintro ⟨i, hi, hv⟩
        by_cases hij : i = grown.pos hash k j
        · subst hij
          rw [put_slot_self] at hv
          cases hv
          exact ⟨n, by omega, hs⟩
        · rw [put_slot_ne grown k v hij] at hv
          obtain ⟨i', hi', ho⟩ := (hentries k' v').mp ⟨i, hi, hv⟩
          exact ⟨i', by omega, ho⟩
      · rintro ⟨i, hi, ho⟩
        by_cases hin : i = n
        · subst hin
          rw [hs] at ho
          cases ho
          exact ⟨_, by rw [← hcap]; exact hjlt, put_slot_self ..⟩
        · obtain ⟨i', hi', hv⟩ := (hentries k' v').mpr ⟨i, by omega, ho⟩
          refine ⟨i', hi', ?_⟩
          rw [put_slot_ne grown k v]
          · exact hv
          · rintro rfl
            rw [hfree] at hv
            cases hv

end Keys

end LinearProbing.Table
