import WinArmVm.ImageHistory

namespace WinArmVm.ImageStore

open List

namespace Store

def loadSequence (s : Store) : List ClassRow := s.classes.insertionSort fun c c' => c.loadOrder ≤ c'.loadOrder

def withLoadOrders (s : Store) (order : ClassRow → Int) : Store :=
  { s with classes := s.classes.map fun c => { c with loadOrder := order c } }

def rank (s : Store) (c : ClassRow) : Nat := s.classes.countP fun c' => c'.loadOrder < c.loadOrder

structure Ordered (s : Store) : Prop where
  classIds : (s.classes.map ClassRow.classId).Nodup
  loadOrders : (s.classes.map ClassRow.loadOrder).Nodup

end Store

def cleanOrder (i : Nat) : Int := LOAD_ORDER_START + i * LOAD_ORDER_STEP

def updateLoadOrder (classId : Nat) (newOrder : Int) : Db Unit := fun s =>
  if s.classes.any fun c => c.classId ≠ classId ∧ c.loadOrder = newOrder then (.error .unique, s)
  else (.ok (), s.withLoadOrders fun c => if c.classId = classId then newOrder else c.loadOrder)

def renumber : Nat → List Nat → Db Unit
  | _, [] => pure ()
  | i, classId :: ids => do
    updateLoadOrder classId (cleanOrder i)
    renumber (i + 1) ids

def rebalanceLoadOrder : Db Unit := do
  let ids ← select fun s => s.loadSequence.map ClassRow.classId
  renumber 0 ids

namespace Store

variable {s t : Store}

/-- Renumbering succeeds and keeps the sequence, on clean orders; a failure changes nothing. -/
def Rebalances (s : Store) : Prop := rebalanceLoadOrder s = (.ok (), s.withLoadOrders fun c => cleanOrder (s.rank c)) ∧
    ∀ e t, rebalanceLoadOrder s = (.error e, t) → t = s

theorem rank_loadSequence (s : Store) (c : ClassRow) :
    s.rank c = s.loadSequence.countP fun c' => c'.loadOrder < c.loadOrder :=
  ((perm_insertionSort _ _).countP_eq _).symm

variable {c : ClassRow}

theorem mem_loadSequence : c ∈ s.loadSequence ↔ c ∈ s.classes := List.mem_insertionSort _

theorem loadSequence_sorted (h : s.Ordered) : s.loadSequence.Pairwise fun c c' => c.loadOrder < c'.loadOrder := by
  have hle : s.loadSequence.Pairwise fun c c' => c.loadOrder ≤ c'.loadOrder :=
    pairwise_insertionSort (fun c c' : ClassRow => c.loadOrder ≤ c'.loadOrder) _
  have hne : s.loadSequence.Pairwise fun c c' => c.loadOrder ≠ c'.loadOrder := by
    have hperm := (perm_insertionSort (fun c c' : ClassRow => c.loadOrder ≤ c'.loadOrder) s.classes).map ClassRow.loadOrder
    exact pairwise_map.mp (hperm.nodup_iff.mpr h.loadOrders)
  exact hle.imp₂ (fun _ _ h₁ h₂ => lt_of_le_of_ne h₁ h₂) hne

variable {l l' : List ClassRow} {c c' : ClassRow}

theorem countP_eq_of_sorted (h : (l ++ c :: l').Pairwise fun c c' => c.loadOrder < c'.loadOrder) :
    (l ++ c :: l').countP (fun c' => c'.loadOrder < c.loadOrder) = l.length := by
  obtain ⟨_, hright, hcross⟩ := pairwise_append.mp h
  have hleft : l.countP (fun c' => c'.loadOrder < c.loadOrder) = l.length :=
    countP_eq_length.mpr fun c' hc' => decide_eq_true (hcross c' hc' c mem_cons_self)
  have hrest : (c :: l').countP (fun c' => c'.loadOrder < c.loadOrder) = 0 := by
    apply countP_eq_zero.mpr
    intro c' hc'
    have hle : c.loadOrder ≤ c'.loadOrder := by
      rcases mem_cons.mp hc' with rfl | hc'
      · exact le_rfl
      · exact le_of_lt ((pairwise_cons.mp hright).1 c' hc')
    simpa using hle
  rw [countP_append, hleft, hrest, Nat.add_zero]

theorem cleanOrder_injective {i j : Nat} (h : cleanOrder i = cleanOrder j) : i = j := by
  unfold cleanOrder LOAD_ORDER_STEP at h
  omega

def renumbered (s : Store) (i : Nat) : Store :=
  s.withLoadOrders fun c => if s.rank c < i then cleanOrder (s.rank c) else c.loadOrder

theorem classId_inj (h : s.Ordered) (hc : c ∈ s.classes) (hc' : c' ∈ s.classes)
    (heq : c.classId = c'.classId) : c = c' :=
  inj_on_of_nodup_map h.classIds hc hc' heq

theorem rank_append (h : s.Ordered) (hl : s.loadSequence = l ++ c :: l') : s.rank c = l.length := by
  have hsorted := loadSequence_sorted h
  rw [hl] at hsorted
  rw [rank_loadSequence, hl]
  exact countP_eq_of_sorted hsorted

theorem rank_inj (h : s.Ordered) (hc : c ∈ s.classes) (hc' : c' ∈ s.classes) (heq : s.rank c = s.rank c') : c = c' := by
  obtain ⟨l, r, hl⟩ := append_of_mem (mem_loadSequence.mpr hc)
  obtain ⟨l', r', hl'⟩ := append_of_mem (mem_loadSequence.mpr hc')
  rw [rank_append h hl, rank_append h hl'] at heq
  have hcat := hl.symm.trans hl'
  obtain ⟨_, hcons⟩ := append_inj hcat heq
  exact (List.cons.inj hcons).1

def Free (s : Store) (i : Nat) : Prop := ∀ c ∈ s.classes, i < s.rank c → c.loadOrder ≠ cleanOrder i

theorem updateLoadOrder_free (h : s.Ordered) (hc : c ∈ s.classes) (hfree : s.Free (s.rank c)) :
    updateLoadOrder c.classId (cleanOrder (s.rank c)) (s.renumbered (s.rank c)) =
      (.ok (), s.renumbered (s.rank c + 1)) := by
  have hnone : ¬ ((s.renumbered (s.rank c)).classes.any fun c' =>
      c'.classId ≠ c.classId ∧ c'.loadOrder = cleanOrder (s.rank c)) = true := by
    intro hany
    obtain ⟨_, hmem, hclash⟩ := any_eq_true.mp hany
    obtain ⟨c', hc', rfl⟩ := mem_map.mp hmem
    obtain ⟨hid, horder⟩ := of_decide_eq_true hclash
    dsimp only at hid horder
    split at horder
    next hlt => exact absurd (cleanOrder_injective horder) (by omega)
    next hge =>
      have hne : s.rank c' ≠ s.rank c := fun heq => hid (congrArg ClassRow.classId (rank_inj h hc' hc heq))
      exact hfree c' hc' (by omega) horder
  unfold updateLoadOrder
  rw [if_neg hnone]
  unfold renumbered withLoadOrders
  simp only [map_map]
  congr 2
  apply map_congr_left
  intro c' hc'
  simp only [Function.comp_apply]
  by_cases heq : c'.classId = c.classId
  · rw [if_pos heq, classId_inj h hc' hc heq, if_pos (Nat.lt_succ_self _)]
  · have hne : s.rank c' ≠ s.rank c := fun hr => heq (congrArg ClassRow.classId (rank_inj h hc' hc hr))
    rw [if_neg heq]
    by_cases hlt : s.rank c' < s.rank c
    · rw [if_pos hlt, if_pos (by omega)]
    · rw [if_neg hlt, if_neg (by omega)]

theorem updateLoadOrder_clash (h : s.Ordered) (hc : c ∈ s.classes) (hfree : ¬ s.Free (s.rank c)) :
    updateLoadOrder c.classId (cleanOrder (s.rank c)) (s.renumbered (s.rank c)) =
      (.error .unique, s.renumbered (s.rank c)) := by
  unfold Free at hfree
  push Not at hfree
  obtain ⟨c', hc', hlt, horder⟩ := hfree
  have hany : ((s.renumbered (s.rank c)).classes.any fun c' =>
      c'.classId ≠ c.classId ∧ c'.loadOrder = cleanOrder (s.rank c)) = true := by
    apply any_eq_true.mpr
    refine ⟨_, mem_map.mpr ⟨c', hc', rfl⟩, decide_eq_true ⟨fun hid => ?_, ?_⟩⟩
    · rw [classId_inj h hc' hc hid] at hlt
      omega
    · dsimp only
      rw [if_neg (by omega)]
      exact horder
  unfold updateLoadOrder
  rw [if_pos hany]

theorem renumber_free (h : s.Ordered) (l r : List ClassRow) (hl : s.loadSequence = l ++ r)
    (hfree : ∀ i, l.length ≤ i → s.Free i) :
    renumber l.length (r.map ClassRow.classId) (s.renumbered l.length) =
      (.ok (), s.renumbered s.loadSequence.length) := by
  induction r generalizing l with
  | nil =>
    rw [hl, append_nil]
    rfl
  | cons c r ih =>
    have hc : c ∈ s.classes := by
      rw [← mem_loadSequence, hl]
      exact mem_append.mpr (.inr mem_cons_self)
    have hrank := rank_append h hl
    have hstep := updateLoadOrder_free h hc (hrank ▸ hfree l.length le_rfl)
    have hl' : s.loadSequence = (l ++ [c]) ++ r := by simpa using hl
    have hrest := ih (l ++ [c]) hl' fun i hi => hfree i (by simp at hi; omega)
    rw [hrank] at hstep
    rw [length_append, length_singleton] at hrest
    rw [map_cons, renumber, bind_ok hstep]
    exact hrest

theorem renumber_clash (h : s.Ordered) (l r : List ClassRow) (hl : s.loadSequence = l ++ r) {i : Nat}
    (hi : l.length ≤ i) (hin : i < s.loadSequence.length) (hclash : ¬ s.Free i) :
    ∃ t, renumber l.length (r.map ClassRow.classId) (s.renumbered l.length) = (.error .unique, t) := by
  induction r generalizing l with
  | nil =>
    rw [hl, append_nil] at hin
    omega
  | cons c r ih =>
    have hc : c ∈ s.classes := by
      rw [← mem_loadSequence, hl]
      exact mem_append.mpr (.inr mem_cons_self)
    have hrank := rank_append h hl
    have hl' : s.loadSequence = (l ++ [c]) ++ r := by simpa using hl
    rw [map_cons, renumber]
    by_cases hfree : s.Free (s.rank c)
    · have hstep := updateLoadOrder_free h hc hfree
      rw [hrank] at hstep
      have hne : i ≠ l.length := by
        rintro rfl
        rw [hrank] at hfree
        exact hclash hfree
      obtain ⟨t, ht⟩ := ih (l ++ [c]) hl' (by simp; omega)
      rw [length_append, length_singleton] at ht
      rw [bind_ok hstep]
      exact ⟨t, ht⟩
    · have hstep := updateLoadOrder_clash h hc hfree
      rw [hrank] at hstep
      exact ⟨_, bind_error hstep⟩

theorem renumbered_zero (s : Store) : s.renumbered 0 = s := by
  unfold renumbered withLoadOrders
  simp

theorem rank_lt (h : s.Ordered) (hc : c ∈ s.classes) : s.rank c < s.loadSequence.length := by
  obtain ⟨l, r, hl⟩ := append_of_mem (mem_loadSequence.mpr hc)
  rw [rank_append h hl, hl, length_append, length_cons]
  omega

theorem renumbered_length (h : s.Ordered) :
    s.renumbered s.loadSequence.length = s.withLoadOrders fun c => cleanOrder (s.rank c) := by
  unfold renumbered withLoadOrders
  congr 1
  apply map_congr_left
  intro c hc
  dsimp only
  rw [if_pos (rank_lt h hc)]

/-- Renumbering works exactly when no class holds the clean order of a place before its own. -/
theorem rebalances_iff (h : s.Ordered) :
    s.Rebalances ↔ ∀ c ∈ s.classes, ∀ i < s.rank c, c.loadOrder ≠ cleanOrder i := by
  have hstart : rebalanceLoadOrder s = renumber 0 (s.loadSequence.map ClassRow.classId) (s.renumbered 0) := by
    rw [renumbered_zero]
    rfl
  constructor
  · rintro ⟨hok, -⟩ c hc i hi horder
    have hclash : ¬ s.Free i := fun hfree => hfree c hc hi horder
    have hrank := rank_lt h hc
    obtain ⟨t, ht⟩ := renumber_clash h [] s.loadSequence rfl (Nat.zero_le i) (by omega) hclash
    have hfail := hstart.trans ht
    rw [hok] at hfail
    cases (Prod.mk.inj hfail).1
  · intro hfree
    have hrun := renumber_free h [] s.loadSequence rfl fun i _ c hc hi => hfree c hc i hi
    have hok : rebalanceLoadOrder s = (.ok (), s.withLoadOrders fun c => cleanOrder (s.rank c)) := by
      rw [hstart, ← renumbered_length h]
      exact hrun
    refine ⟨hok, fun e t herror => ?_⟩
    rw [hok] at herror
    cases (Prod.mk.inj herror).1

/-- Two classes with no gap between them are moved apart. -/
theorem rebalances_adjacent : { Store.empty with classes := [⟨1, "A", 1000⟩, ⟨2, "B", 1001⟩] }.Rebalances ↔
    ∀ c ∈ [(⟨1, "A", 1000⟩ : ClassRow), ⟨2, "B", 1001⟩],
      ∀ i < { Store.empty with classes := [⟨1, "A", 1000⟩, ⟨2, "B", 1001⟩] }.rank c, c.loadOrder ≠ cleanOrder i :=
  rebalances_iff ⟨by decide, by decide⟩

def crowded : Store := { Store.empty with classes := [⟨1, "A", 950⟩, ⟨2, "B", 990⟩, ⟨3, "C", 1100⟩] }

/-- The second class meets the third, which has not moved yet; the first has. -/
theorem crowded_fails : crowded.Ordered ∧ (rebalanceLoadOrder crowded).1 = .error .unique ∧
    (rebalanceLoadOrder crowded).2.classes.map ClassRow.loadOrder = [1000, 990, 1100] :=
  ⟨⟨by decide, by decide⟩, rfl, rfl⟩

end Store

end WinArmVm.ImageStore
