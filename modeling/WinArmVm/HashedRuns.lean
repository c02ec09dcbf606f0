import WinArmVm.HashedRefinement

namespace WinArmVm

open List Option Function

open LinearProbing (Table)

namespace Hashing

variable {K V : Type} (H : Hashing K) {t : Table K V} {tally : Nat} {m : H.Key → Option V}

def EachOnce (m : H.Key → Option V) (pairs : List (K × V)) : Prop :=
  (∀ q v, m q = some v ↔ ∃ k, (k, v) ∈ pairs ∧ H.key k = q) ∧ (pairs.map fun kv => H.key kv.1).Nodup

variable {H}

theorem Stores.eachOnce (h : H.Stores t tally m) : H.EachOnce m ((List.range t.capacity).filterMap t.slot) := by
  refine ⟨fun q v => ?_, ?_⟩
  · rw [h.entries]
    constructor
    · rintro ⟨i, hi, hs⟩
      obtain ⟨k, hk, hq⟩ := H.view_slot_eq_some.mp hs
      exact ⟨k, mem_filterMap.mpr ⟨i, mem_range.mpr hi, hk⟩, hq⟩
    · rintro ⟨k, hk, hq⟩
      obtain ⟨i, hi, hs⟩ := mem_filterMap.mp hk
      exact ⟨i, mem_range.mp hi, H.view_slot_eq_some.mpr ⟨k, hs, hq⟩⟩
  · rw [List.Nodup, pairwise_map, pairwise_filterMap]
    refine List.Pairwise.imp_of_mem (fun {i i'} hi hi' hne => ?_) nodup_range
    rintro ⟨k, v⟩ hs ⟨k', v'⟩ hs' heq
    refine hne (h.probed.holds_unique (mem_range.mp hi) (mem_range.mp hi')
      ⟨v, H.view_slot_eq_some.mpr ⟨k, hs, rfl⟩⟩ ⟨v', H.view_slot_eq_some.mpr ⟨k', hs', heq.symm⟩⟩)

theorem EachOnce.mem_iff {pairs : List (K × V)} (h : H.EachOnce m pairs) {q : H.Key} :
    q ∈ pairs.map (fun kv => H.key kv.1) ↔ ∃ v, m q = some v := by
  rw [List.mem_map]
  constructor
  · rintro ⟨⟨k, v⟩, hk, hq⟩
    exact ⟨v, (h.1 q v).mpr ⟨k, hk, hq⟩⟩
  · rintro ⟨v, hv⟩
    obtain ⟨k, hk, hq⟩ := (h.1 q v).mp hv
    exact ⟨(k, v), hk, hq⟩

end Hashing

namespace Hashed

variable {K V : Type} {H : Hashing K}

namespace Dictionary

variable {d : Dictionary K V} {m : H.Key → Option V}

structure Refines (H : Hashing K) (d : Dictionary K V) (m : H.Key → Option V) : Prop where
  stores : H.Stores d.table d.tally m
  half : d.tally * 2 ≤ d.table.capacity

theorem new_refines : (new : Dictionary K V).Refines H fun _ => none := ⟨H.empty_stores, Nat.zero_le _⟩

theorem Refines.load (h : d.Refines H m) : d.tally < d.table.capacity := by
  have := h.half
  have := h.stores.size
  omega

theorem grow_spec (h : H.Binds d.table d.tally m) (hfew : d.tally * 2 ≤ d.table.capacity + 2) :
    ∃ d', d.grow H = some d' ∧ d'.Refines H m ∧ d.table.capacity ≤ d'.table.capacity := by
  obtain ⟨t', ht', hcap, hstores⟩ := h.grow
  have hsize := h.size
  refine ⟨{ d with table := t' }, ?_, ⟨hstores, ?_⟩, ?_⟩
  · rw [grow, ht']
    rfl
  · show d.tally * 2 ≤ t'.capacity
    omega
  · show d.table.capacity ≤ t'.capacity
    omega

theorem checkGrow_spec (h : H.Stores d.table d.tally m) (hfew : d.tally * 2 ≤ d.table.capacity + 2) :
    ∃ d', d.checkGrow H = some d' ∧ d'.Refines H m ∧ d.table.capacity ≤ d'.table.capacity := by
  unfold checkGrow
  by_cases hfull : d.tally * 2 > d.table.capacity
  · rw [if_pos hfull]
    exact grow_spec h.toBinds hfew
  · rw [if_neg hfull]
    exact ⟨d, rfl, ⟨h, by omega⟩, le_rfl⟩

theorem Refines.atPut (h : d.Refines H m) (key : K) (value : V) :
    ∃ d', d.atPut H key value = some d' ∧ d'.Refines H (Function.update m (H.key key) (some value)) ∧
      d.table.capacity ≤ d'.table.capacity := by
  obtain ⟨i, hi, hscan, hcase⟩ := h.stores.scan h.load key
  unfold Dictionary.atPut scanFor
  rw [hscan]
  simp only [bind_eq_bind, bind_some]
  rcases hcase with ⟨hs, -, hput⟩ | ⟨k', v', hs, hk, -, hput⟩
  · rw [hs]
    have hhalf := h.half
    exact checkGrow_spec (hput value) (by
      show (d.tally + 1) * 2 ≤ d.table.capacity + 2
      omega)
  · rw [hs]
    exact ⟨_, rfl, ⟨hput value, h.half⟩, le_rfl⟩

theorem Refines.atIfAbsent (h : d.Refines H m) (key : K) : d.atIfAbsent H key = some (m (H.key key)) := by
  obtain ⟨i, hi, hscan, hcase⟩ := h.stores.scan h.load key
  unfold Dictionary.atIfAbsent scanFor
  rw [hscan]
  simp only [bind_eq_bind, bind_some]
  rcases hcase with ⟨hs, hm, -⟩ | ⟨k', v', hs, -, hm, -⟩
  · rw [hs, hm]
    rfl
  · rw [hs, hm]
    rfl

theorem Refines.atIfAbsentPut (h : d.Refines H m) (key : K) (value : V) :
    ∃ d', d.atIfAbsentPut H key (fun d => some (value, d)) = some ((m (H.key key)).getD value, d') ∧
      d'.Refines H (Function.update m (H.key key) (some ((m (H.key key)).getD value))) := by
  obtain ⟨i, hi, hscan, hcase⟩ := h.stores.scan h.load key
  unfold Dictionary.atIfAbsentPut scanFor
  rw [hscan]
  simp only [bind_eq_bind, bind_some]
  rcases hcase with ⟨hs, hm, hput⟩ | ⟨k', v', hs, -, hm, -⟩
  · rw [hs, hm]
    have hhalf := h.half
    obtain ⟨d', hgrow, hd', -⟩ := @checkGrow_spec _ _ _ ⟨d.tally + 1, d.table.put i key value⟩ _ (hput value) (by
      show (d.tally + 1) * 2 ≤ d.table.capacity + 2
      omega)
    refine ⟨d', ?_, hd'⟩
    simp only [privateAtPut, hgrow, bind_some]
    rfl
  · rw [hs, hm]
    refine ⟨d, rfl, ?_⟩
    rw [getD_some, ← hm, update_eq_self]
    exact h

theorem Refines.removeKeyIfAbsent (h : d.Refines H m) (key : K) :
    ∃ d', d.removeKeyIfAbsent H key = some (m (H.key key), d') ∧
      d'.Refines H (Function.update m (H.key key) none) ∧ d.table.capacity ≤ d'.table.capacity := by
  obtain ⟨i, hi, hscan, hcase⟩ := h.stores.scan h.load key
  unfold Dictionary.removeKeyIfAbsent scanFor
  rw [hscan]
  simp only [bind_eq_bind, bind_some]
  rcases hcase with ⟨hs, hm, -⟩ | ⟨k', v', hs, hk, hm, -⟩
  · rw [hs, hm]
    refine ⟨d, rfl, ?_, le_rfl⟩
    rw [← hm, update_eq_self]
    exact h
  · obtain ⟨t', hheal, hcap, hstores⟩ := h.stores.remove h.load hi hs hk
    have hhalf := h.half
    rw [hs, hm]
    simp only [fixCollisionsFrom, hheal, bind_some]
    refine ⟨_, rfl, ⟨hstores, ?_⟩, hcap.ge⟩
    show (d.tally - 1) * 2 ≤ t'.capacity
    omega

def updates (m : H.Key → Option V) (pairs : List (K × V)) : H.Key → Option V :=
  pairs.foldl (fun m kv => Function.update m (H.key kv.1) (some kv.2)) m

theorem Refines.putAll (h : d.Refines H m) (pairs : List (K × V)) :
    ∃ d', d.putAll H pairs = some d' ∧ d'.Refines H (updates m pairs) := by
  induction pairs generalizing d m with
  | nil => exact ⟨d, rfl, h⟩
  | cons kv rest ih =>
    obtain ⟨k, v⟩ := kv
    obtain ⟨d₁, hput, h₁, -⟩ := h.atPut k v
    obtain ⟨d', hrest, h'⟩ := ih h₁
    refine ⟨d', ?_, h'⟩
    unfold Dictionary.putAll
    rw [hput]
    exact hrest

theorem updates_eq_some {pairs : List (K × V)} (hnodup : (pairs.map fun kv => H.key kv.1).Nodup) {q : H.Key} {v : V} :
    updates m pairs q = some v ↔
      (∃ k, (k, v) ∈ pairs ∧ H.key k = q) ∨ q ∉ pairs.map (fun kv => H.key kv.1) ∧ m q = some v := by
  induction pairs generalizing m with
  | nil =>
    show m q = some v ↔ _
    simp
  | cons kv rest ih =>
    obtain ⟨k₁, v₁⟩ := kv
    rw [map_cons, nodup_cons] at hnodup
    have hstep : updates m ((k₁, v₁) :: rest) = updates (Function.update m (H.key k₁) (some v₁)) rest := rfl
    rw [hstep, ih hnodup.2, map_cons, mem_cons, not_or]
    by_cases hq : q = H.key k₁
    · subst hq
      rw [update_self, Option.some_inj]
      constructor
      · rintro (⟨k, hk, he⟩ | ⟨-, rfl⟩)
        · exact .inl ⟨k, mem_cons_of_mem _ hk, he⟩
        · exact .inl ⟨k₁, mem_cons_self, rfl⟩
      · rintro (⟨k, hk, he⟩ | ⟨⟨hne, -⟩, -⟩)
        · rcases mem_cons.mp hk with heq | hk
          · cases heq
            exact .inr ⟨hnodup.1, rfl⟩
          · exact absurd (List.mem_map.mpr ⟨_, hk, he⟩) hnodup.1
        · exact absurd rfl hne
    · rw [update_of_ne hq]
      constructor
      · rintro (⟨k, hk, he⟩ | ⟨hnot, hm⟩)
        · exact .inl ⟨k, mem_cons_of_mem _ hk, he⟩
        · exact .inr ⟨⟨hq, hnot⟩, hm⟩
      · rintro (⟨k, hk, he⟩ | ⟨⟨-, hnot⟩, hm⟩)
        · rcases mem_cons.mp hk with heq | hk
          · cases heq
            exact absurd he.symm hq
          · exact .inl ⟨k, hk, he⟩
        · exact .inr ⟨hnot, hm⟩

theorem Refines.select (h : d.Refines H m) (aBlock : V → Bool) :
    ∃ d', d.select H aBlock = some d' ∧ d'.Refines H fun q => (m q).filter aBlock := by
  have heach := h.stores.eachOnce
  obtain ⟨d', hput, h'⟩ := (new_refines (H := H)).putAll (d.keysAndValues.filter fun kv => aBlock kv.2)
  refine ⟨d', hput, ?_⟩
  have hmap : updates (fun _ => none) (d.keysAndValues.filter fun kv => aBlock kv.2) =
      fun q => (m q).filter aBlock := by
    funext q
    refine Option.ext fun v => ?_
    have hnodup : ((d.keysAndValues.filter fun kv => aBlock kv.2).map fun kv => H.key kv.1).Nodup :=
      heach.2.sublist (filter_sublist.map _)
    rw [updates_eq_some hnodup, filter_eq_some_iff, heach.1]
    constructor
    · rintro (⟨k, hk, hq⟩ | ⟨-, h⟩)
      · obtain ⟨hmem, hv⟩ := mem_filter.mp hk
        exact ⟨⟨k, hmem, hq⟩, hv⟩
      · cases h
    · rintro ⟨⟨k, hmem, hq⟩, hv⟩
      exact .inl ⟨k, mem_filter.mpr ⟨hmem, hv⟩, hq⟩
  rw [← hmap]
  exact h'

end Dictionary

namespace Set

variable {s : Set K} {F : Finset H.Key}

def held (F : Finset H.Key) : H.Key → Option Unit := fun q => if q ∈ F then some () else none

theorem held_eq_some {q : H.Key} {u : Unit} : held F q = some u ↔ q ∈ F := by
  unfold held
  split
  next hq => exact iff_of_true rfl hq
  next hq => exact iff_of_false (fun h => nomatch h) hq

theorem held_insert (q : H.Key) : Function.update (held F) q (some ()) = held (insert q F) := by
  funext q'
  refine Option.ext fun u => ?_
  rw [held_eq_some, Finset.mem_insert]
  by_cases hq : q' = q
  · rw [hq, update_self]
    exact iff_of_true rfl (.inl rfl)
  · rw [update_of_ne hq, held_eq_some, or_iff_right hq]

theorem held_erase (q : H.Key) : Function.update (held F) q none = held (F.erase q) := by
  funext q'
  refine Option.ext fun u => ?_
  rw [held_eq_some, Finset.mem_erase]
  by_cases hq : q' = q
  · rw [hq, update_self]
    exact iff_of_false (fun h => nomatch h) fun h => h.1 rfl
  · rw [update_of_ne hq, held_eq_some, and_iff_right hq]

/-- The set stands for the finite set of its elements up to `=`. -/
structure Refines (H : Hashing K) (s : Set K) (F : Finset H.Key) : Prop where
  stores : H.Stores s.elements s.tally (held F)
  half : s.tally * 2 ≤ s.elements.capacity

theorem new_refines : (new : Set K).Refines H ∅ := ⟨H.empty_stores, Nat.zero_le _⟩

theorem Refines.load (h : s.Refines H F) : s.tally < s.elements.capacity := by
  have := h.half
  have := h.stores.size
  omega

theorem Refines.tally (h : s.Refines H F) : s.tally = F.card := by
  rw [h.stores.tally]
  congr 1
  ext q
  rw [h.stores.mem_keys]
  exact ⟨fun ⟨_, hu⟩ => held_eq_some.mp hu, fun hq => ⟨(), held_eq_some.mpr hq⟩⟩

theorem checkGrow_spec (h : H.Stores s.elements s.tally (held F)) (hfew : s.tally * 2 ≤ s.elements.capacity + 2) :
    ∃ s', s.checkGrow H = some s' ∧ s'.Refines H F := by
  unfold checkGrow
  by_cases hfull : s.tally * 2 > s.elements.capacity
  · obtain ⟨t', ht', hcap, hstores⟩ := h.grow
    have hsize := h.size
    refine ⟨{ s with elements := t' }, ?_, hstores, ?_⟩
    · rw [if_pos hfull, grow, ht']
      rfl
    · show s.tally * 2 ≤ t'.capacity
      omega
  · rw [if_neg hfull]
    exact ⟨s, rfl, h, by omega⟩

theorem Refines.add (h : s.Refines H F) (anObject : K) :
    ∃ s', s.add H anObject = some s' ∧ s'.Refines H (insert (H.key anObject) F) := by
  obtain ⟨i, hi, hscan, hcase⟩ := h.stores.scan h.load anObject
  unfold Set.add scanFor
  rw [hscan]
  simp only [bind_eq_bind, bind_some]
  rcases hcase with ⟨hs, -, hput⟩ | ⟨k', v', hs, hk, hm, -⟩
  · rw [hs]
    have hhalf := h.half
    have hstores := hput ()
    rw [held_insert] at hstores
    exact checkGrow_spec hstores (by
      show (s.tally + 1) * 2 ≤ s.elements.capacity + 2
      omega)
  · rw [hs]
    refine ⟨s, rfl, ?_⟩
    rw [Finset.insert_eq_of_mem (held_eq_some.mp hm)]
    exact h

theorem Refines.includes (h : s.Refines H F) (anObject : K) :
    s.includes H anObject = some (decide (H.key anObject ∈ F)) := by
  obtain ⟨i, hi, hscan, hcase⟩ := h.stores.scan h.load anObject
  unfold Set.includes scanFor
  rw [hscan]
  simp only [bind_eq_bind, bind_some]
  rcases hcase with ⟨hs, hm, -⟩ | ⟨k', v', hs, hk, hm, -⟩
  · have hnot : H.key anObject ∉ F := fun hq => by
      rw [held_eq_some (u := ()) |>.mpr hq] at hm
      cases hm
    rw [hs, decide_eq_false hnot]
    rfl
  · rw [hs, decide_eq_true (held_eq_some.mp hm)]
    rfl

theorem Refines.removeIfAbsent (h : s.Refines H F) (anObject : K) :
    ∃ s', s.removeIfAbsent H anObject = some (if H.key anObject ∈ F then some anObject else none, s') ∧
      s'.Refines H (F.erase (H.key anObject)) := by
  obtain ⟨i, hi, hscan, hcase⟩ := h.stores.scan h.load anObject
  unfold Set.removeIfAbsent scanFor
  rw [hscan]
  simp only [bind_eq_bind, bind_some]
  rcases hcase with ⟨hs, hm, -⟩ | ⟨k', v', hs, hk, hm, -⟩
  · have hnot : H.key anObject ∉ F := fun hq => by
      rw [held_eq_some (u := ()) |>.mpr hq] at hm
      cases hm
    rw [hs, if_neg hnot, Finset.erase_eq_of_notMem hnot]
    exact ⟨s, rfl, h⟩
  · obtain ⟨t', hheal, hcap, hstores⟩ := h.stores.remove h.load hi hs hk
    rw [held_erase] at hstores
    have hhalf := h.half
    rw [hs, if_pos (held_eq_some.mp hm)]
    simp only [hheal, bind_some]
    refine ⟨_, rfl, hstores, ?_⟩
    show (s.tally - 1) * 2 ≤ t'.capacity
    omega

theorem each_eq (s : Set K) : s.each = ((List.range s.elements.capacity).filterMap s.elements.slot).map Prod.fst := by
  unfold each
  rw [map_filterMap]
  rfl

theorem Refines.each (h : s.Refines H F) : (s.each.map H.key).Nodup ∧ (s.each.map H.key).toFinset = F := by
  have heach := h.stores.eachOnce
  rw [each_eq, List.map_map]
  refine ⟨heach.2, ?_⟩
  ext q
  rw [List.mem_toFinset]
  refine heach.mem_iff.trans ⟨fun ⟨_, hu⟩ => held_eq_some.mp hu, fun hq => ⟨(), held_eq_some.mpr hq⟩⟩

theorem Refines.addAll (h : s.Refines H F) (elements : List K) :
    ∃ s', s.addAll H elements = some s' ∧ s'.Refines H (F ∪ (elements.map H.key).toFinset) := by
  induction elements generalizing s F with
  | nil => exact ⟨s, rfl, by rw [map_nil, toFinset_nil, Finset.union_empty]; exact h⟩
  | cons e rest ih =>
    obtain ⟨s₁, hadd, h₁⟩ := h.add e
    obtain ⟨s', hrest, h'⟩ := ih h₁
    refine ⟨s', ?_, ?_⟩
    · unfold Set.addAll
      rw [hadd]
      exact hrest
    · rw [map_cons, toFinset_cons, Finset.union_insert, ← Finset.insert_union]
      exact h'

theorem Refines.pick {aCollection result : Set K} {G R : Finset H.Key} (hG : aCollection.Refines H G) (answer : Bool)
    (h : result.Refines H R) (elements : List K) :
    ∃ s', pick H aCollection answer elements result = some s' ∧
      s'.Refines H (R ∪ (elements.map H.key).toFinset.filter fun q => decide (q ∈ G) = answer) := by
  induction elements generalizing result R with
  | nil =>
    refine ⟨result, rfl, ?_⟩
    rw [map_nil, toFinset_nil, Finset.filter_empty, Finset.union_empty]
    exact h
  | cons e rest ih =>
    unfold Set.pick
    rw [hG.includes]
    simp only [bind_eq_bind, bind_some]
    rw [map_cons, toFinset_cons, Finset.filter_insert]
    by_cases hin : decide (H.key e ∈ G) = answer
    · rw [if_pos hin, if_pos hin]
      obtain ⟨s₁, hadd, h₁⟩ := h.add e
      obtain ⟨s', hrest, h'⟩ := ih h₁
      refine ⟨s', ?_, ?_⟩
      · rw [hadd]
        exact hrest
      · rw [Finset.union_insert, ← Finset.insert_union]
        exact h'
    · rw [if_neg hin, if_neg hin]
      exact ih h

variable {aCollection : Set K} {G : Finset H.Key}

section

variable (h : s.Refines H F) (hG : aCollection.Refines H G)

include h hG

theorem Refines.inter : ∃ s', s.inter H aCollection = some s' ∧ s'.Refines H (F ∩ G) := by
  obtain ⟨s', hpick, h'⟩ := hG.pick true new_refines s.each
  refine ⟨s', hpick, ?_⟩
  rw [h.each.2, Finset.empty_union] at h'
  convert h' using 1
  ext q
  rw [Finset.mem_inter, Finset.mem_filter, decide_eq_true_iff]

theorem Refines.difference : ∃ s', s.difference H aCollection = some s' ∧ s'.Refines H (F \ G) := by
  obtain ⟨s', hpick, h'⟩ := hG.pick false new_refines s.each
  refine ⟨s', hpick, ?_⟩
  rw [h.each.2, Finset.empty_union] at h'
  convert h' using 1
  ext q
  rw [Finset.mem_sdiff, Finset.mem_filter, decide_eq_false_iff_not]

theorem Refines.union : ∃ s', s.union H aCollection = some s' ∧ s'.Refines H (F ∪ G) := by
  obtain ⟨s₁, hadd, h₁⟩ := (new_refines (H := H)).addAll s.each
  obtain ⟨s', hrest, h'⟩ := h₁.addAll aCollection.each
  refine ⟨s', ?_, ?_⟩
  · unfold Set.union
    rw [hadd]
    exact hrest
  · rw [h.each.2, hG.each.2, Finset.empty_union] at h'
    exact h'

end

end Set

namespace Bag

variable {b other : Bag K} {M N : Multiset H.Key}

def Refines (H : Hashing K) (b : Bag K) (M : Multiset H.Key) : Prop :=
  ∃ m, b.contents.Refines H m ∧ ∀ q, M.count q = (m q).getD 0

theorem new_refines : (new : Bag K).Refines H 0 := ⟨_, Dictionary.new_refines, fun q => Multiset.count_zero q⟩

theorem Refines.occurrencesOf (h : b.Refines H M) (o : K) : b.occurrencesOf H o = some (M.count (H.key o)) := by
  obtain ⟨m, hd, hcount⟩ := h
  unfold Bag.occurrencesOf
  rw [hd.atIfAbsent, hcount]
  rfl

theorem Refines.addWithOccurrences (h : b.Refines H M) (el : K) (oc : Nat) :
    ∃ b', b.addWithOccurrences H el oc = some b' ∧ b'.Refines H (M + Multiset.replicate oc (H.key el)) := by
  have hoc := h.occurrencesOf el
  obtain ⟨m, hd, hcount⟩ := h
  obtain ⟨d', hput, hd', -⟩ := hd.atPut el (oc + M.count (H.key el))
  refine ⟨⟨d'⟩, ?_, _, hd', fun q => ?_⟩
  · unfold Bag.addWithOccurrences
    rw [hoc]
    simp only [bind_eq_bind, bind_some, hput]
    rfl
  · rw [Multiset.count_add, Multiset.count_replicate]
    by_cases hq : q = H.key el
    · rw [hq, update_self, if_pos rfl, Nat.add_comm]
      rfl
    · rw [update_of_ne hq, if_neg (fun he => hq he.symm), ← hcount, Nat.add_zero]

theorem Refines.removeIfAbsent (h : b.Refines H M) (el : K) :
    ∃ b', b.removeIfAbsent H el = some (if H.key el ∈ M then some el else none, b') ∧
      b'.Refines H (M.erase (H.key el)) := by
  have hoc := h.occurrencesOf el
  unfold Bag.removeIfAbsent
  rw [hoc]
  simp only [bind_eq_bind, bind_some]
  by_cases hmem : H.key el ∈ M
  · have hpos := Multiset.count_pos.mpr hmem
    rw [if_neg (by omega), if_pos hmem]
    obtain ⟨m, hd, hcount⟩ := h
    obtain ⟨d', hput, hd', -⟩ := hd.atPut el (M.count (H.key el) - 1)
    refine ⟨⟨d'⟩, ?_, _, hd', fun q => ?_⟩
    · rw [hput]
      rfl
    · by_cases hq : q = H.key el
      · rw [hq, update_self, Multiset.count_erase_self]
        rfl
      · rw [update_of_ne hq, Multiset.count_erase_of_ne hq, hcount]
  · rw [if_pos (Multiset.count_eq_zero_of_notMem hmem), if_neg hmem, Multiset.erase_of_notMem hmem]
    exact ⟨b, rfl, h⟩

def visits (pairs : List (K × Nat)) : List K := pairs.flatMap fun kv => List.replicate kv.2 kv.1

theorem count_visits_cons (kv : K × Nat) (pairs : List (K × Nat)) (q : H.Key) :
    ((visits (kv :: pairs)).map H.key).count q =
      (if H.key kv.1 = q then kv.2 else 0) + ((visits pairs).map H.key).count q := by
  unfold visits
  rw [flatMap_cons, map_append, count_append, map_replicate, count_replicate]
  simp only [beq_iff_eq]

variable {pairs : List (K × Nat)}

theorem count_visits_absent {q : H.Key} (h : q ∉ pairs.map fun kv => H.key kv.1) :
    ((visits pairs).map H.key).count q = 0 := by
  induction pairs with
  | nil => rfl
  | cons kv rest ih =>
    rw [map_cons, mem_cons, not_or] at h
    rw [count_visits_cons, if_neg (fun he => h.1 he.symm), ih h.2]

theorem count_visits (hnodup : (pairs.map fun kv => H.key kv.1).Nodup) {k : K} {v : Nat}
    (hk : (k, v) ∈ pairs) : ((visits pairs).map H.key).count (H.key k) = v := by
  induction pairs with
  | nil => cases hk
  | cons kv rest ih =>
    rw [map_cons, nodup_cons] at hnodup
    rw [count_visits_cons]
    rcases mem_cons.mp hk with rfl | hrest
    · rw [if_pos rfl, count_visits_absent hnodup.1, Nat.add_zero]
    · have hne : H.key kv.1 ≠ H.key k := fun he => hnodup.1 (he ▸ mem_map.mpr ⟨(k, v), hrest, rfl⟩)
      rw [if_neg hne, Nat.zero_add, ih hnodup.2 hrest]

theorem Refines.each (h : b.Refines H M) : ((b.each.map H.key : List H.Key) : Multiset H.Key) = M := by
  obtain ⟨m, hd, hcount⟩ := h
  have heach := hd.stores.eachOnce
  ext q
  rw [Multiset.coe_count, hcount]
  cases hq : m q with
  | none =>
    refine count_visits_absent fun hmem => ?_
    obtain ⟨v, hv⟩ := heach.mem_iff.mp hmem
    rw [hq] at hv
    cases hv
  | some v =>
    obtain ⟨k, hk, rfl⟩ := (heach.1 q v).mp hq
    exact count_visits heach.2 hk

theorem size_eq (b : Bag K) : b.size = b.each.length := by
  unfold size each
  rw [length_flatMap]
  congr 1
  exact map_congr_left fun kv _ => (length_replicate ..).symm

theorem Refines.size (h : b.Refines H M) : b.size = M.card := by
  rw [size_eq, ← h.each, Multiset.coe_card, length_map]

theorem sameCounts_eq (h : other.Refines H N) (pairs : List (K × Nat)) :
    sameCounts H other pairs = some (decide (∀ kv ∈ pairs, N.count (H.key kv.1) = kv.2)) := by
  induction pairs with
  | nil => rfl
  | cons kv rest ih =>
    obtain ⟨el, occ⟩ := kv
    unfold sameCounts
    rw [h.occurrencesOf]
    simp only [bind_eq_bind, bind_some]
    by_cases hsame : N.count (H.key el) = occ
    · rw [if_pos hsame, ih]
      congr 1
      rw [decide_eq_decide, forall_mem_cons]
      exact (and_iff_right hsame).symm
    · rw [if_neg hsame]
      congr 1
      refine (decide_eq_false fun hall => hsame ?_).symm
      exact hall (el, occ) mem_cons_self

theorem Refines.equal (h : b.Refines H M) (h' : other.Refines H N) : b.equal H other = some (decide (M = N)) := by
  unfold Bag.equal
  rw [h.size, h'.size]
  by_cases hcard : M.card = N.card
  · rw [if_pos hcard, sameCounts_eq h']
    congr 1
    rw [decide_eq_decide]
    obtain ⟨m, hd, hcount⟩ := h
    have heach := hd.stores.eachOnce
    constructor
    · intro hall
      refine Multiset.eq_of_le_of_card_le (Multiset.le_iff_count.mpr fun q => ?_) hcard.ge
      rw [hcount]
      cases hq : m q with
      | none => exact Nat.zero_le _
      | some v =>
        obtain ⟨k, hk, rfl⟩ := (heach.1 q v).mp hq
        exact (hall (k, v) hk).ge
    · rintro rfl ⟨k, v⟩ hk
      rw [hcount, (heach.1 (H.key k) v).mpr ⟨k, hk, rfl⟩]
      rfl
  · rw [if_neg hcard]
    congr 1
    exact (decide_eq_false fun he => hcard (by rw [he])).symm

end Bag

/-- A dictionary by the messages it was made with; blocks for absent keys answer a value. -/
inductive DictExpr (K V : Type) where
  | new
  | atPut (receiver : DictExpr K V) (key : K) (value : V)
  | atIfAbsentPut (receiver : DictExpr K V) (key : K) (value : V)
  | removeKeyIfAbsent (receiver : DictExpr K V) (key : K)
  | select (receiver : DictExpr K V) (aBlock : V → Bool)

namespace DictExpr

def eval (H : Hashing K) : DictExpr K V → Option (Dictionary K V)
  | new => some .new
  | atPut e key value => do (← e.eval H).atPut H key value
  | atIfAbsentPut e key value => do return (← (← e.eval H).atIfAbsentPut H key fun d => some (value, d)).2
  | removeKeyIfAbsent e key => do return (← (← e.eval H).removeKeyIfAbsent H key).2
  | select e aBlock => do (← e.eval H).select H aBlock

def map (H : Hashing K) : DictExpr K V → H.Key → Option V
  | new => fun _ => none
  | atPut e key value => Function.update (e.map H) (H.key key) (some value)
  | atIfAbsentPut e key value =>
    Function.update (e.map H) (H.key key) (some ((e.map H (H.key key)).getD value))
  | removeKeyIfAbsent e key => Function.update (e.map H) (H.key key) none
  | select e aBlock => fun q => (e.map H q).filter aBlock

theorem eval_refines (e : DictExpr K V) : ∃ d, e.eval H = some d ∧ d.Refines H (e.map H) := by
  induction e with
  | new => exact ⟨_, rfl, Dictionary.new_refines⟩
  | atPut e key value ih =>
    obtain ⟨d, he, h⟩ := ih
    obtain ⟨d', hd', h', -⟩ := h.atPut key value
    exact ⟨d', (congrArg (Option.bind · _) he).trans hd', h'⟩
  | atIfAbsentPut e key value ih =>
    obtain ⟨d, he, h⟩ := ih
    obtain ⟨d', hd', h'⟩ := h.atIfAbsentPut key value
    refine ⟨d', ?_, h'⟩
    unfold eval
    rw [he]
    simp only [bind_eq_bind, bind_some, hd']
    rfl
  | removeKeyIfAbsent e key ih =>
    obtain ⟨d, he, h⟩ := ih
    obtain ⟨d', hd', h', -⟩ := h.removeKeyIfAbsent key
    refine ⟨d', ?_, h'⟩
    unfold eval
    rw [he]
    simp only [bind_eq_bind, bind_some, hd']
    rfl
  | select e aBlock ih =>
    obtain ⟨d, he, h⟩ := ih
    obtain ⟨d', hd', h'⟩ := h.select aBlock
    exact ⟨d', (congrArg (Option.bind · _) he).trans hd', h'⟩

end DictExpr

inductive SetExpr (K : Type) where
  | new
  | add (receiver : SetExpr K) (anObject : K)
  | removeIfAbsent (receiver : SetExpr K) (anObject : K)
  | inter (receiver aCollection : SetExpr K)
  | union (receiver aCollection : SetExpr K)
  | difference (receiver aCollection : SetExpr K)

namespace SetExpr

def eval (H : Hashing K) : SetExpr K → Option (Set K)
  | new => some .new
  | add e anObject => do (← e.eval H).add H anObject
  | removeIfAbsent e anObject => do return (← (← e.eval H).removeIfAbsent H anObject).2
  | inter e aCollection => do (← e.eval H).inter H (← aCollection.eval H)
  | union e aCollection => do (← e.eval H).union H (← aCollection.eval H)
  | difference e aCollection => do (← e.eval H).difference H (← aCollection.eval H)

def elements (H : Hashing K) : SetExpr K → Finset H.Key
  | new => ∅
  | add e anObject => insert (H.key anObject) (e.elements H)
  | removeIfAbsent e anObject => (e.elements H).erase (H.key anObject)
  | inter e aCollection => e.elements H ∩ aCollection.elements H
  | union e aCollection => e.elements H ∪ aCollection.elements H
  | difference e aCollection => e.elements H \ aCollection.elements H

theorem eval_refines (e : SetExpr K) : ∃ s, e.eval H = some s ∧ s.Refines H (e.elements H) := by
  induction e with
  | new => exact ⟨_, rfl, Set.new_refines⟩
  | add e anObject ih =>
    obtain ⟨s, he, h⟩ := ih
    obtain ⟨s', hs', h'⟩ := h.add anObject
    exact ⟨s', (congrArg (Option.bind · _) he).trans hs', h'⟩
  | removeIfAbsent e anObject ih =>
    obtain ⟨s, he, h⟩ := ih
    obtain ⟨s', hs', h'⟩ := h.removeIfAbsent anObject
    refine ⟨s', ?_, h'⟩
    unfold eval
    rw [he]
    simp only [bind_eq_bind, bind_some, hs']
    rfl
  | inter e aCollection ih ih' =>
    obtain ⟨s, he, h⟩ := ih
    obtain ⟨s₁, he₁, h₁⟩ := ih'
    obtain ⟨s', hs', h'⟩ := h.inter h₁
    refine ⟨s', ?_, h'⟩
    unfold eval
    rw [he, he₁]
    exact hs'
  | union e aCollection ih ih' =>
    obtain ⟨s, he, h⟩ := ih
    obtain ⟨s₁, he₁, h₁⟩ := ih'
    obtain ⟨s', hs', h'⟩ := h.union h₁
    refine ⟨s', ?_, h'⟩
    unfold eval
    rw [he, he₁]
    exact hs'
  | difference e aCollection ih ih' =>
    obtain ⟨s, he, h⟩ := ih
    obtain ⟨s₁, he₁, h₁⟩ := ih'
    obtain ⟨s', hs', h'⟩ := h.difference h₁
    refine ⟨s', ?_, h'⟩
    unfold eval
    rw [he, he₁]
    exact hs'

end SetExpr

inductive BagExpr (K : Type) where
  | new
  | addWithOccurrences (receiver : BagExpr K) (el : K) (oc : Nat)
  | removeIfAbsent (receiver : BagExpr K) (el : K)

namespace BagExpr

def eval (H : Hashing K) : BagExpr K → Option (Bag K)
  | new => some .new
  | addWithOccurrences e el oc => do (← e.eval H).addWithOccurrences H el oc
  | removeIfAbsent e el => do return (← (← e.eval H).removeIfAbsent H el).2

def elements (H : Hashing K) : BagExpr K → Multiset H.Key
  | new => 0
  | addWithOccurrences e el oc => e.elements H + Multiset.replicate oc (H.key el)
  | removeIfAbsent e el => (e.elements H).erase (H.key el)

theorem eval_refines (e : BagExpr K) : ∃ b, e.eval H = some b ∧ b.Refines H (e.elements H) := by
  induction e with
  | new => exact ⟨_, rfl, Bag.new_refines⟩
  | addWithOccurrences e el oc ih =>
    obtain ⟨b, he, h⟩ := ih
    obtain ⟨b', hb', h'⟩ := h.addWithOccurrences el oc
    exact ⟨b', (congrArg (Option.bind · _) he).trans hb', h'⟩
  | removeIfAbsent e el ih =>
    obtain ⟨b, he, h⟩ := ih
    obtain ⟨b', hb', h'⟩ := h.removeIfAbsent el
    refine ⟨b', ?_, h'⟩
    unfold eval
    rw [he]
    simp only [bind_eq_bind, bind_some, hb']
    rfl

end BagExpr

/-- Whatever messages made a dictionary, a set or a bag: every probe ended, every further message
answers what the finite map, set or multiset answers, and each entry is visited exactly once. -/
theorem collections_refine (H : Hashing K) : (∀ e : DictExpr K V, ∃ d, e.eval H = some d ∧ d.Refines H (e.map H) ∧
      H.EachOnce (e.map H) d.keysAndValues ∧
      (∀ key, d.atIfAbsent H key = some (e.map H (H.key key))) ∧
      (∀ key value, ∃ d', d.atIfAbsentPut H key (fun d => some (value, d)) =
        some ((e.map H (H.key key)).getD value, d')) ∧
      ∀ key, ∃ d', d.removeKeyIfAbsent H key = some (e.map H (H.key key), d')) ∧
    (∀ e : SetExpr K, ∃ s, e.eval H = some s ∧ s.Refines H (e.elements H) ∧ s.tally = (e.elements H).card ∧
      (s.each.map H.key).Nodup ∧ (s.each.map H.key).toFinset = e.elements H ∧
      (∀ anObject, s.includes H anObject = some (decide (H.key anObject ∈ e.elements H))) ∧
      ∀ anObject, ∃ s', s.removeIfAbsent H anObject =
        some (if H.key anObject ∈ e.elements H then some anObject else none, s')) ∧
    ∀ e : BagExpr K, ∃ b, e.eval H = some b ∧ b.Refines H (e.elements H) ∧ b.size = (e.elements H).card ∧
      ((b.each.map H.key : List H.Key) : Multiset H.Key) = e.elements H ∧
      (∀ el, b.occurrencesOf H el = some ((e.elements H).count (H.key el))) ∧
      (∀ el, ∃ b', b.removeIfAbsent H el = some (if H.key el ∈ e.elements H then some el else none, b')) ∧
      ∀ e' : BagExpr K, ∃ b', e'.eval H = some b' ∧
        b.equal H b' = some (decide (e.elements H = e'.elements H)) := by
  refine ⟨fun e => ?_, fun e => ?_, fun e => ?_⟩
  · obtain ⟨d, he, h⟩ := e.eval_refines (H := H)
    refine ⟨d, he, h, h.stores.eachOnce, h.atIfAbsent, fun key value => ?_, fun key => ?_⟩
    · obtain ⟨d', hd', -⟩ := h.atIfAbsentPut key value
      exact ⟨d', hd'⟩
    · obtain ⟨d', hd', -⟩ := h.removeKeyIfAbsent key
      exact ⟨d', hd'⟩
  · obtain ⟨s, he, h⟩ := e.eval_refines (H := H)
    refine ⟨s, he, h, h.tally, h.each.1, h.each.2, h.includes, fun anObject => ?_⟩
    obtain ⟨s', hs', -⟩ := h.removeIfAbsent anObject
    exact ⟨s', hs'⟩
  · obtain ⟨b, he, h⟩ := e.eval_refines (H := H)
    refine ⟨b, he, h, h.size, h.each, h.occurrencesOf, fun el => ?_, fun e' => ?_⟩
    · obtain ⟨b', hb', -⟩ := h.removeIfAbsent el
      exact ⟨b', hb'⟩
    · obtain ⟨b', he', h'⟩ := e'.eval_refines (H := H)
      exact ⟨b', he', h.equal h'⟩

end Hashed

end WinArmVm
