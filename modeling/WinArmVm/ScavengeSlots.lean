import WinArmVm.ScavengeCopy

namespace WinArmVm.HeapView

open Tiling List Function

variable {v : HeapView} {m₀ m m' : Memory} {u₀ u u' : Universe} {c c' c'' : Copies}
  {done done' : Nat → Prop} {a x j : Nat} {p q : Nat × Nat}

theorem Holder.extend (h : v.Holder c p) (he : c.Extends c') : v.Holder c' p := h.imp_left (he.subset p)

theorem holder_apart (hw : v.Coherent m₀ u₀) (ht : v.Targets u₀ u m c done) (hp : v.Holder c p) (hq : v.Holder c q) :
    p = q ∨ p.2 + v.bytes p.1 ≤ q.2 ∨ q.2 + v.bytes q.1 ≤ p.2 := by
  have hto := ht.to_same
  have hold := ht.old_same.1
  have hto_le := ht.to_le
  have hto_old := hw.geometry.to_old
  have hge := hw.geometry.old_le.1
  have hcross : ∀ p q : Nat × Nat, p ∈ c.survivors → q ∈ c.promoted ∨ q.1 ∈ v.old ∧ q.2 = q.1 →
      p.2 + v.bytes p.1 ≤ q.2 := by
    intro p q hp hq
    have hbp := ht.survivors.bounds hp
    rcases hq with hq | ⟨ho, he⟩
    · have := ht.promoted.bounds hq
      omega
    · have := hw.old_bounds ho
      omega
  have hlow : ∀ p q : Nat × Nat, p.1 ∈ v.old ∧ p.2 = p.1 → q ∈ c.promoted → p.2 + v.bytes p.1 ≤ q.2 := by
    intro p q ⟨ho, he⟩ hq
    have := hw.old_bounds ho
    have := ht.promoted.bounds hq
    omega
  rcases hp with hp | hp
  · rcases hq with hq | hq
    · rcases mem_append.mp hp with hp | hp
      · rcases mem_append.mp hq with hq | hq
        · exact ht.survivors.apart hp hq
        · exact .inr (.inl (hcross p q hp (.inl hq)))
      · rcases mem_append.mp hq with hq | hq
        · exact .inr (.inr (hcross q p hq (.inl hp)))
        · exact ht.promoted.apart hp hq
    · rcases mem_append.mp hp with hp | hp
      · exact .inr (.inl (hcross p q hp (.inr hq)))
      · exact .inr (.inr (hlow q p hq hp))
  · rcases hq with hq | hq
    · rcases mem_append.mp hq with hq | hq
      · exact .inr (.inr (hcross q p hq (.inr hp)))
      · exact .inr (.inl (hlow p q hp hq))
    · rcases hw.old.apart hp.1 hq.1 with he | hlt | hlt
      · exact .inl (Prod.ext he (by rw [hp.2, hq.2, he]))
      · exact .inr (.inl (by rw [hp.2, hq.2]; exact hlt))
      · exact .inr (.inr (by rw [hp.2, hq.2]; exact hlt))

theorem holder_word_inj (hw : v.Coherent m₀ u₀) (ht : v.Targets u₀ u m c done)
    (hp : v.Holder c p) (hq : v.Holder c q) {i : Nat} (hi : i < (v.shape p.1).size)
    (hj : j < (v.shape q.1).size) (he : p.2 + 8 * i = q.2 + 8 * j) : p = q ∧ i = j := by
  have hbp := v.bytes_eq p.1
  have hbq := v.bytes_eq q.1
  rcases holder_apart hw ht hp hq with rfl | hlt | hlt
  · exact ⟨rfl, by omega⟩
  · omega
  · omega

theorem Copying.redone (h : v.Copying m₀ u₀ m u c done)
    (hlt : ∀ x, done' x → (u.toSpace.start ≤ x ∧ x < u.toSpace.top) ∨ (u.old.start ≤ x ∧ x < u.old.top))
    (hsub : ∀ p, v.Holder c p → ∀ j ∈ v.oopWords p.1, done (p.2 + 8 * j) → done' (p.2 + 8 * j))
    (hnew : ∀ p, v.Holder c p → ∀ j ∈ v.oopWords p.1, done' (p.2 + 8 * j) →
      ¬ done (p.2 + 8 * j) → v.Moved c (m₀ (p.1 + 8 * j)) (m (p.2 + 8 * j))) :
    v.Copying m₀ u₀ m u c done' := by
  obtain ⟨hc, ht⟩ := h
  refine ⟨⟨hc.forwarded, hc.waiting, hc.source, hc.marks, hc.data, fun p hp j hj hd => ?_,
    fun p hp j hj hd => ?_⟩, ⟨ht.eden, ht.fromSpace, ht.to_same, ht.old_same, ht.nCards, ht.no_stall,
    ht.survivors, ht.promoted, ht.to_le, ht.once, ht.young, hlt, ht.dirty, ht.remembered,
    ht.resolves⟩⟩
  · exact hc.fresh p hp j hj fun hd' => hd (hsub p hp j hj hd')
  · by_cases hd' : done (p.2 + 8 * j)
    · exact hc.moved p hp j hj hd'
    · exact hnew p hp j hj hd hd'

theorem Copying.store (hw : v.Coherent m₀ u₀) (h : v.Copying m₀ u₀ m u c done)
    (hp : v.Holder c p) (hj : j ∈ v.oopWords p.1) {w : Word} (hm : v.Moved c (m₀ (p.1 + 8 * j)) w)
    (hcard : p.1 ∈ v.old → u.cards (u.cardIndex (p.2 + 8 * j)) = true) :
    v.Copying m₀ u₀ (m.write (p.2 + 8 * j) w) u c (fun y => done y ∨ y = p.2 + 8 * j) := by
  obtain ⟨hc, ht⟩ := h
  have hobj := holder_object ht hp
  have hlt := (oopWords_lt (hw.nis_ge hobj) hj).2
  have hj₁ := (oopWords_lt (hw.nis_ge hobj) hj).1
  have hbytes := v.bytes_eq p.1
  have hyoung : ∀ a ∈ v.young, ∀ i, i < (v.shape a).size →
      m.write (p.2 + 8 * j) w (a + 8 * i) = m (a + 8 * i) := by
    intro a ha i hi
    have hb := v.bytes_eq a
    have := young_holder_apart hw ht ha hp
    exact update_of_ne (by omega) _ _
  have hhead : ∀ a ∈ v.young, m.write (p.2 + 8 * j) w a = m a := by
    intro a ha
    have hsize := hw.size_ge (mem_objects.mpr (.inl ha))
    exact hyoung a ha 0 (by omega)
  have hother : ∀ q, v.Holder c q → ∀ i, i < (v.shape q.1).size → (q = p → i ≠ j) →
      m.write (p.2 + 8 * j) w (q.2 + 8 * i) = m (q.2 + 8 * i) := by
    intro q hq i hi hne
    apply update_of_ne
    intro he
    obtain ⟨hqp, hij⟩ := holder_word_inj hw ht hq hp hi hlt he
    exact hne hqp hij
  have hword : ∀ q, v.Holder c q → ∀ i ∈ v.oopWords q.1, ¬ (q = p ∧ i = j) →
      m.write (p.2 + 8 * j) w (q.2 + 8 * i) = m (q.2 + 8 * i) := by
    intro q hq i hi hne
    exact hother q hq i (oopWords_lt (hw.nis_ge (holder_object ht hq)) hi).2
      fun hqp hij => hne ⟨hqp, hij⟩
  refine ⟨⟨fun q hq => ?_, fun a ha hno => ?_, fun a ha i hi hlt' => ?_, fun q hq => ?_,
    fun q hq i hi hlt' hdata => ?_, fun q hq i hi hd => ?_, fun q hq i hi hd => ?_⟩,
    ⟨ht.eden, ht.fromSpace, ht.to_same, ht.old_same, ht.nCards, ht.no_stall, ht.survivors,
    ht.promoted, ht.to_le, ht.once, ht.young, fun y hy => ?_, ht.dirty, fun a ha i hi hnewer => ?_,
    ht.resolves⟩⟩
  · rw [hhead q.1 (ht.young q hq)]
    exact hc.forwarded q hq
  · rw [hhead a ha]
    exact hc.waiting a ha hno
  · rw [hyoung a ha i hlt']
    exact hc.source a ha i hi hlt'
  · have hsize := hw.size_ge (holder_object ht hq)
    have := hother q hq 0 (by omega) (fun _ => by omega)
    rw [Nat.mul_zero, Nat.add_zero] at this
    rw [this]
    exact hc.marks q hq
  · rw [hother q hq i hlt' fun hqp hij => ?_]
    · exact hc.data q hq i hi hlt' hdata
    · rw [hqp, hij] at hdata
      exact hdata hj
  · have hne : ¬ (q = p ∧ i = j) := by
      intro ⟨hqp, hij⟩
      rw [hqp, hij] at hd
      exact hd (.inr rfl)
    rw [hword q hq i hi hne]
    exact hc.fresh q hq i hi fun hd' => hd (.inl hd')
  · by_cases hne : q = p ∧ i = j
    · obtain ⟨rfl, rfl⟩ := hne
      unfold Memory.write
      rw [update_self]
      exact hm
    · rw [hword q hq i hi hne]
      rcases hd with hd | he
      · exact hc.moved q hq i hi hd
      · have hlt' := (oopWords_lt (hw.nis_ge (holder_object ht hq)) hi).2
        exact absurd (holder_word_inj hw ht hq hp hlt' hlt he) hne
  · rcases hy with hy | rfl
    · exact ht.done_lt y hy
    · have := holder_bounds hw ht hp
      omega
  · by_cases hne : (a, a) = p ∧ i = j
    · obtain ⟨rfl, rfl⟩ := hne
      exact hcard ha
    · rw [hword (a, a) (.inr ⟨ha, rfl⟩) i hi hne] at hnewer
      exact ht.remembered a ha i hi hnewer

structure KeptBut (v : HeapView) (x : Nat) (m : Memory) (u : Universe) (c : Copies) (m' : Memory)
    (u' : Universe) (c' : Copies) : Prop where
  extends_ : c.Extends c'
  cards : ∀ i, u.cards i = true → u'.cards i = true
  words : ∀ p, v.Holder c p → ∀ j, j < (v.shape p.1).size → p.2 + 8 * j ≠ x → m' (p.2 + 8 * j) = m (p.2 + 8 * j)

theorem holder_valid (hw : v.Coherent m₀ u₀) (ht : v.Targets u₀ u m c done) (hp : v.Holder c p)
    (hj : j ∈ v.oopWords p.1) : v.Valid (m₀ (p.1 + 8 * j)) :=
  hw.slots p.1 (holder_object ht hp) j hj

theorem slot_spec (hw : v.Coherent m₀ u₀) (hroom : Room u₀) (h : v.Copying m₀ u₀ m u c done)
    (hp : v.Holder c p) (hj : j ∈ v.oopWords p.1) (hfresh : ¬ done (p.2 + 8 * j))
    (hcard : p.1 ∈ v.old → u.cards (u.cardIndex (p.2 + 8 * j)) = true) :
    ∃ w' m' u' c', Universe.scavengeOop m u (m (p.2 + 8 * j)) = some (w', m', u') ∧
      v.Copying m₀ u₀ (m'.write (p.2 + 8 * j) w') u' c' (fun y => done y ∨ y = p.2 + 8 * j) ∧
      v.KeptBut (p.2 + 8 * j) m u c (m'.write (p.2 + 8 * j) w') u' c' := by
  have hword := h.contents.fresh p hp j hj hfresh
  obtain ⟨w', m', u', c', hrun, h', hm, hk⟩ := scavengeOop_spec hw hroom h (holder_valid hw h.targets hp hj)
  rw [← hword] at hrun
  have hidx : u'.cardIndex (p.2 + 8 * j) = u.cardIndex (p.2 + 8 * j) := by
    unfold Universe.cardIndex
    rw [h'.targets.old_same.1, h.targets.old_same.1]
  refine ⟨w', m', u', c', hrun, h'.store hw (hp.extend hk.extends_) hj hm fun ho => ?_,
    hk.extends_, hk.cards, fun q hq i hi hne => ?_⟩
  · rw [hidx]
    exact hk.cards _ (hcard ho)
  · rw [← hk.words q hq i hi]
    exact update_of_ne hne _ _

end WinArmVm.HeapView
