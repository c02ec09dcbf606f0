import WinArmVm.HeapCollections

namespace WinArmVm.VmHeap

open List Function

variable {h h' : VmHeap} {v : HeapView}

theorem handle_words (h : VmHeap) (w : Word) {x : Word} : x ∈ (h.handle w).roots.words ↔ x ∈ h.roots.words ∨ x = w := by
  unfold handle Roots.words
  simp only [mem_append, mem_singleton]
  tauto

theorem handle_sound (hs : h.Sound v) {w : Word} (hw : v.Valid w) : (h.handle w).Sound v := by
  refine ⟨hs.wellFormed, fun x hx => ?_⟩
  rcases (handle_words h w).mp hx with hx | rfl
  · exact hs.roots x hx
  · exact hw

section

variable {k a i : Nat} {s : Shape} {w : Word} {ws : List (Word × Nat)}

theorem setRawBodyWords_cases (ws : List (Word × Nat)) (a : Nat) (m : Memory) (y : Nat) :
    ws.foldl (fun m p => m.setRawBodyWord a p.2 p.1) m y = m y ∨
      ∃ p ∈ ws, y = Memory.bodyAddr a p.2 ∧ ws.foldl (fun m p => m.setRawBodyWord a p.2 p.1) m y = p.1 := by
  induction ws generalizing m with
  | nil => exact .inl rfl
  | cons p ws ih =>
    rw [foldl_cons]
    rcases ih (m.setRawBodyWord a p.2 p.1) with hsame | ⟨q, hq, hy, hval⟩
    · by_cases hy : y = Memory.bodyAddr a p.2
      · refine .inr ⟨p, mem_cons_self, hy, hsame.trans ?_⟩
        rw [hy]
        exact update_self ..
      · exact .inl (hsame.trans (update_of_ne hy ..))
    · exact .inr ⟨q, mem_cons_of_mem p hq, hy, hval⟩

/-- The word may go to the body word `i` of the object: it leads to an object, and what a klass says of its
instances is left alone. -/
def Takes (v : HeapView) (a : Nat) (p : Word × Nat) : Prop :=
  p.2 ∈ (v.shape a).bodyOops ∧ ((v.shape a).format = .klass → 2 ≤ p.2) ∧ v.Valid p.1

section

variable (hs : h.Sound v) (ha : a ∈ v.objects) (hws : ∀ p ∈ ws, Takes v a p)

include hs ha hws

theorem written_word {b j : Nat} (hb : b ∈ v.objects) (hj : j < (v.shape b).size) :
    (h.setRawBodyWords a ws).m (b + 8 * j) = h.m (b + 8 * j) ∨
      ∃ p ∈ ws, b = a ∧ j = p.2 + 2 ∧ (h.setRawBodyWords a ws).m (b + 8 * j) = p.1 := by
  have hw := hs.wellFormed
  rcases setRawBodyWords_cases ws a h.m (b + 8 * j) with hsame | ⟨p, hp, hy, hval⟩
  · exact .inl hsame
  · rw [Memory.bodyAddr_eq] at hy
    have hlt := (Shape.bodyOops_lt (hw.nis_ge ha) (hws p hp).1).1
    obtain ⟨rfl, rfl⟩ := hw.word_inj hb ha hj hlt hy
    exact .inr ⟨p, hp, rfl, rfl, hval⟩

theorem written_shaped {b : Nat} (hb : b ∈ v.objects) : v.Shaped (h.setRawBodyWords a ws).m b := by
  have hw := hs.wellFormed
  have hsame {c j : Nat} (hc : c ∈ v.objects) (hj : j < (v.shape c).size)
      (hno : c = a → ∀ p ∈ ws, j ≠ p.2 + 2) : (h.setRawBodyWords a ws).m (c + 8 * j) = h.m (c + 8 * j) := by
    rcases written_word hs ha hws hc hj with he | ⟨p, hp, hca, he, _⟩
    · exact he
    · exact absurd he (hno hca p hp)
  have hshaped := hw.shaped b hb
  have hk := hshaped.klass_mem
  have hsize := hw.klass_size_ge hk hshaped.klass_format
  have hklassword : ∀ i < 2, (h.setRawBodyWords a ws).m.rawBodyWord (v.shape b).klass i =
      h.m.rawBodyWord (v.shape b).klass i := by
    intro i hi
    unfold Memory.rawBodyWord
    rw [Memory.bodyAddr_eq]
    refine hsame hk (by omega) fun hka p hp => ?_
    have := (hws p hp).2.1 (hka ▸ hshaped.klass_format)
    omega
  refine ⟨?_, ?_, hk, hshaped.klass_format, hshaped.klass_nis⟩
  · exact (hsame hb (j := 1) (hw.size_ge hb) fun _ p _ => by omega).trans hshaped.klass
  · refine hshaped.reads.transport (fun i w hi hsmi => (hklassword i hi).trans hsmi) fun w hindex hsmi => ?_
    have hge := hw.nis_ge hb
    have hlt := Shape.nis_lt_size hindex
    rw [← hsmi]
    unfold Memory.rawBodyWord
    rw [Memory.bodyAddr_eq]
    unfold headerWords
    refine hsame hb (by omega) fun hba p hp => ?_
    have htakes := (hws p hp).1
    rw [← hba] at htakes
    have hne := (Shape.bodyOops_lt hge htakes).2 hindex
    unfold headerWords at hne
    omega

theorem written_sound {cards : Nat → Bool} (hrem : ∀ b ∈ v.old, ∀ j ∈ v.oopWords b,
      h.u.isNewOop ((h.setRawBodyWords a ws).m (b + 8 * j)) = true → cards (h.u.cardIndex (b + 8 * j)) = true) :
    { h.setRawBodyWords a ws with u := { h.u with cards := cards } }.Sound v := by
  have hw := hs.wellFormed
  have hg := hw.geometry
  refine ⟨⟨⟨⟨hg.eden_le, hg.from_le, hg.to_le, hg.old_le, hg.eden_from, hg.eden_to, hg.from_to, hg.from_old, hg.to_old,
    hg.cards⟩, hw.eden, hw.survivors, hw.old, hw.to_empty, hw.no_stall, fun b hb => written_shaped hs ha hws hb, fun b hb => ?_, fun b hb j hj => ?_, hw.resolves.congr rfl rfl rfl, hrem⟩,
    hw.sizes⟩, hs.roots⟩
  · obtain ⟨mark, hm, hclear⟩ := hw.marks b hb
    rcases written_word hs ha hws hb (j := 0) (Nat.lt_of_lt_of_le (by decide) (hw.size_ge hb)) with he | ⟨p, _, _, he, _⟩
    · exact ⟨mark, he.trans hm, hclear⟩
    · omega
  · rcases written_word hs ha hws hb (HeapView.oopWords_lt (hw.nis_ge hb) hj).2 with he | ⟨p, hp, _, _, he⟩
    · show v.Valid ((h.setRawBodyWords a ws).m (b + 8 * j))
      rw [he]
      exact hw.slots b hb j hj
    · show v.Valid ((h.setRawBodyWords a ws).m (b + 8 * j))
      rw [he]
      exact (hws p hp).2.2

end

theorem store_sound (hs : h.Sound v) (ha : a ∈ v.objects) (htakes : Takes v a (w, i)) : (h.store a i w).Sound v := by
  have hw := hs.wellFormed
  have hws : ∀ p ∈ [(w, i)], Takes v a p := by
    intro p hp
    rw [mem_singleton.mp hp]
    exact htakes
  have hcards : ∃ cards, (if h.u.isOld a && h.u.isNewOop w then h.u.dirtyForSlot (Memory.bodyAddr a i) else h.u) =
      { h.u with cards := cards } ∧ (∀ c, h.u.cards c = true → cards c = true) ∧
      (h.u.isOld a = true → h.u.isNewOop w = true → cards (h.u.cardIndex (Memory.bodyAddr a i)) = true) := by
    by_cases hboth : (h.u.isOld a && h.u.isNewOop w) = true
    · rw [if_pos hboth]
      refine ⟨_, rfl, fun c hc => ?_, fun _ _ => update_self ..⟩
      by_cases he : c = h.u.cardIndex (Memory.bodyAddr a i)
      · rw [he]
        exact update_self ..
      · exact (update_of_ne he ..).trans hc
    · rw [if_neg hboth]
      exact ⟨h.u.cards, rfl, fun _ hc => hc, fun ho hn => absurd (Bool.and_eq_true_iff.mpr ⟨ho, hn⟩) hboth⟩
  obtain ⟨cards, hu, hkeep, hdirty⟩ := hcards
  have hstore : h.store a i w = { h.setRawBodyWords a [(w, i)] with u := { h.u with cards := cards } } := by
    unfold store
    rw [hu]
    rfl
  rw [hstore]
  refine written_sound hs ha hws fun b hb j hj hnew => ?_
  have hobj := HeapView.mem_objects.mpr (.inr hb)
  rcases written_word hs ha hws hobj (HeapView.oopWords_lt (hw.nis_ge hobj) hj).2 with he | ⟨p, hp, rfl, rfl, he⟩
  · rw [he] at hnew
    exact hkeep _ (hw.remembered b hb j hj hnew)
  · rw [he, mem_singleton.mp hp] at hnew
    rw [mem_singleton.mp hp, ← Memory.bodyAddr_eq]
    exact hdirty (decide_eq_true (hw.old_bounds hb).1) hnew

theorem postWriteBarrier_sound (hs : h.Sound v) (ha : a ∈ v.objects) (hws : ∀ p ∈ ws, Takes v a p)
    (hrun : (h.setRawBodyWords a ws).postWriteBarrier a = some h') : h'.Sound v := by
  have hw := hs.wellFormed
  have hkeep (cards : Nat → Bool) (hall : ∀ c, h.u.cards c = true → cards c = true)
      (hobj : a ∈ v.old → ∀ j < (v.shape a).size, cards (h.u.cardIndex (a + 8 * j)) = true) :
      { h.setRawBodyWords a ws with u := { h.u with cards := cards } }.Sound v := by
    refine written_sound hs ha hws fun b hb j hj hnew => ?_
    have hobject := HeapView.mem_objects.mpr (.inr hb)
    have hlt := (HeapView.oopWords_lt (hw.nis_ge hobject) hj).2
    rcases written_word hs ha hws hobject hlt with he | ⟨p, _, rfl, rfl, _⟩
    · rw [he] at hnew
      exact hall _ (hw.remembered b hb j hj hnew)
    · exact hobj hb _ hlt
  have hsize : (h.setRawBodyWords a ws).m.instanceSizeWords a = some (v.shape a).size := by
    have hall := (hkeep (fun _ => true) (fun _ _ => rfl) fun _ _ _ => rfl).wellFormed
    have hklass : (h.setRawBodyWords a ws).m.klass a = some (v.shape a).klass := hall.klass ha
    unfold Memory.instanceSizeWords
    rw [hklass]
    exact (hall.shaped a ha).reads.size
  unfold postWriteBarrier at hrun
  rw [hsize] at hrun
  split at hrun
  next hold =>
    cases hrun
    have hpos := hw.bytes_pos ha
    have hbytes := v.bytes_eq a
    have hrange : a < a + (v.shape a).size * wordSize := by
      unfold wordSize
      omega
    dsimp only
    unfold Universe.recordMultistores
    rw [if_pos hrange]
    refine hkeep _ (fun c hc => Bool.or_eq_true_iff.mpr (.inr hc)) fun _ j hj => ?_
    refine Bool.or_eq_true_iff.mpr (.inl (Bool.and_eq_true_iff.mpr ⟨?_, ?_⟩))
    all_goals
      apply decide_eq_true
      simp only [Universe.cardIndex, cardSize, wordSize, setRawBodyWords]
      omega
  next hold =>
    cases hrun
    refine hkeep _ (fun _ hc => hc) fun hin => ?_
    exact absurd (decide_eq_true (hw.old_bounds hin).1) hold

end

def Holds (h : VmHeap) (w : Word) : Prop := w ∈ h.roots.words ∨ ∃ i, w = .smi i

structure SlotOf (h : VmHeap) (a i : Nat) : Prop where
  root : .mem a ∈ h.roots.words
  slot : ∃ k s, h.m.Object a k s ∧ i ∈ s.bodyOops ∧ (s.format = .klass → 2 ≤ i)

/-- What the mutator and its collectors do in turn: the roots shrink or are handed round, words are read
and stored, and either collector runs at any moment. -/
inductive Step : VmHeap → VmHeap → Prop
  | roots {h : VmHeap} {r : Roots} (hr : ∀ w ∈ r.words, h.Holds w) : Step h { h with roots := r }
  | load {h : VmHeap} {a k j : Nat} {s : Shape} (ha : .mem a ∈ h.roots.words) (ho : h.m.Object a k s)
      (hj : j ∈ s.oopWords) : Step h (h.handle (h.m (a + 8 * j)))
  | store {h : VmHeap} {a i : Nat} {w : Word} (ha : h.SlotOf a i) (hw : h.Holds w) : Step h (h.store a i w)
  | write {h h' : VmHeap} {a : Nat} {ws : List (Word × Nat)} (ha : .mem a ∈ h.roots.words)
      (hws : ∀ p ∈ ws, h.SlotOf a p.2 ∧ h.Holds p.1) (hrun : (h.setRawBodyWords a ws).postWriteBarrier a = some h') :
      Step h h'
  | grow {h : VmHeap} (segment : Nat) : Step h (h.growOld (h.u.old.grow segment))
  | collectYoung {h h' : VmHeap} (hres : h.Reserved) (hrun : h.collectYoung = some h') : Step h h'
  | fullGc {h h' : VmHeap} (hrun : h.fullGc = some h') : Step h h'

section

variable (hs : h.Sound v)

include hs

theorem root_object {a : Nat} (ha : .mem a ∈ h.roots.words) : a ∈ v.objects := hs.roots _ ha a rfl

theorem holds_valid {w : Word} (hw : h.Holds w) : v.Valid w := by
  rcases hw with hw | ⟨i, rfl⟩
  · exact hs.roots w hw
  · intro x hx
    cases hx

theorem slotOf_takes {a i : Nat} {w : Word} (ha : h.SlotOf a i) (hw : h.Holds w) : Takes v a (w, i) := by
  obtain ⟨k, s, ho, hi, hklass⟩ := ha.slot
  have hobj := hs.wellFormed.object (root_object hs ha.root)
  have hk := ho.klass_eq hobj
  subst hk
  have hformat : s.format = (v.shape a).format := Option.some.inj (ho.2.format.symm.trans hobj.2.format)
  refine ⟨?_, fun hf => hklass (hformat.trans hf), holds_valid hs hw⟩
  have hmem : i + 2 ∈ s.oopWords := mem_cons.mpr (.inr (mem_map.mpr ⟨i, hi, rfl⟩))
  rw [ho.oopWords_eq hobj] at hmem
  exact HeapView.body_mem_oopWords.mp hmem

theorem Step.sound (hstep : Step h h') : ∃ v', h'.Sound v' := by
  cases hstep with
  | roots hr => exact ⟨v, hs.wellFormed, fun w hw => holds_valid hs (hr w hw)⟩
  | @load a k j s ha ho hj =>
    have hobj := root_object hs ha
    rw [ho.oopWords_eq (hs.wellFormed.object hobj)] at hj
    exact ⟨v, handle_sound hs (hs.wellFormed.slots a hobj j hj)⟩
  | store ha hw => exact ⟨v, store_sound hs (root_object hs ha.root) (slotOf_takes hs ha hw)⟩
  | write ha hws hrun =>
    exact ⟨v, postWriteBarrier_sound hs (root_object hs ha) (fun p hp => slotOf_takes hs (hws p hp).1 (hws p hp).2) hrun⟩
  | grow segment => exact ⟨v, (Collected.grown_segment hs segment).sound⟩
  | collectYoung hres hrun =>
    obtain ⟨v', hc⟩ := collectYoung_collects hs hres hrun
    exact ⟨v', hc.sound⟩
  | fullGc hrun =>
    obtain ⟨v', hc⟩ := fullGc_collects hs hrun
    exact ⟨v', hc.sound⟩

theorem run_sound (hrun : Relation.ReflTransGen Step h h') : ∃ v', h'.Sound v' := by
  induction hrun with
  | refl => exact ⟨v, hs⟩
  | tail _ hstep ih =>
    obtain ⟨v', hs'⟩ := ih
    exact hstep.sound hs'

theorem reachable_object {a : Nat} (ha : h.m.Reachable h.roots.words a) : a ∈ v.objects := by
  induction ha with
  | root hr => exact root_object hs hr
  | @slot a k j x s _ ho hj hx ih =>
    rw [ho.oopWords_eq (hs.wellFormed.object ih)] at hj
    exact hs.wellFormed.slots a ih j hj x hx

end

/-- The `n` bytes from `a` on are in use. -/
def InUse (h : VmHeap) (a n : Nat) : Prop :=
  (h.u.eden.start ≤ a ∧ a + n ≤ h.u.eden.top) ∨ (h.u.fromSpace.start ≤ a ∧ a + n ≤ h.u.fromSpace.top) ∨
    (h.u.old.start ≤ a ∧ a + n ≤ h.u.old.top)

/-- In whatever order the mutator and the collectors take turns: every address that can be reached is one of
an object in use, a full collection runs to its end, and so does a scavenge while the reservation has room. -/
theorem runs_keep_heap (hs : h.Sound v) (hrun : Relation.ReflTransGen Step h h') :
    (∀ a, h'.m.Reachable h'.roots.words a → ∃ k s, h'.m.Object a k s ∧ h'.InUse a s.bytes) ∧
      (h'.gcEnabled = true → h'.fullGc.isSome = true ∧ (h'.Reserved → h'.collectYoung.isSome = true)) ∧
      ∃ v', h'.Sound v' := by
  obtain ⟨v', hs'⟩ := run_sound hs hrun
  have hw := hs'.wellFormed
  refine ⟨fun a ha => ?_, fun hg => ⟨fullGc_runs hs' hg, fun hres => collectYoung_runs hs' hres hg⟩, v', hs'⟩
  have hobj := reachable_object hs' ha
  refine ⟨_, v'.shape a, hw.object hobj, ?_⟩
  rcases HeapView.mem_objects.mp hobj with hy | ho
  · rcases hw.young_bounds hy with he | hf
    · exact .inl he
    · exact .inr (.inl hf)
  · exact .inr (.inr (hw.old_bounds ho))

open HeapView

def tightHeap : VmHeap := ⟨tight, tightMemory, tightRoots, true, false, none, 0, true⟩

theorem tightHeap_sound : tightHeap.Sound tightView where
  wellFormed := ⟨tight_coherent, fun a ha => by
    rcases mem_tightView ha with rfl | rfl | rfl | rfl | rfl <;> decide⟩
  roots := tightRoots_valid

/-- A young object stored in an old one, and a scavenge. -/
theorem runs_keep_heap_tight : ∃ h', (tightHeap.store 4160 0 (.mem 1024)).collectYoung = some h' ∧
    (∀ a, h'.m.Reachable h'.roots.words a → ∃ k s, h'.m.Object a k s ∧ h'.InUse a s.bytes) ∧
      (h'.gcEnabled = true → h'.fullGc.isSome = true ∧ (h'.Reserved → h'.collectYoung.isSome = true)) ∧
      ∃ v', h'.Sound v' := by
  have hobj : 4160 ∈ tightView.objects := by decide
  have hslot : tightHeap.SlotOf 4160 0 :=
    ⟨by decide, _, _, tight_coherent.object hobj, by decide, fun hf => absurd hf (by decide)⟩
  have hstore : Relation.ReflTransGen Step tightHeap (tightHeap.store 4160 0 (.mem 1024)) :=
    Relation.ReflTransGen.single (Step.store hslot (.inl (by decide)))
  have hres : (tightHeap.store 4160 0 (.mem 1024)).Reserved := by
    unfold Reserved
    decide
  obtain ⟨h', hrun⟩ := Option.isSome_iff_exists.mp (((runs_keep_heap tightHeap_sound hstore).2.1 rfl).2 hres)
  exact ⟨h', hrun, runs_keep_heap tightHeap_sound (hstore.tail (Step.collectYoung hres hrun))⟩

end WinArmVm.VmHeap
