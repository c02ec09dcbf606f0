import WinArmVm.Scavenge
import WinArmVm.OffsetTable
import WinArmVm.HeapGraph

namespace WinArmVm

open Tiling

/-- The copies of a cycle in the order they were made: what was copied, and where to. -/
structure Copies where
  survivors : List (Nat × Nat)
  promoted : List (Nat × Nat)

def Copies.pairs (c : Copies) : List (Nat × Nat) := c.survivors ++ c.promoted

namespace HeapView

def Moved (v : HeapView) (c : Copies) (w w' : Word) : Prop :=
  match w with
  | .mem x => (x ∈ v.young ∧ ∃ d, (x, d) ∈ c.pairs ∧ w' = .mem d) ∨ (x ∉ v.young ∧ w' = w)
  | _ => w' = w

def Holder (v : HeapView) (c : Copies) (p : Nat × Nat) : Prop := p ∈ c.pairs ∨ p.1 ∈ v.old ∧ p.2 = p.1

/-- Memory during a cycle against memory before it. A copied object is left as it was
but for its header; its copy and the old objects have the words they had, but for the
oop slots in `done`, which have been moved. -/
structure Contents (v : HeapView) (m₀ m : Memory) (c : Copies) (done : Nat → Prop) : Prop where
  forwarded : ∀ p ∈ c.pairs, m p.1 = .mem p.2
  waiting : ∀ a ∈ v.young, (∀ d, (a, d) ∉ c.pairs) → m a = m₀ a
  source : ∀ a ∈ v.young, ∀ j, 1 ≤ j → j < (v.shape a).size → m (a + 8 * j) = m₀ (a + 8 * j)
  marks : ∀ p, v.Holder c p → SameMark (m₀ p.1) (m p.2)
  data : ∀ p, v.Holder c p → ∀ j, 1 ≤ j → j < (v.shape p.1).size → j ∉ v.oopWords p.1 →
    m (p.2 + 8 * j) = m₀ (p.1 + 8 * j)
  fresh : ∀ p, v.Holder c p → ∀ j ∈ v.oopWords p.1, ¬ done (p.2 + 8 * j) → m (p.2 + 8 * j) = m₀ (p.1 + 8 * j)
  moved : ∀ p, v.Holder c p → ∀ j ∈ v.oopWords p.1, done (p.2 + 8 * j) → v.Moved c (m₀ (p.1 + 8 * j)) (m (p.2 + 8 * j))

/-- The spaces during a cycle: survivors fill to-space, promoted objects the old
generation from its old top on, every one of them copied once and on dirty cards. -/
structure Targets (v : HeapView) (u₀ u : Universe) (m : Memory) (c : Copies) (done : Nat → Prop) : Prop where
  eden : u.eden = u₀.eden
  fromSpace : u.fromSpace = u₀.fromSpace
  to_same : u.toSpace.start = u₀.toSpace.start ∧ u.toSpace.stop = u₀.toSpace.stop
  old_same : u.old.start = u₀.old.start ∧ u.old.bound = u₀.old.bound ∧ u.old.committedEnd = u₀.old.committedEnd
  nCards : u.nCards = u₀.nCards
  no_stall : u.pendingStall = false
  survivors : Tiles Prod.snd (fun p => v.bytes p.1) u₀.toSpace.start c.survivors u.toSpace.top
  promoted : Tiles Prod.snd (fun p => v.bytes p.1) u₀.old.top c.promoted u.old.top
  to_le : u.toSpace.top ≤ u.toSpace.stop
  once : (c.pairs.map Prod.fst).Nodup
  young : ∀ p ∈ c.pairs, p.1 ∈ v.young
  done_lt : ∀ x, done x → (u.toSpace.start ≤ x ∧ x < u.toSpace.top) ∨ (u.old.start ≤ x ∧ x < u.old.top)
  dirty : ∀ x, u₀.old.top ≤ x → x < u.old.top → u.cards (u.cardIndex x) = true
  remembered : ∀ a ∈ v.old, ∀ j ∈ v.oopWords a, u.isNewOop (m (a + 8 * j)) = true →
    u.cards (u.cardIndex (a + 8 * j)) = true
  resolves : u.Resolves (v.oldBlocks ++ c.promoted.map fun p => (p.2, v.bytes p.1))

structure Copying (v : HeapView) (m₀ : Memory) (u₀ : Universe) (m : Memory) (u : Universe)
    (c : Copies) (done : Nat → Prop) : Prop where
  contents : v.Contents m₀ m c done
  targets : v.Targets u₀ u m c done

def Version (c : Copies) (k k' : Nat) : Prop := k' = k ∨ (k, k') ∈ c.pairs

variable {v : HeapView} {m₀ m : Memory} {u₀ u : Universe} {c c' : Copies} {done : Nat → Prop}
  {a b k k' j : Nat} {w w' : Word} {p q : Nat × Nat}

theorem Moved.mono (h : v.Moved c w w') (hsub : ∀ p ∈ c.pairs, p ∈ c'.pairs) : v.Moved c' w w' := by
  unfold Moved at h ⊢
  cases w with
  | mem x =>
    rcases h with ⟨hy, d, hd, he⟩ | h
    · exact .inl ⟨hy, d, hsub _ hd, he⟩
    · exact .inr h
  | smi i => exact h
  | mark i => exact h
  | bits i => exact h

theorem Moved.smi {i : Int} (h : v.Moved c (.smi i) w') : w' = .smi i := h

theorem Moved.mem {x : Nat} (h : v.Moved c (.mem x) w') : ∃ x', w' = .mem x' ∧ Version c x x' := by
  rcases h with ⟨_, d, hd, he⟩ | ⟨_, he⟩
  · exact ⟨d, he, .inr hd⟩
  · exact ⟨x, he, .inl rfl⟩

section Reading

variable (hw : v.Coherent m₀ u₀) (h : v.Contents m₀ m c done)

include h

section

variable (hk : k ∈ v.objects) (hv : Version c k k') (hj : 1 ≤ j)

include hk hv hj

section

variable (hlt : j < (v.shape k).size)

include hlt

theorem Contents.word : m (k' + 8 * j) = m₀ (k + 8 * j) ∨ v.Moved c (m₀ (k + 8 * j)) (m (k' + 8 * j)) := by
  have hholder : v.Holder c (k, k') →
      m (k' + 8 * j) = m₀ (k + 8 * j) ∨ v.Moved c (m₀ (k + 8 * j)) (m (k' + 8 * j)) := by
    intro hp
    by_cases ho : j ∈ v.oopWords k
    · by_cases hd : done (k' + 8 * j)
      · exact .inr (h.moved (k, k') hp j ho hd)
      · exact .inl (h.fresh (k, k') hp j ho hd)
    · exact .inl (h.data (k, k') hp j hj hlt ho)
  rcases hv with rfl | hp
  · rcases mem_objects.mp hk with hy | ho
    · exact .inl (h.source k' hy j hj hlt)
    · exact hholder (.inr ⟨ho, rfl⟩)
  · exact hholder (.inl hp)

theorem Contents.word_smi {i : Int} (hi : m₀ (k + 8 * j) = .smi i) : m (k' + 8 * j) = .smi i := by
  rcases h.word hk hv hj hlt with he | hm
  · rw [he, hi]
  · rw [hi] at hm
    exact hm.smi

theorem Contents.word_mem {x : Nat} (hx : m₀ (k + 8 * j) = .mem x) :
    ∃ x', m (k' + 8 * j) = .mem x' ∧ Version c x x' := by
  rcases h.word hk hv hj hlt with he | hm
  · exact ⟨x, by rw [he, hx], .inl rfl⟩
  · rw [hx] at hm
    exact hm.mem

theorem Contents.count {n : Nat} (hn : Memory.count (m₀ (k + 8 * j)) = some n) :
    Memory.count (m (k' + 8 * j)) = some n := by
  cases hword : m₀ (k + 8 * j) with
  | smi x =>
    rw [h.word_smi hk hv hj hlt hword, ← hword]
    exact hn
  | mem x => simp [hword, Memory.count] at hn
  | mark x => simp [hword, Memory.count] at hn
  | bits x => simp [hword, Memory.count] at hn

end

end

include hw

section

variable (hk : k ∈ v.objects) (hf : (v.shape k).format = .klass) (hv : Version c k k')

include hk hf hv

theorem Contents.formatSmiValue {i : Int} (hi : m₀.formatSmiValue k = some i) : m.formatSmiValue k' = some i := by
  have hsize := hw.klass_size_ge hk hf
  unfold Memory.formatSmiValue Memory.rawBodyWord at hi ⊢
  rw [Memory.bodyAddr_eq] at hi ⊢
  cases hword : m₀ (k + 8 * (0 + 2)) with
  | smi x =>
    rw [hword] at hi
    rw [h.word_smi hk hv (by omega) (by omega) hword]
    exact hi
  | mem x => simp [hword] at hi
  | mark x => simp [hword] at hi
  | bits x => simp [hword] at hi

theorem Contents.format {f : Format} (hi : m₀.format k = some f) : m.format k' = some f := by
  obtain ⟨i, hi, he⟩ := Option.bind_eq_some_iff.mp hi
  exact Option.bind_eq_some_iff.mpr ⟨i, h.formatSmiValue hw hk hf hv hi, he⟩

theorem Contents.nonIndexableSize {n : Nat} (hn : m₀.nonIndexableSize k = some n) : m.nonIndexableSize k' = some n := by
  have hsize := hw.klass_size_ge hk hf
  unfold Memory.nonIndexableSize Memory.rawBodyWord at hn ⊢
  rw [Memory.bodyAddr_eq] at hn ⊢
  exact h.count hk hv (by omega) (by omega) hn

omit hk hf hv in
theorem Contents.klassOop (ha : a ∈ v.objects) (hv : Version c a b) :
    ∃ k', m.klassOop b = .mem k' ∧ Version c (v.shape a).klass k' :=
  h.word_mem ha hv (Nat.le_refl 1) (hw.size_ge ha) (hw.shaped a ha).klass

theorem Contents.klassTryFrom : m.klassTryFrom (.mem k') = some k' := by
  obtain ⟨kk, hkk, hvk⟩ := h.klassOop hw hk hv
  have hs := hw.shaped k hk
  have hformat := h.format hw hs.klass_mem hs.klass_format hvk hs.reads.format
  unfold Memory.klassTryFrom
  simp only [hkk, hformat, hf, if_true]

end

theorem Contents.reads (ha : a ∈ v.objects) (hv : Version c a b)
    (hk : Version c (v.shape a).klass k') : m.Reads b k' (v.shape a) := by
  have hs := hw.shaped a ha
  refine ⟨h.format hw hs.klass_mem hs.klass_format hk hs.reads.format,
    h.nonIndexableSize hw hs.klass_mem hs.klass_format hk hs.reads.nis, hs.reads.nis_ge, fun hi => ?_⟩
  have hlen := hs.reads.len hi
  have hnis := hs.reads.nis_ge
  have hlt := Shape.nis_lt_size hi
  unfold Memory.rawSizeSlot Memory.rawBodyWord at hlen ⊢
  rw [Memory.bodyAddr_eq] at hlen ⊢
  unfold headerWords at hlen ⊢
  exact h.count ha hv (by omega) (by omega) hlen

theorem Contents.klass (ha : a ∈ v.objects) (hv : Version c a b) :
    ∃ k', m.klass b = some k' ∧ Version c (v.shape a).klass k' := by
  obtain ⟨k', hk, hvk⟩ := h.klassOop hw ha hv
  have hs := hw.shaped a ha
  refine ⟨k', ?_, hvk⟩
  unfold Memory.klass
  rw [hk]
  exact h.klassTryFrom hw hs.klass_mem hs.klass_format hvk

theorem Contents.objectSizeForCopy (ha : a ∈ v.young) : Universe.objectSizeForCopy m a = some (v.shape a).size := by
  have hobj : a ∈ v.objects := mem_objects.mpr (.inl ha)
  have hs := hw.shaped a hobj
  have hklass : m.klassOop a = .mem (v.shape a).klass := by
    have := h.source a ha 1 (Nat.le_refl 1) (hw.size_ge hobj)
    exact this.trans hs.klass
  have hsize : ∀ k', Version c (v.shape a).klass k' →
      (m.klassTryFrom (.mem k')).bind (fun k => m.sizeWordsForKlass a k) =
        some (v.shape a).size := by
    intro k' hv
    rw [h.klassTryFrom hw hs.klass_mem hs.klass_format hv]
    exact (h.reads hw hobj (.inl rfl) hv).size
  unfold Universe.objectSizeForCopy Universe.effectiveKlass
  rw [hklass]
  dsimp only
  have hself := hsize _ (.inl rfl)
  cases hhead : m (v.shape a).klass with
  | mem d =>
    -- only a copied klass has an address for a header
    have hpair : ((v.shape a).klass, d) ∈ c.pairs := by
      rcases mem_objects.mp hs.klass_mem with hy | ho
      · by_contra hno
        by_cases hany : ∃ d', ((v.shape a).klass, d') ∈ c.pairs
        · obtain ⟨d', hd'⟩ := hany
          have hf := h.forwarded _ hd'
          rw [hhead] at hf
          cases hf
          exact hno hd'
        · have hwait := h.waiting _ hy (fun d' hd' => hany ⟨d', hd'⟩)
          obtain ⟨mark, hm, _⟩ := hw.marks _ hs.klass_mem
          rw [hwait, hm] at hhead
          cases hhead
      · obtain ⟨_, mark', _, hm, _⟩ := h.marks (_, _) (.inr ⟨ho, rfl⟩)
        rw [hhead] at hm
        cases hm
    exact hsize d (.inr hpair)
  | smi x => exact hself
  | mark x => exact hself
  | bits x => exact hself

end Reading

end HeapView

end WinArmVm
