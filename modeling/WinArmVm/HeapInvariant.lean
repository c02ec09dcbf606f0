import WinArmVm.ObjectShape
import WinArmVm.Universe
import WinArmVm.Tiling

namespace WinArmVm

open Tiling List

structure HeapView where
  eden : List Nat
  survivors : List Nat
  old : List Nat
  shape : Nat → Shape

namespace HeapView

def young (v : HeapView) : List Nat := v.eden ++ v.survivors

def objects (v : HeapView) : List Nat := v.young ++ v.old

def bytes (v : HeapView) (a : Nat) : Nat := (v.shape a).bytes

def oopWords (v : HeapView) (a : Nat) : List Nat := 1 :: (v.shape a).bodyOops.map (· + 2)

def Valid (v : HeapView) (w : Word) : Prop := ∀ x, w = .mem x → x ∈ v.objects

/-- The object at `a` is as the view says, and its klass is a klass. -/
structure Shaped (v : HeapView) (m : Memory) (a : Nat) : Prop where
  klass : m.klassOop a = .mem (v.shape a).klass
  reads : m.Reads a (v.shape a).klass (v.shape a)
  klass_mem : (v.shape a).klass ∈ v.objects
  klass_format : (v.shape (v.shape a).klass).format = .klass
  klass_nis : (v.shape a).format = .klass → 4 ≤ (v.shape a).nis

end HeapView

namespace Universe

/-- The spaces lie apart, the young ones below the old generation, and the tables
cover all of it. -/
structure Geometry (u : Universe) : Prop where
  eden_le : u.eden.start ≤ u.eden.top ∧ u.eden.top ≤ u.eden.stop
  from_le : u.fromSpace.start ≤ u.fromSpace.top ∧ u.fromSpace.top ≤ u.fromSpace.stop
  to_le : u.toSpace.start ≤ u.toSpace.top ∧ u.toSpace.top ≤ u.toSpace.stop
  old_le : u.old.start ≤ u.old.top ∧ u.old.top ≤ u.old.committedEnd ∧ u.old.committedEnd ≤ u.old.bound
  eden_from : u.eden.stop ≤ u.fromSpace.start
  eden_to : u.eden.stop ≤ u.toSpace.start
  from_to : u.fromSpace.stop ≤ u.toSpace.start ∨ u.toSpace.stop ≤ u.fromSpace.start
  from_old : u.fromSpace.stop ≤ u.old.start
  to_old : u.toSpace.stop ≤ u.old.start
  cards : u.old.bound - u.old.start ≤ u.nCards * cardSize

/-- For every card whose base is allocated, the offsets lead to the header of the block
that covers it. -/
def Resolves (u : Universe) (blocks : List (Nat × Nat)) : Prop := ∀ i, u.cardBase i < u.old.top → ∃ b ∈ blocks,
    u.resolve i = some b.1 ∧ b.1 ≤ u.cardBase i ∧ u.cardBase i < b.1 + b.2

end Universe

namespace HeapView

def oldBlocks (v : HeapView) : List (Nat × Nat) := v.old.map fun a => (a, v.bytes a)

structure Coherent (v : HeapView) (m : Memory) (u : Universe) : Prop where
  geometry : u.Geometry
  eden : Tiles id v.bytes u.eden.start v.eden u.eden.top
  survivors : Tiles id v.bytes u.fromSpace.start v.survivors u.fromSpace.top
  old : Tiles id v.bytes u.old.start v.old u.old.top
  to_empty : u.toSpace.top = u.toSpace.start
  no_stall : u.pendingStall = false
  shaped : ∀ a ∈ v.objects, v.Shaped m a
  marks : ∀ a ∈ v.objects, ∃ mark, m a = .mark mark ∧ mark.gcMark = false
  slots : ∀ a ∈ v.objects, ∀ j ∈ v.oopWords a, v.Valid (m (a + 8 * j))
  resolves : u.Resolves v.oldBlocks
  remembered : ∀ a ∈ v.old, ∀ j ∈ v.oopWords a, u.isNewOop (m (a + 8 * j)) = true →
    u.cards (u.cardIndex (a + 8 * j)) = true

/-- A coherent heap whose objects' sizes fit the 32 bits that the compaction plan has for
them. -/
structure WellFormed (v : HeapView) (m : Memory) (u : Universe) : Prop extends v.Coherent m u where
  sizes : ∀ a ∈ v.objects, (v.shape a).size < 2 ^ 32

variable {v : HeapView} {m : Memory} {u : Universe} {a b j : Nat}

theorem mem_young : a ∈ v.young ↔ a ∈ v.eden ∨ a ∈ v.survivors := List.mem_append

theorem mem_objects : a ∈ v.objects ↔ a ∈ v.young ∨ a ∈ v.old := List.mem_append

theorem oopWords_lt (h : 2 ≤ (v.shape a).nis) (hj : j ∈ v.oopWords a) : 1 ≤ j ∧ j < (v.shape a).size := by
  have hsize := (v.shape a).nis_le_size
  rcases mem_cons.mp hj with rfl | hj
  · omega
  · obtain ⟨i, hi, rfl⟩ := mem_map.mp hj
    have := (Shape.bodyOops_lt h hi).1
    omega

theorem body_mem_oopWords {i : Nat} : i + 2 ∈ v.oopWords a ↔ i ∈ (v.shape a).bodyOops := by
  unfold oopWords
  rw [mem_cons, mem_map]
  constructor
  · intro h
    rcases h with h | ⟨i', hi', he⟩
    · omega
    · have : i' = i := by omega
      rw [← this]
      exact hi'
  · intro h
    exact .inr ⟨i, h, rfl⟩

theorem bytes_eq (v : HeapView) (a : Nat) : v.bytes a = 8 * (v.shape a).size := by
  unfold bytes Shape.bytes wordSize
  omega

namespace Coherent

variable (h : v.Coherent m u)

include h

theorem nis_ge (ha : a ∈ v.objects) : 2 ≤ (v.shape a).nis := (h.shaped a ha).reads.nis_ge

theorem size_ge (ha : a ∈ v.objects) : 2 ≤ (v.shape a).size := Nat.le_trans (h.nis_ge ha) (v.shape a).nis_le_size

theorem klass_size_ge (ha : a ∈ v.objects) (hf : (v.shape a).format = .klass) : 4 ≤ (v.shape a).size :=
  Nat.le_trans ((h.shaped a ha).klass_nis hf) (v.shape a).nis_le_size

theorem young_bounds (ha : a ∈ v.young) : (u.eden.start ≤ a ∧ a + v.bytes a ≤ u.eden.top) ∨
      (u.fromSpace.start ≤ a ∧ a + v.bytes a ≤ u.fromSpace.top) := by
  rcases mem_young.mp ha with ha | ha
  · obtain ⟨hl, hh, _⟩ := h.eden.bounds ha
    exact .inl ⟨hl, hh⟩
  · obtain ⟨hl, hh, _⟩ := h.survivors.bounds ha
    exact .inr ⟨hl, hh⟩

theorem old_bounds (ha : a ∈ v.old) : u.old.start ≤ a ∧ a + v.bytes a ≤ u.old.top := by
  obtain ⟨hl, hh, _⟩ := h.old.bounds ha
  exact ⟨hl, hh⟩

theorem bytes_pos (ha : a ∈ v.objects) : 16 ≤ v.bytes a := by
  have := h.size_ge ha
  rw [v.bytes_eq]
  omega

theorem young_below (ha : a ∈ v.young) : a + v.bytes a ≤ u.old.start := by
  have hg := h.geometry
  have h₁ := hg.eden_le
  have h₂ := hg.from_le
  have h₃ := hg.eden_from
  have h₄ := hg.from_old
  have := h.young_bounds ha
  omega

theorem young_new (ha : a ∈ v.young) : a < u.old.start := by
  have hb := h.young_below ha
  have := h.bytes_pos (mem_objects.mpr (.inl ha))
  omega

theorem not_old_of_young (ha : a ∈ v.young) : a ∉ v.old := by
  intro hm
  have := (h.old_bounds hm).1
  have := h.young_new ha
  omega

theorem klass (ha : a ∈ v.objects) : m.klass a = some (v.shape a).klass := by
  have hs := h.shaped a ha
  have hk := h.shaped _ hs.klass_mem
  unfold Memory.klass Memory.klassTryFrom
  rw [hs.klass]
  dsimp only
  rw [hk.klass]
  dsimp only
  rw [if_pos]
  rw [hk.reads.format, hs.klass_format]

theorem apart (ha : a ∈ v.objects) (hb : b ∈ v.objects) : a = b ∨ a + v.bytes a ≤ b ∨ b + v.bytes b ≤ a := by
  have hg := h.geometry
  have h₁ := hg.eden_le
  have h₂ := hg.from_le
  have h₃ := hg.eden_from
  rcases mem_objects.mp ha with hya | hoa
  · rcases mem_objects.mp hb with hyb | hob
    · rcases mem_young.mp hya with hea | hfa
      · rcases mem_young.mp hyb with heb | hfb
        · exact h.eden.apart hea heb
        · have := h.eden.bounds hea
          have := h.survivors.bounds hfb
          dsimp only [id] at *
          omega
      · rcases mem_young.mp hyb with heb | hfb
        · have := h.survivors.bounds hfa
          have := h.eden.bounds heb
          dsimp only [id] at *
          omega
        · exact h.survivors.apart hfa hfb
    · have := h.young_below hya
      have := (h.old_bounds hob).1
      omega
  · rcases mem_objects.mp hb with hyb | hob
    · have := h.young_below hyb
      have := (h.old_bounds hoa).1
      omega
    · exact h.old.apart hoa hob

theorem word_inj {i : Nat} (ha : a ∈ v.objects) (hb : b ∈ v.objects) (hi : i < (v.shape a).size)
    (hj : j < (v.shape b).size) (he : a + 8 * i = b + 8 * j) : a = b ∧ i = j := by
  have hba := v.bytes_eq a
  have hbb := v.bytes_eq b
  rcases h.apart ha hb with rfl | hlt | hlt
  · exact ⟨rfl, by omega⟩
  · omega
  · omega

end Coherent

end HeapView

end WinArmVm
