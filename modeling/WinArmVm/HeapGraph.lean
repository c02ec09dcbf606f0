import WinArmVm.HeapInvariant

namespace WinArmVm

open List

def SameMark (w w' : Word) : Prop :=
  ∃ k k' : Mark, w = .mark k ∧ w' = .mark k' ∧ k'.hash = k.hash ∧ k'.nearDeath = k.nearDeath ∧
    k'.taggedContents = k.taggedContents ∧ k'.gcMark = k.gcMark

def Shape.oopWords (s : Shape) : List Nat := 1 :: s.bodyOops.map (· + 2)

def Renamed (f : Nat → Nat) (w w' : Word) : Prop :=
  match w with
  | .mem x => w' = .mem (f x)
  | _ => w' = w

namespace Memory

def Object (m : Memory) (a k : Nat) (s : Shape) : Prop := m.klass a = some k ∧ m.Reads a k s

inductive Reachable (m : Memory) (roots : List Word) : Nat → Prop
  | root {a : Nat} (h : .mem a ∈ roots) : m.Reachable roots a
  | slot {a k j x : Nat} {s : Shape} (ha : m.Reachable roots a) (ho : m.Object a k s) (hj : j ∈ s.oopWords)
      (hx : m (a + 8 * j) = .mem x) : m.Reachable roots x

/-- What is reachable in `m'` is what is reachable in `m`, under other addresses. Only the
age in a header may differ. -/
structure Isomorphic (f : Nat → Nat) (m : Memory) (roots : List Word) (m' : Memory) (roots' : List Word) : Prop where
  renamed : List.Forall₂ (Renamed f) roots roots'
  sharing : ∀ a b, m.Reachable roots a → m.Reachable roots b → f a = f b → a = b
  object : ∀ a, m.Reachable roots a → ∃ k s, m.Object a k s ∧ m'.Object (f a) (f k) s
  mark : ∀ a, m.Reachable roots a → SameMark (m a) (m' (f a))
  oops : ∀ a k s, m.Reachable roots a → m.Object a k s → ∀ j ∈ s.oopWords, Renamed f (m (a + 8 * j)) (m' (f a + 8 * j))
  data : ∀ a k s, m.Reachable roots a → m.Object a k s → ∀ j, 1 ≤ j → j < s.size → j ∉ s.oopWords →
    m' (f a + 8 * j) = m (a + 8 * j)

variable {m m' : Memory} {roots roots' : List Word} {f : Nat → Nat} {a k k' : Nat} {s s' : Shape}

section

variable (h : m.Object a k s) (h' : m.Object a k' s')

include h h'

theorem Object.klass_eq : k = k' := Option.some.inj (h.1.symm.trans h'.1)

theorem Object.oopWords_eq : s.oopWords = s'.oopWords := by
  have hk := h.klass_eq h'
  subst hk
  have hf : s.format = s'.format := Option.some.inj (h.2.format.symm.trans h'.2.format)
  have hn : s.nis = s'.nis := Option.some.inj (h.2.nis.symm.trans h'.2.nis)
  have hlen : s.format.indexable = true → s.len = s'.len := by
    intro hi
    have h₁ := h.2.len hi
    have h₂ := h'.2.len (hf ▸ hi)
    rw [hn] at h₁
    exact Option.some.inj (h₁.symm.trans h₂)
  unfold Shape.oopWords Shape.bodyOops
  rw [← hf, ← hn]
  cases hc : s.format
  case indexableOops => rw [hlen (by rw [hc]; rfl)]
  case closure => rw [hlen (by rw [hc]; rfl)]
  case context => rw [hlen (by rw [hc]; rfl)]
  all_goals rfl

theorem Object.size_eq : s.size = s'.size := by
  have hk := h.klass_eq h'
  subst hk
  exact Option.some.inj (h.2.size.symm.trans h'.2.size)

end

theorem Renamed.of_mem {x' : Nat} {w : Word} (h : Renamed f w (.mem x')) : ∃ x, w = .mem x ∧ f x = x' := by
  cases w with
  | mem x =>
    have he : Word.mem x' = .mem (f x) := h
    cases he
    exact ⟨x, rfl, rfl⟩
  | smi i => exact absurd h (by unfold Renamed; simp)
  | mark i => exact absurd h (by unfold Renamed; simp)
  | bits i => exact absurd h (by unfold Renamed; simp)

variable {l l' : List Word}

theorem renamed_root (h : List.Forall₂ (Renamed f) l l') {w' : Word} (hw : w' ∈ l') : ∃ w ∈ l, Renamed f w w' := by
  induction h with
  | nil => cases hw
  | cons hr _ ih =>
    rcases mem_cons.mp hw with rfl | hw
    · exact ⟨_, mem_cons_self, hr⟩
    · obtain ⟨w, hm, hr⟩ := ih hw
      exact ⟨w, mem_cons_of_mem _ hm, hr⟩

theorem renamed_root' (h : List.Forall₂ (Renamed f) l l') {a : Nat} (ha : .mem a ∈ l) : .mem (f a) ∈ l' := by
  induction h with
  | nil => cases ha
  | cons hr _ ih =>
    rcases mem_cons.mp ha with rfl | ha
    · rw [show _ = Word.mem (f a) from hr]
      exact mem_cons_self
    · exact mem_cons_of_mem _ (ih ha)

theorem Isomorphic.reachable_iff (h : Isomorphic f m roots m' roots') {a' : Nat} :
    m'.Reachable roots' a' ↔ ∃ a, m.Reachable roots a ∧ f a = a' := by
  constructor
  · intro ha
    induction ha with
    | root hr =>
      obtain ⟨w, hw, hren⟩ := renamed_root h.renamed hr
      obtain ⟨x, rfl, hx⟩ := Renamed.of_mem hren
      exact ⟨x, Reachable.root hw, hx⟩
    | slot _ ho hj hx ih =>
      obtain ⟨a, ha, rfl⟩ := ih
      obtain ⟨k, s, hob, hob'⟩ := h.object a ha
      rw [ho.oopWords_eq hob'] at hj
      have hren := h.oops a k s ha hob _ hj
      rw [hx] at hren
      obtain ⟨x, hword, hx⟩ := Renamed.of_mem hren
      exact ⟨x, Reachable.slot ha hob hj hword, hx⟩
  · rintro ⟨a, ha, rfl⟩
    induction ha with
    | root hr => exact Reachable.root (renamed_root' h.renamed hr)
    | slot ha ho hj hx ih =>
      obtain ⟨k, s, hob, hob'⟩ := h.object _ ha
      rw [ho.oopWords_eq hob] at hj
      have hren := h.oops _ k s ha hob _ hj
      rw [hx] at hren
      exact Reachable.slot ih hob' hj hren

end Memory

namespace HeapView

variable {v : HeapView} {m : Memory} {u : Universe} {roots : List Word} {a k : Nat} {s : Shape}

namespace Coherent

theorem object (hw : v.Coherent m u) (ha : a ∈ v.objects) : m.Object a (v.shape a).klass (v.shape a) :=
  ⟨hw.klass ha, (hw.shaped a ha).reads⟩

end Coherent

end HeapView

end WinArmVm
