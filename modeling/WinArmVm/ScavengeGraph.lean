import WinArmVm.ScavengeRuns

namespace WinArmVm

open Tiling List

def Copies.fate (c : Copies) (a : Nat) : Nat := ((c.pairs.find? fun p => p.1 == a).map Prod.snd).getD a

theorem Copies.fate_pair {c : Copies} (honce : (c.pairs.map Prod.fst).Nodup) {p : Nat × Nat} (hp : p ∈ c.pairs) :
    c.fate p.1 = p.2 := by
  unfold Copies.fate
  cases hf : c.pairs.find? fun q => q.1 == p.1 with
  | none =>
    have := find?_eq_none.mp hf p hp
    simp at this
  | some q =>
    have hq := mem_of_find?_eq_some hf
    have he : q.1 = p.1 := by simpa using find?_some hf
    have hqp : q = p := inj_on_of_nodup_map honce hq hp he
    rw [hqp]
    rfl

theorem Copies.fate_same {c : Copies} {a : Nat} (h : ∀ p ∈ c.pairs, p.1 ≠ a) : c.fate a = a := by
  unfold Copies.fate
  have hf : (c.pairs.find? fun q => q.1 == a) = none := by
    apply find?_eq_none.mpr
    intro q hq
    simpa using h q hq
  rw [hf]
  rfl

namespace HeapView

/-- Every copy of the cycle is one block of the space it was made in, no object has two, and
every young object reached has one. -/
structure CopiedOnce (v : HeapView) (u u' : Universe) (c : Copies) (f : Nat → Nat) (reached : Nat → Prop) : Prop where
  start : u'.fromSpace.start = u.toSpace.start
  survivors : Tiles Prod.snd (fun p => v.bytes p.1) u'.fromSpace.start c.survivors u'.fromSpace.top
  promoted : Tiles Prod.snd (fun p => v.bytes p.1) u.old.top c.promoted u'.old.top
  once : (c.pairs.map Prod.fst).Nodup
  young : ∀ a, reached a → a < u.old.start → (a, f a) ∈ c.pairs
  old : ∀ a, reached a → u.old.start ≤ a → f a = a

variable {v : HeapView} {m₀ m m' : Memory} {u₀ u u' : Universe} {c : Copies} {done : Nat → Prop}
  {a b k j : Nat} {p : Nat × Nat} {w w' : Word} {ws ws' : List Word} {s : Shape}

theorem fate_not_young (ht : v.Targets u₀ u m c done) (ha : a ∉ v.young) : c.fate a = a := by
  apply Copies.fate_same
  rintro p hp rfl
  exact ha (ht.young p hp)

theorem Moved.renamed (ht : v.Targets u₀ u m c done) (h : v.Moved c w w') : Renamed c.fate w w' := by
  cases w with
  | mem x =>
    rcases h with ⟨_, d, hd, rfl⟩ | ⟨hn, rfl⟩
    · have hf : c.fate x = d := Copies.fate_pair ht.once hd
      exact congrArg Word.mem hf.symm
    · exact congrArg Word.mem (fate_not_young ht hn).symm
  | smi i => exact h
  | mark i => exact h
  | bits i => exact h

theorem Moved.holder (ht : v.Targets u₀ u m c done) (h : v.Moved c (.mem a) w') (hv : a ∈ v.objects) :
    v.Holder c (a, c.fate a) := by
  rcases h with ⟨_, d, hd, _⟩ | ⟨hn, _⟩
  · have hf : c.fate a = d := Copies.fate_pair ht.once hd
    rw [hf]
    exact .inl hd
  · rcases mem_objects.mp hv with hy | ho
    · exact absurd hy hn
    · exact .inr ⟨ho, fate_not_young ht hn⟩

structure Ended (v : HeapView) (m₀ : Memory) (u₀ : Universe) (m : Memory) (u : Universe) (c : Copies)
    (ws ws' : List Word) : Prop where
  copying : v.Copying m₀ u₀ m u c (traced u₀ u.toSpace.top u.old.top)
  roots : List.Forall₂ (v.Moved c) ws ws'

namespace Ended

variable (hw : v.Coherent m₀ u₀) (h : v.Ended m₀ u₀ m u c ws ws') (hvalid : ∀ w ∈ ws, v.Valid w)

include hw h

theorem slot (hp : v.Holder c p) (hj : j ∈ v.oopWords p.1) : v.Moved c (m₀ (p.1 + 8 * j)) (m (p.2 + 8 * j)) := by
  have ht := h.copying.targets
  have hlt := oopWords_lt (hw.nis_ge (holder_object ht hp)) hj
  have hb := holder_bounds hw ht hp
  have hbytes := v.bytes_eq p.1
  have hto := ht.to_same.1
  have hold := ht.old_same.1
  apply h.copying.contents.moved p hp j hj
  unfold traced
  omega

theorem object (hp : v.Holder c (a, c.fate a)) : m.Object (c.fate a) (c.fate (v.shape a).klass) (v.shape a) := by
  have ht := h.copying.targets
  have hobj := holder_object ht hp
  have hs := hw.shaped a hobj
  -- the klass field, a slot like the others, leads to where the klass is now
  have hfield := h.slot hw hp (j := 1) mem_cons_self
  have hold : m₀ (a + 8 * 1) = .mem (v.shape a).klass := hs.klass
  rw [hold] at hfield
  have hk := hfield.holder ht hs.klass_mem
  have hversion : Version c (v.shape a).klass (c.fate (v.shape a).klass) := by
    rcases hk with hk | hk
    · exact .inr hk
    · exact .inl hk.2
  have hown : Version c a (c.fate a) := by
    rcases hp with hp | hp
    · exact .inr hp
    · exact .inl hp.2
  refine ⟨?_, h.copying.contents.reads hw hobj hown hversion⟩
  unfold Memory.klass
  have hnew : m.klassOop (c.fate a) = .mem (c.fate (v.shape a).klass) := hfield.renamed ht
  rw [hnew]
  exact h.copying.contents.klassTryFrom hw hs.klass_mem hs.klass_format hversion

include hvalid

theorem holder (ha : m₀.Reachable ws a) : v.Holder c (a, c.fate a) := by
  have ht := h.copying.targets
  induction ha with
  | @root a hr =>
    have hmoved : ∃ w', v.Moved c (.mem a) w' := by
      obtain ⟨i, hi, he⟩ := getElem_of_mem hr
      have := h.roots.get hi (h.roots.length_eq ▸ hi)
      simp only [get_eq_getElem, he] at this
      exact ⟨_, this⟩
    obtain ⟨w', hm⟩ := hmoved
    exact hm.holder ht (hvalid _ hr _ rfl)
  | @slot a k j x s ha ho hj hx ih =>
    have hobj := holder_object ht ih
    rw [ho.oopWords_eq (hw.object hobj)] at hj
    have hm := h.slot hw ih hj
    rw [hx] at hm
    exact hm.holder ht (hw.slots _ hobj _ hj _ hx)

theorem isomorphic : Memory.Isomorphic c.fate m₀ ws m ws' := by
  have ht := h.copying.targets
  refine ⟨h.roots.imp fun _ _ hm => hm.renamed ht, fun a b ha hb he => ?_, fun a ha => ?_, fun a ha => ?_,
    fun a k s ha ho j hj => ?_, fun a k s ha ho j hj hlt hn => ?_⟩
  · have hpa := h.holder hw hvalid ha
    have hpb := h.holder hw hvalid hb
    have hsa := hw.size_ge (holder_object ht hpa)
    have hsb := hw.size_ge (holder_object ht hpb)
    have hpair := (holder_word_inj hw ht hpa hpb (i := 0) (j := 0) (by omega) (by omega) (by rw [he])).1
    exact congrArg Prod.fst hpair
  · have hp := h.holder hw hvalid ha
    exact ⟨(v.shape a).klass, v.shape a, hw.object (holder_object ht hp), h.object hw hp⟩
  · exact h.copying.contents.marks _ (h.holder hw hvalid ha)
  · have hp := h.holder hw hvalid ha
    rw [ho.oopWords_eq (hw.object (holder_object ht hp))] at hj
    exact (h.slot hw hp hj).renamed ht
  · have hp := h.holder hw hvalid ha
    have hobj := hw.object (holder_object ht hp)
    rw [ho.oopWords_eq hobj] at hn
    rw [ho.size_eq hobj] at hlt
    exact h.copying.contents.data _ hp j hj hlt hn

theorem copiedOnce : v.CopiedOnce u₀ u.swapSpaces c c.fate (m₀.Reachable ws) := by
  have ht := h.copying.targets
  refine ⟨ht.to_same.1, ?_, ht.promoted, ht.once, fun a ha hlt => ?_, fun a ha hge => ?_⟩
  · have hs := ht.survivors
    rw [← ht.to_same.1] at hs
    exact hs
  · rcases h.holder hw hvalid ha with hp | ⟨ho, _⟩
    · exact hp
    · have := (hw.old_bounds ho).1
      omega
  · apply fate_not_young ht
    intro hy
    have := hw.young_new hy
    omega

theorem vacated {x : Nat} (hx : m.Reachable ws' x) :
    ¬ (u₀.eden.start ≤ x ∧ x < u₀.eden.stop) ∧ ¬ (u₀.fromSpace.start ≤ x ∧ x < u₀.fromSpace.stop) := by
  have ht := h.copying.targets
  have hg := hw.geometry
  obtain ⟨a, ha, rfl⟩ := (h.isomorphic hw hvalid).reachable_iff.mp hx
  have hp := h.holder hw hvalid ha
  have hpos := hw.bytes_pos (holder_object ht hp)
  have hb := holder_bounds hw ht hp
  have h₁ := hg.eden_from
  have h₂ := hg.eden_to
  have h₃ := hg.from_to
  have h₄ := hg.from_old
  have h₅ := ht.to_same
  have h₆ := ht.old_same.1
  have h₇ := hg.from_le
  have h₈ := ht.to_le
  omega

end Ended

/-- A scavenge yields the graph that was reachable, at other addresses. -/
theorem scavenge_isomorphic (hw : v.Coherent m₀ u₀) (hroom : Room u₀) {r : Roots} (hvalid : ∀ w ∈ r.words, v.Valid w) :
    ∃ r' m' u' c f, Universe.scavenge r m₀ u₀ = some (r', m', u') ∧
      Memory.Isomorphic f m₀ r.words m' r'.words ∧ v.CopiedOnce u₀ u' c f (m₀.Reachable r.words) ∧
      ∀ x, m'.Reachable r'.words x →
        ¬ (u₀.eden.start ≤ x ∧ x < u₀.eden.stop) ∧ ¬ (u₀.fromSpace.start ≤ x ∧ x < u₀.fromSpace.stop) := by
  obtain ⟨r', m', u', c, hrun, hcopying, hroots⟩ := scavenge_spec hw hroom hvalid
  have h : v.Ended m₀ u₀ m' u' c r.words r'.words := ⟨hcopying, hroots⟩
  exact ⟨r', m', u'.swapSpaces, c, c.fate, hrun, h.isomorphic hw hvalid, h.copiedOnce hw hvalid,
    fun x hx => h.vacated hw hvalid hx⟩

theorem scavenge_isomorphic_tight : ∃ r' m' u' c f, Universe.scavenge tightRoots tightMemory tight = some (r', m', u') ∧
    Memory.Isomorphic f tightMemory tightRoots.words m' r'.words ∧
    tightView.CopiedOnce tight u' c f (tightMemory.Reachable tightRoots.words) ∧
    ∀ x, m'.Reachable r'.words x →
      ¬ (tight.eden.start ≤ x ∧ x < tight.eden.stop) ∧ ¬ (tight.fromSpace.start ≤ x ∧ x < tight.fromSpace.stop) :=
  scavenge_isomorphic tight_coherent tight_room tightRoots_valid

end HeapView

end WinArmVm
