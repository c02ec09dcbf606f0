import WinArmVm.ScavengeDirty

namespace WinArmVm.HeapView

open List Tiling

variable {v : HeapView} {m₀ m m' : Memory} {u₀ u u' : Universe} {c c' c'' : Copies}
  {done done' : Nat → Prop} {a x i j : Nat} {p : Nat × Nat}

theorem Copying.congr (h : v.Copying m₀ u₀ m u c done) (hd : ∀ y, done y ↔ done' y) : v.Copying m₀ u₀ m u c done' := by
  have he : done = done' := funext fun y => propext (hd y)
  rw [← he]
  exact h

theorem pair_version (hp : p ∈ c.pairs) : Version c p.1 p.2 := Or.inr hp

theorem not_old_copy (hw : v.Coherent m₀ u₀) (ht : v.Targets u₀ u m c done) (hp : p ∈ c.pairs) :
    p.1 ∉ v.old := hw.not_old_of_young (ht.young p hp)

theorem scanObject_spec (hw : v.Coherent m₀ u₀) (hroom : Room u₀) (h : v.Copying m₀ u₀ m u c done) (hp : p ∈ c.pairs)
    (hfresh : ∀ j ∈ v.oopWords p.1, ¬ done (p.2 + 8 * j)) :
    ∃ m' u' c', Universe.scanObject m u p.2 = some ((v.shape p.1).size, m', u') ∧
      v.Copying m₀ u₀ m' u' c' (fun y => done y ∨ ∃ j ∈ v.oopWords p.1, y = p.2 + 8 * j) ∧
      c.Extends c' := by
  have hy := h.targets.young p hp
  have hobj : p.1 ∈ v.objects := mem_objects.mpr (.inl hy)
  have hsize := hw.size_ge hobj
  have hnot {u c m done} (ht : v.Targets u₀ u m c done) (hp : p ∈ c.pairs) {x : Nat} :
      p.1 ∈ v.old → u.cards (u.cardIndex x) = true := fun ho => absurd ho (not_old_copy hw ht hp)
  have hone : 1 ∈ v.oopWords p.1 := mem_cons_self
  obtain ⟨w, m₁, u₁, c₁, hrun₁, h₁, hk₁⟩ := slot_spec hw hroom h (.inl hp) hone (hfresh 1 hone) (hnot h.targets hp)
  have hp₁ := hk₁.extends_.subset p hp
  have hself : m₁.write (p.2 + 8 * 1) w (p.2 + 8) = w := Function.update_self ..
  obtain ⟨k, hklass, hkv⟩ := h₁.contents.klass hw hobj (pair_version hp₁)
  have hreads := h₁.contents.reads hw hobj (pair_version hp₁) hkv
  -- the klass field stays as it was scavenged while the body is visited
  obtain ⟨m₂, u₂, hrun₂, c₂, h₂, he₂, hw₂⟩ := Memory.forEachOopField_rule (f := Universe.scavengeOop)
    (I := fun pre m' (u' : Universe) => ∃ c', v.Copying m₀ u₀ m' u' c' (fun y =>
      (done y ∨ y = p.2 + 8 * 1) ∨ ∃ i ∈ pre, y = p.2 + 8 * (i + 2)) ∧ c₁.Extends c' ∧ m' (p.2 + 8) = w)
    (fun pre i post m' u' hsplit ⟨c', h', he', hw'⟩ => by
      have hmem : i + 2 ∈ v.oopWords p.1 := by
        apply body_mem_oopWords.mpr
        rw [hsplit]
        exact mem_append.mpr (.inr mem_cons_self)
      have hnotin : i ∉ pre := by
        have hn := (v.shape p.1).bodyOops_nodup
        rw [hsplit] at hn
        intro hi
        exact (nodup_append.mp hn).2.2 i hi i mem_cons_self rfl
      have hp' := he'.subset p hp₁
      obtain ⟨w', m'', u'', c'', hrun, h'', hk⟩ := slot_spec hw hroom h' (.inl hp') hmem
        (by
          rintro ((hd | he) | ⟨i', hi', he⟩)
          · exact hfresh _ hmem hd
          · omega
          · have hii : i = i' := by omega
            rw [hii] at hnotin
            exact hnotin hi')
        (hnot h'.targets hp')
      unfold Memory.rawBodyWord Memory.setRawBodyWord
      rw [Memory.bodyAddr_eq]
      refine ⟨w', m'', u'', hrun, c'', h''.congr fun y => ?_, he'.trans hk.extends_, ?_⟩
      · simp only [mem_append, mem_singleton, or_and_right, exists_or, exists_eq_left, or_assoc]
      · have := hk.words p (.inl hp') 1 (by omega) (by omega)
        exact this.trans hw')
    (fun pre m' u' ⟨c', h', he', _⟩ hi =>
      (h'.contents.reads hw hobj (pair_version (he'.subset p hp₁)) (hkv.imp_right (he'.subset _))).len hi)
    hreads ⟨c₁, h₁.congr fun y => by simp, Copies.Extends.refl c₁, hself⟩
  have hp₂ := he₂.subset p hp₁
  obtain ⟨k₂, hklass₂, hkv₂⟩ := h₂.contents.klass hw hobj (pair_version hp₂)
  have hsize₂ := (h₂.contents.reads hw hobj (pair_version hp₂) hkv₂).size
  refine ⟨m₂, u₂, c₂, ?_, h₂.congr fun y => ?_, hk₁.extends_.trans he₂⟩
  · have hfield : m₂.klassTryFrom w = some k₂ := by
      rw [← hw₂]
      exact hklass₂
    have hset : m₁.setKlassRaw p.2 w = m₁.write (p.2 + 8 * 1) w := rfl
    have hread : m.klassOop p.2 = m (p.2 + 8 * 1) := rfl
    unfold Universe.scanObject
    simp only [hread, hrun₁, hset, hklass, hrun₂, h₂.targets.no_stall, hfield, hsize₂,
      Option.bind_eq_bind, Option.bind_some, Bool.false_eq_true, if_false, Option.pure_def]
  · unfold oopWords
    simp only [mem_cons, mem_map, exists_eq_or_imp, exists_exists_and_eq_and]
    tauto

/-- Everything below the scan pointers: the old generation as the cycle found it, the
survivors up to `toScan` and the promoted objects up to `oldScan`. -/
def traced (u₀ : Universe) (toScan oldScan : Nat) : Nat → Prop := fun y =>
  (u₀.old.start ≤ y ∧ y < oldScan) ∨ (u₀.toSpace.start ≤ y ∧ y < toScan)

/-- The scan pointers have passed the copies `s` and `p`, whose slots have been visited. -/
structure Tracing (v : HeapView) (m₀ : Memory) (u₀ : Universe) (toScan oldScan : Nat)
    (s p : List (Nat × Nat)) (m : Memory) (u : Universe) (c : Copies) : Prop where
  copying : v.Copying m₀ u₀ m u c (traced u₀ toScan oldScan)
  survivors : Tiles Prod.snd (fun q => v.bytes q.1) u₀.toSpace.start s toScan
  promoted : Tiles Prod.snd (fun q => v.bytes q.1) u₀.old.top p oldScan
  survivors_mem : s <+: c.survivors
  promoted_mem : p <+: c.promoted

theorem pairs_length_le (ht : v.Targets u₀ u m c done) : c.pairs.length ≤ v.young.length := by
  have hsub : c.pairs.map Prod.fst ⊆ v.young := by
    intro a ha
    obtain ⟨q, hq, rfl⟩ := mem_map.mp ha
    exact ht.young q hq
  have := (ht.once.subperm hsub).length_le
  rwa [length_map] at this

variable {toScan oldScan : Nat} {s l : List (Nat × Nat)}

section

variable (hw : v.Coherent m₀ u₀)

include hw

theorem Tracing.visited (ht : v.Copying m₀ u₀ m u c
      (fun y => traced u₀ toScan oldScan y ∨ ∃ j ∈ v.oopWords p.1, y = p.2 + 8 * j))
    (hp : p ∈ c.pairs) {toScan' oldScan' : Nat}
    (hto : toScan' ≤ u.toSpace.top) (hold : oldScan' ≤ u.old.top)
    (hmore : ∀ y, traced u₀ toScan' oldScan' y ↔ traced u₀ toScan oldScan y ∨ (p.2 ≤ y ∧ y < p.2 + v.bytes p.1)) :
    v.Copying m₀ u₀ m u c (traced u₀ toScan' oldScan') := by
  have hto_same := ht.targets.to_same
  have hold_same := ht.targets.old_same
  refine ht.redone (fun y hy => ?_) (fun q hq j hj hd => ?_) fun q hq j hj hd hno => ?_
  · unfold traced at hy
    omega
  · apply (hmore _).mpr
    rcases hd with hd | ⟨i, hi, he⟩
    · exact .inl hd
    · have hlt := (oopWords_lt (hw.nis_ge (holder_object ht.targets (.inl hp))) hi).2
      have hbytes := v.bytes_eq p.1
      exact .inr (by omega)
  · exfalso
    rcases (hmore _).mp hd with hd | hd
    · exact hno (.inl hd)
    · have hlt := (oopWords_lt (hw.nis_ge (holder_object ht.targets hq)) hj).2
      have hbytes := v.bytes_eq q.1
      rcases holder_apart hw ht.targets hq (.inl hp) with rfl | hlow | hhigh
      · exact hno (.inr ⟨j, hj, rfl⟩)
      · omega
      · omega

theorem Tracing.bounds (h : v.Tracing m₀ u₀ toScan oldScan s l m u c) :
    u.toSpace.start = u₀.toSpace.start ∧ u.old.start = u₀.old.start ∧ u.toSpace.start ≤ toScan ∧
      u₀.old.top ≤ oldScan ∧ u.toSpace.top ≤ u.old.start ∧ u.old.start ≤ u₀.old.top := by
  have ht := h.copying.targets
  have hto := h.survivors.le
  have hold := h.promoted.le
  have hgeo := hw.geometry.to_old
  have hge := hw.geometry.old_le.1
  have hle := ht.to_le
  have hto_same := ht.to_same
  have hold_same := ht.old_same.1
  omega

section

variable (hroom : Room u₀) (h : v.Tracing m₀ u₀ toScan oldScan s l m u c)

include hroom h

theorem Tracing.survivor (hlt : toScan < u.toSpace.top) :
    ∃ q m' u' c', Universe.scanObject m u toScan = some ((v.shape q.1).size, m', u') ∧
      v.Tracing m₀ u₀ (toScan + v.bytes q.1) oldScan (s ++ [q]) l m' u' c' ∧ c.Extends c' := by
  have ht := h.copying.targets
  have hb := h.bounds hw
  obtain ⟨q, hq, hat, htiles⟩ := ht.survivors.next h.survivors_mem h.survivors hlt
  have hat : q.2 = toScan := hat
  have hpair : q ∈ c.pairs := mem_append.mpr (.inl (hq.subset (mem_append.mpr
    (.inr (mem_singleton.mpr rfl)))))
  have hfresh : ∀ j ∈ v.oopWords q.1, ¬ traced u₀ toScan oldScan (q.2 + 8 * j) := by
    intro j hj hd
    have hj := oopWords_lt (hw.nis_ge (holder_object ht (.inl hpair))) hj
    have hbytes := v.bytes_eq q.1
    have hholder := holder_bounds hw ht (.inl hpair)
    unfold traced at hd
    omega
  obtain ⟨m', u', c', hrun, h', he⟩ := scanObject_spec hw hroom h.copying hpair hfresh
  have ht' := h'.targets
  have hq' : s ++ [q] <+: c'.survivors := hq.trans he.survivors
  have hp' : l <+: c'.promoted := h.promoted_mem.trans he.promoted
  rw [hat] at hrun
  refine ⟨q, m', u', c', hrun, ⟨Tracing.visited hw h' (he.subset q hpair)
    (Tiles.prefix_le htiles hq' ht'.survivors) (Tiles.prefix_le h.promoted hp' ht'.promoted) fun y => ?_, htiles, h.promoted,
    hq', hp'⟩, he⟩
  unfold traced
  omega

theorem Tracing.promotion (hlt : oldScan < u.old.top) :
    ∃ q m' u' c', Universe.scanObject m u oldScan = some ((v.shape q.1).size, m', u') ∧
      v.Tracing m₀ u₀ toScan (oldScan + v.bytes q.1) s (l ++ [q]) m' u' c' ∧ c.Extends c' := by
  have ht := h.copying.targets
  have hb := h.bounds hw
  obtain ⟨q, hq, hat, htiles⟩ := ht.promoted.next h.promoted_mem h.promoted hlt
  have hat : q.2 = oldScan := hat
  have hpair : q ∈ c.pairs := mem_append.mpr (.inr (hq.subset (mem_append.mpr
    (.inr (mem_singleton.mpr rfl)))))
  have hfresh : ∀ j ∈ v.oopWords q.1, ¬ traced u₀ toScan oldScan (q.2 + 8 * j) := by
    intro j hj hd
    have hj := oopWords_lt (hw.nis_ge (holder_object ht (.inl hpair))) hj
    have hend := Tiles.prefix_le h.survivors h.survivors_mem ht.survivors
    unfold traced at hd
    omega
  obtain ⟨m', u', c', hrun, h', he⟩ := scanObject_spec hw hroom h.copying hpair hfresh
  have ht' := h'.targets
  have hq' : l ++ [q] <+: c'.promoted := hq.trans he.promoted
  have hp' : s <+: c'.survivors := h.survivors_mem.trans he.survivors
  rw [hat] at hrun
  refine ⟨q, m', u', c', hrun, ⟨Tracing.visited hw h' (he.subset q hpair)
    (Tiles.prefix_le h.survivors hp' ht'.survivors) (Tiles.prefix_le htiles hq' ht'.promoted) fun y => ?_, h.survivors,
    htiles, hp', hq'⟩, he⟩
  unfold traced
  omega

theorem Tracing.run {fuel : Nat} (hfuel : v.young.length < fuel + s.length + l.length) :
    ∃ m' u' c', Universe.cheney fuel toScan oldScan m u = some (m', u') ∧
      v.Copying m₀ u₀ m' u' c' (traced u₀ u'.toSpace.top u'.old.top) ∧ c.Extends c' := by
  induction fuel generalizing toScan oldScan s l m u c with
  | zero =>
    have hpairs := pairs_length_le h.copying.targets
    have hs := h.survivors_mem.length_le
    have hl := h.promoted_mem.length_le
    unfold Copies.pairs at hpairs
    rw [length_append] at hpairs
    omega
  | succ n ih =>
    have ht := h.copying.targets
    unfold Universe.cheney
    by_cases hto : toScan < u.toSpace.top
    · obtain ⟨q, m₁, u₁, c₁, hrun₁, h₁, he₁⟩ := h.survivor hw hroom hto
      have hlen : (s ++ [q]).length = s.length + 1 := length_append
      obtain ⟨m', u', c', hrun, h', he⟩ := ih h₁ (by omega)
      refine ⟨m', u', c', ?_, h', he₁.trans he⟩
      have hbytes : (v.shape q.1).size * wordSize = v.bytes q.1 := rfl
      rw [if_pos hto]
      simp only [hrun₁, h₁.copying.targets.no_stall, hbytes, Option.bind_eq_bind, Option.bind_some,
        Bool.false_eq_true, if_false]
      exact hrun
    · by_cases hold : oldScan < u.old.top
      · obtain ⟨q, m₁, u₁, c₁, hrun₁, h₁, he₁⟩ := h.promotion hw hroom hold
        have hlen : (l ++ [q]).length = l.length + 1 := length_append
        obtain ⟨m', u', c', hrun, h', he⟩ := ih h₁ (by omega)
        refine ⟨m', u', c', ?_, h', he₁.trans he⟩
        have hbytes : (v.shape q.1).size * wordSize = v.bytes q.1 := rfl
        rw [if_neg hto, if_pos hold]
        simp only [hrun₁, h₁.copying.targets.no_stall, hbytes, Option.bind_eq_bind, Option.bind_some,
          Bool.false_eq_true, if_false]
        exact hrun
      · have hto' := Tiles.prefix_le h.survivors h.survivors_mem ht.survivors
        have hold' := Tiles.prefix_le h.promoted h.promoted_mem ht.promoted
        have he : toScan = u.toSpace.top := by omega
        have he' : oldScan = u.old.top := by omega
        rw [if_neg hto, if_neg hold]
        refine ⟨m, u, c, rfl, ?_, Copies.Extends.refl c⟩
        rw [← he, ← he']
        exact h.copying

end

end

end WinArmVm.HeapView
