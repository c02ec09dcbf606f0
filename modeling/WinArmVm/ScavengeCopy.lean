import WinArmVm.ScavengeInvariant

namespace WinArmVm

open List Function Tiling

/-- More copies, made after those of `c`. -/
structure Copies.Extends (c c' : Copies) : Prop where
  survivors : c.survivors <+: c'.survivors
  promoted : c.promoted <+: c'.promoted

theorem Copies.Extends.refl (c : Copies) : c.Extends c := ⟨List.prefix_refl _, List.prefix_refl _⟩

theorem Copies.Extends.trans {c c' c'' : Copies} (h : c.Extends c') (h' : c'.Extends c'') :
    c.Extends c'' := ⟨h.survivors.trans h'.survivors, h.promoted.trans h'.promoted⟩

def Copies.survive (c : Copies) (p : Nat × Nat) : Copies := { c with survivors := c.survivors ++ [p] }

def Copies.promote (c : Copies) (p : Nat × Nat) : Copies := { c with promoted := c.promoted ++ [p] }

theorem Copies.mem_survive {c : Copies} {p q : Nat × Nat} : p ∈ (c.survive q).pairs ↔ p ∈ c.pairs ∨ p = q := by
  unfold Copies.survive Copies.pairs
  simp only [mem_append, mem_singleton]
  tauto

theorem Copies.mem_promote {c : Copies} {p q : Nat × Nat} : p ∈ (c.promote q).pairs ↔ p ∈ c.pairs ∨ p = q := by
  unfold Copies.promote Copies.pairs
  simp only [mem_append, mem_singleton, or_assoc]

theorem Copies.extends_survive (c : Copies) (p : Nat × Nat) : c.Extends (c.survive p) :=
  ⟨prefix_append _ _, prefix_refl _⟩

theorem Copies.extends_promote (c : Copies) (p : Nat × Nat) : c.Extends (c.promote p) :=
  ⟨prefix_refl _, prefix_append _ _⟩

theorem Copies.Extends.subset {c c' : Copies} (h : c.Extends c') : ∀ p ∈ c.pairs, p ∈ c'.pairs := by
  intro p hp
  rcases mem_append.mp hp with hp | hp
  · exact mem_append.mpr (.inl (h.survivors.subset hp))
  · exact mem_append.mpr (.inr (h.promoted.subset hp))

namespace HeapView

variable {v : HeapView} {m₀ m : Memory} {u₀ u : Universe} {c c' : Copies} {done : Nat → Prop}
  {a x dest : Nat} {p q : Nat × Nat}

theorem holder_object (ht : v.Targets u₀ u m c done) (hp : v.Holder c p) : p.1 ∈ v.objects := by
  rcases hp with hp | ⟨ho, _⟩
  · exact mem_objects.mpr (.inl (ht.young p hp))
  · exact mem_objects.mpr (.inr ho)

section

variable (hw : v.Coherent m₀ u₀) (ht : v.Targets u₀ u m c done)

include hw ht

theorem holder_bounds (hp : v.Holder c p) : (u.toSpace.start ≤ p.2 ∧ p.2 + v.bytes p.1 ≤ u.toSpace.top) ∨
      (u.old.start ≤ p.2 ∧ p.2 + v.bytes p.1 ≤ u.old.top) := by
  have hto := ht.to_same.1
  have hold := ht.old_same.1
  have hle := ht.promoted.le
  have hge := hw.geometry.old_le.1
  rcases hp with hp | ⟨ho, he⟩
  · rcases mem_append.mp hp with hp | hp
    · obtain ⟨hl, hh, _⟩ := ht.survivors.bounds hp
      exact .inl ⟨by omega, hh⟩
    · obtain ⟨hl, hh, _⟩ := ht.promoted.bounds hp
      exact .inr ⟨by omega, hh⟩
  · obtain ⟨hl, hh⟩ := hw.old_bounds ho
    rw [he]
    exact .inr ⟨by omega, by omega⟩

theorem young_apart (ha : a ∈ v.young) :
    (a + v.bytes a ≤ u.toSpace.start ∨ u.toSpace.stop ≤ a) ∧ a + v.bytes a ≤ u.old.start := by
  have hg := hw.geometry
  obtain ⟨hto, hstop⟩ := ht.to_same
  have hold := ht.old_same.1
  have h₁ := hg.eden_le
  have h₂ := hg.from_le
  have h₃ := hg.eden_to
  have h₄ := hg.from_to
  have h₅ := hg.to_le
  have hb := hw.young_bounds ha
  have hbelow := hw.young_below ha
  omega

theorem young_holder_apart (ha : a ∈ v.young) (hp : v.Holder c p) : a + v.bytes a ≤ p.2 ∨ p.2 + v.bytes p.1 ≤ a := by
  have hy := young_apart hw ht ha
  have hle := ht.to_le
  rcases holder_bounds hw ht hp with hb | hb
  · omega
  · omega

end

structure FreshBlock (v : HeapView) (c : Copies) (done : Nat → Prop) (dest n : Nat) : Prop where
  young : ∀ a ∈ v.young, a + v.bytes a ≤ dest ∨ dest + n ≤ a
  holder : ∀ p, v.Holder c p → p.2 + v.bytes p.1 ≤ dest ∨ dest + n ≤ p.2
  done : ∀ y, done y → y < dest ∨ dest + n ≤ y

theorem fresh_survivor (hw : v.Coherent m₀ u₀) (ht : v.Targets u₀ u m c done) {n : Nat}
    (hn : u.toSpace.top + n ≤ u.toSpace.stop) : v.FreshBlock c done u.toSpace.top n := by
  have hg := hw.geometry
  have h₅ := hg.to_old
  obtain ⟨hto, hstop⟩ := ht.to_same
  have hold := ht.old_same.1
  have hle := ht.survivors.le
  refine ⟨fun a ha => ?_, fun p hp => ?_, fun y hy => ?_⟩
  · have := young_apart hw ht ha
    omega
  · rcases holder_bounds hw ht hp with hb | hb
    · omega
    · omega
  · rcases ht.done_lt y hy with hb | hb
    · omega
    · omega

theorem fresh_promoted (hw : v.Coherent m₀ u₀) (ht : v.Targets u₀ u m c done) (n : Nat) :
    v.FreshBlock c done u.old.top n := by
  have hg := hw.geometry
  have h₅ := hg.to_old
  have h₆ := hg.old_le.1
  obtain ⟨hto, hstop⟩ := ht.to_same
  have hold := ht.old_same.1
  have hle := ht.promoted.le
  have hto_le := ht.to_le
  refine ⟨fun a ha => ?_, fun p hp => ?_, fun y hy => ?_⟩
  · have := young_apart hw ht ha
    omega
  · rcases holder_bounds hw ht hp with hb | hb
    · omega
    · omega
  · rcases ht.done_lt y hy with hb | hb
    · omega
    · omega

structure CopiedTo (v : HeapView) (m m' : Memory) (x dest : Nat) : Prop where
  header : m' x = .mem dest
  mark : SameMark (m x) (m' dest)
  body : ∀ j, 1 ≤ j → j < (v.shape x).size → m' (dest + 8 * j) = m (x + 8 * j)
  frame : ∀ y, y ≠ x → (y < dest ∨ dest + v.bytes x ≤ y) → m' y = m y

variable {m' : Memory}

theorem Contents.copy (hw : v.Coherent m₀ u₀) (h : v.Contents m₀ m c done)
    (ht : v.Targets u₀ u m c done) (hx : x ∈ v.young) (hnew : ∀ d, (x, d) ∉ c.pairs)
    (hf : v.FreshBlock c done dest (v.bytes x)) (hcopy : v.CopiedTo m m' x dest)
    (hc' : ∀ p, p ∈ c'.pairs ↔ p ∈ c.pairs ∨ p = (x, dest)) : v.Contents m₀ m' c' done := by
  have hxobj : x ∈ v.objects := mem_objects.mpr (.inl hx)
  have hbx := hw.bytes_pos hxobj
  have hsx := hw.size_ge hxobj
  have hholder : ∀ p, v.Holder c' p → v.Holder c p ∨ p = (x, dest) := by
    intro p hp
    rcases hp with hp | hp
    · rcases (hc' p).mp hp with hp | hp
      · exact .inl (.inl hp)
      · exact .inr hp
    · exact .inl (.inr hp)
  have hword : ∀ p, v.Holder c p → ∀ j, j < (v.shape p.1).size →
      m' (p.2 + 8 * j) = m (p.2 + 8 * j) := by
    intro p hp j hj
    have hb := v.bytes_eq p.1
    have h₁ := young_holder_apart hw ht hx hp
    have h₂ := hf.holder p hp
    exact hcopy.frame _ (by omega) (by omega)
  have hnotin : ∀ j, j < (v.shape x).size → ¬ done (dest + 8 * j) := by
    intro j hj hd
    have hb := v.bytes_eq x
    have := hf.done _ hd
    omega
  refine ⟨fun p hp => ?_, fun a ha hno => ?_, fun a ha j hj hlt => ?_, fun p hp => ?_,
    fun p hp j hj hlt hdata => ?_, fun p hp j hj hd => ?_, fun p hp j hj hd => ?_⟩
  · rcases (hc' p).mp hp with hp | rfl
    · have hne : p.1 ≠ x := by
        intro he
        apply hnew p.2
        rw [← he]
        exact hp
      have hb := hf.young p.1 (ht.young p hp)
      have hpos := hw.bytes_pos (mem_objects.mpr (.inl (ht.young p hp)))
      rw [hcopy.frame p.1 hne (by omega)]
      exact h.forwarded p hp
    · exact hcopy.header
  · have hne : a ≠ x := by
      rintro rfl
      exact hno dest ((hc' _).mpr (.inr rfl))
    have hb := hf.young a ha
    have hpos := hw.bytes_pos (mem_objects.mpr (.inl ha))
    rw [hcopy.frame a hne (by omega)]
    exact h.waiting a ha fun d hd => hno d ((hc' _).mpr (.inl hd))
  · have hobj : a ∈ v.objects := mem_objects.mpr (.inl ha)
    have hne : a + 8 * j ≠ x := by
      intro he
      have := (hw.word_inj (j := 0) hobj hxobj hlt (by omega) he).2
      omega
    have hb := hf.young a ha
    have hbytes := v.bytes_eq a
    rw [hcopy.frame _ hne (by omega)]
    exact h.source a ha j hj hlt
  · rcases hholder p hp with hp | rfl
    · have hsize := hw.size_ge (holder_object ht hp)
      have hm := hword p hp 0 (by omega)
      rw [Nat.mul_zero, Nat.add_zero] at hm
      rw [hm]
      exact h.marks p hp
    · have hm := hcopy.mark
      rw [h.waiting x hx hnew] at hm
      exact hm
  · rcases hholder p hp with hp | rfl
    · rw [hword p hp j hlt]
      exact h.data p hp j hj hlt hdata
    · rw [hcopy.body j hj hlt]
      exact h.source x hx j hj hlt
  · rcases hholder p hp with hp | rfl
    · have hlt := (oopWords_lt (hw.nis_ge (holder_object ht hp)) hj).2
      rw [hword p hp j hlt]
      exact h.fresh p hp j hj hd
    · obtain ⟨hj₁, hlt⟩ := oopWords_lt (hw.nis_ge hxobj) hj
      rw [hcopy.body j hj₁ hlt]
      exact h.source x hx j hj₁ hlt
  · rcases hholder p hp with hp | rfl
    · have hlt := (oopWords_lt (hw.nis_ge (holder_object ht hp)) hj).2
      rw [hword p hp j hlt]
      exact (h.moved p hp j hj hd).mono fun q hq => (hc' q).mpr (.inl hq)
    · exact absurd hd (hnotin j (oopWords_lt (hw.nis_ge hxobj) hj).2)

theorem copiedTo (hpos : 0 < v.bytes x) (hapart : x + v.bytes x ≤ dest ∨ dest + v.bytes x ≤ x)
    (mark : Word) (hmark : SameMark (m x) mark) :
    v.CopiedTo m (((Universe.copyWords m x dest (v.shape x).size).write dest mark).write x
      (.mem dest)) x dest := by
  have hb := v.bytes_eq x
  have hdest : dest ≠ x := by omega
  refine ⟨update_self .., ?_, fun j hj hlt => ?_, fun y hy hout => ?_⟩
  · unfold Memory.write
    rw [update_of_ne hdest, update_self]
    exact hmark
  · unfold Memory.write Universe.copyWords wordSize
    rw [update_of_ne (by omega), update_of_ne (by omega), if_pos (by omega)]
    congr 1
    omega
  · unfold Memory.write Universe.copyWords wordSize
    rw [update_of_ne hy, update_of_ne (by omega), if_neg (by omega)]

def Room (u : Universe) : Prop := (u.eden.top - u.eden.start) + (u.fromSpace.top - u.fromSpace.start) ≤ u.old.freeBytes

theorem young_sum_le (hw : v.Coherent m₀ u₀) {l : List Nat} (hn : l.Nodup) (hl : ∀ a ∈ l, a ∈ v.young) :
    (l.map v.bytes).sum ≤
      (u₀.eden.top - u₀.eden.start) + (u₀.fromSpace.top - u₀.fromSpace.start) := by
  have heden := hw.eden.length_eq
  have hfrom := hw.survivors.length_eq
  have hyoung : v.young.Nodup := by
    have h₁ := hw.eden.nodup
    have h₂ := hw.survivors.nodup
    rw [map_id] at h₁ h₂
    refine nodup_append.mpr ⟨h₁, h₂, fun a ha b hb hab => ?_⟩
    have hba := hw.eden.bounds ha
    have hbb := hw.survivors.bounds hb
    have := hw.geometry.eden_le
    have := hw.geometry.eden_from
    dsimp only [id] at *
    omega
  have hsum := sum_le_of_subset hn hyoung hl v.bytes
  have hsplit : (v.young.map v.bytes).sum = (v.eden.map v.bytes).sum + (v.survivors.map v.bytes).sum := by
    unfold young
    rw [map_append, sum_append]
  omega

theorem map_fst_bytes (v : HeapView) (l : List (Nat × Nat)) :
    (l.map Prod.fst).map v.bytes = l.map fun p => v.bytes p.1 := by
  rw [map_map]
  rfl

section

variable (hw : v.Coherent m₀ u₀) (ht : v.Targets u₀ u m c done)

include hw ht

theorem room_left (hroom : Room u₀) (hx : x ∈ v.young) (hnew : ∀ d, (x, d) ∉ c.pairs) :
    u.old.top + v.bytes x ≤ u.old.committedEnd := by
  have hold := ht.promoted.length_eq
  have hcommitted := ht.old_same.2.2
  have hle := hw.geometry.old_le
  have honce : (c.promoted.map Prod.fst).Nodup := by
    have h := ht.once
    unfold Copies.pairs at h
    rw [map_append] at h
    exact (nodup_append.mp h).2.1
  have hsum := young_sum_le hw (l := c.promoted.map Prod.fst ++ [x])
    (nodup_append.mpr ⟨honce, nodup_singleton x, fun a ha b hb hab => by
      obtain ⟨p, hp, rfl⟩ := mem_map.mp ha
      rw [mem_singleton] at hb
      rw [hb] at hab
      apply hnew p.2
      rw [← hab]
      exact mem_append.mpr (.inr hp)⟩)
    fun a ha => by
      rcases mem_append.mp ha with ha | ha
      · obtain ⟨p, hp, rfl⟩ := mem_map.mp ha
        exact ht.young p (mem_append.mpr (.inr hp))
      · rw [mem_singleton.mp ha]
        exact hx
  rw [map_append, sum_append, map_fst_bytes] at hsum
  simp only [map_cons, map_nil, sum_cons, sum_nil] at hsum
  unfold Room OldGen.freeBytes at hroom
  omega

theorem copied_le : (u.toSpace.top - u.toSpace.start) + (u.old.top - u₀.old.top) ≤
      (u₀.eden.top - u₀.eden.start) + (u₀.fromSpace.top - u₀.fromSpace.start) := by
  have hto := ht.survivors.length_eq
  have hold := ht.promoted.length_eq
  have hsame := ht.to_same.1
  have hsum := young_sum_le hw ht.once fun a ha => by
    obtain ⟨p, hp, rfl⟩ := mem_map.mp ha
    exact ht.young p hp
  rw [map_fst_bytes] at hsum
  unfold Copies.pairs at hsum
  rw [map_append, sum_append] at hsum
  omega

omit hw ht in
theorem CopiedTo.old_word (hw : v.Coherent m₀ u₀)
    (hx : x ∈ v.young) (hf : v.FreshBlock c done dest (v.bytes x)) (hcopy : v.CopiedTo m m' x dest)
    {j : Nat} (ha : a ∈ v.old) (hj : j ∈ v.oopWords a) : m' (a + 8 * j) = m (a + 8 * j) := by
  have hobj : a ∈ v.objects := mem_objects.mpr (.inr ha)
  have hlt := (oopWords_lt (hw.nis_ge hobj) hj).2
  have hb := v.bytes_eq a
  have h₁ : a + v.bytes a ≤ dest ∨ dest + v.bytes x ≤ a := hf.holder (a, a) (.inr ⟨ha, rfl⟩)
  have h₂ := hw.young_new hx
  have h₃ := (hw.old_bounds ha).1
  exact hcopy.frame _ (by omega) (by omega)

omit hw ht in
theorem once_append {l l' : List (Nat × Nat)} {d : Nat} (h : ((l ++ l').map Prod.fst).Nodup)
    (hnew : ∀ d, (x, d) ∉ l ++ l') : ((l ++ [(x, d)] ++ l').map Prod.fst).Nodup := by
  have hperm : (l ++ [(x, d)] ++ l').Perm ((x, d) :: (l ++ l')) := by
    rw [append_assoc]
    exact perm_middle
  refine (hperm.map Prod.fst).nodup_iff.mpr ?_
  rw [map_cons, nodup_cons]
  refine ⟨fun hm => ?_, h⟩
  obtain ⟨⟨y, d'⟩, hp, he⟩ := mem_map.mp hm
  have he : y = x := he
  rw [he] at hp
  exact hnew d' hp

theorem Targets.survive {u' : Universe} {ages : Nat → Nat} (hx : x ∈ v.young) (hnew : ∀ d, (x, d) ∉ c.pairs)
    (hn : u.toSpace.top + v.bytes x ≤ u.toSpace.stop) (hcopy : v.CopiedTo m m' x u.toSpace.top) (hu : u' = { u with
      toSpace := { u.toSpace with top := u.toSpace.top + v.bytes x }
      bytesAtAge := ages }) :
    v.Targets u₀ u' m' (c.survive (x, u.toSpace.top)) done := by
  subst hu
  have hpos := hw.bytes_pos (mem_objects.mpr (.inl hx))
  have hf := fresh_survivor hw ht hn
  refine ⟨ht.eden, ht.fromSpace, ht.to_same, ht.old_same, ht.nCards, ht.no_stall, ?_, ht.promoted, hn,
    once_append ht.once hnew, fun p hp => ?_, fun y hy => ?_, ht.dirty, fun a ha j hj hnewer => ?_,
    ht.resolves.congr rfl rfl rfl⟩
  · exact ht.survivors.snoc rfl (Nat.lt_of_lt_of_le (by decide) hpos)
  · rcases Copies.mem_survive.mp hp with hp | rfl
    · exact ht.young p hp
    · exact hx
  · dsimp only
    rcases ht.done_lt y hy with h | h
    · omega
    · exact .inr h
  · rw [hcopy.old_word hw hx hf ha hj] at hnewer
    exact ht.remembered a ha j hj hnewer

theorem Targets.promote (hx : x ∈ v.young) (hnew : ∀ d, (x, d) ∉ c.pairs) (hcopy : v.CopiedTo m m' x u.old.top) :
    v.Targets u₀ (({ u with old := { u.old with top := u.old.top + v.bytes x } }.recordObject
        u.old.top (v.bytes x)).recordMultistores u.old.top (u.old.top + v.bytes x)) m'
      (c.promote (x, u.old.top)) done := by
  have hpos := hw.bytes_pos (mem_objects.mpr (.inl hx))
  have hf := fresh_promoted hw ht (v.bytes x)
  have hle := ht.promoted.le
  have hold := ht.old_same.1
  have hge := hw.geometry.old_le.1
  have hdvd : 8 ∣ u.old.top - u.old.start := by
    have h₁ := (hw.old.dvd (d := 8) fun b _ => ⟨_, v.bytes_eq b⟩).1
    have h₂ := (ht.promoted.dvd (d := 8) fun b _ => ⟨_, v.bytes_eq b.1⟩).1
    have he : u.old.top - u.old.start = (u.old.top - u₀.old.top) + (u₀.old.top - u₀.old.start) := by
      omega
    rw [he]
    exact Nat.dvd_add h₂ h₁
  have hrange : u.old.top < u.old.top + v.bytes x := by omega
  unfold Universe.recordMultistores
  rw [if_pos hrange]
  refine ⟨ht.eden, ht.fromSpace, ht.to_same, ht.old_same, ht.nCards, ht.no_stall, ht.survivors, ?_,
    ht.to_le, ?_, fun p hp => ?_, fun y hy => ?_, fun y hlow hhigh => ?_, fun a ha j hj hnewer => ?_, ?_⟩
  · exact ht.promoted.snoc rfl (Nat.lt_of_lt_of_le (by decide) hpos)
  · have hperm : (c.survivors ++ (c.promoted ++ [(x, u.old.top)])).Perm
        (c.survivors ++ [(x, u.old.top)] ++ c.promoted) := by
      rw [append_assoc]
      exact List.Perm.append_left _ perm_append_comm
    exact (hperm.map Prod.fst).nodup_iff.mpr (once_append ht.once hnew)
  · rcases Copies.mem_promote.mp hp with hp | rfl
    · exact ht.young p hp
    · exact hx
  · have hbound : (u.toSpace.start ≤ y ∧ y < u.toSpace.top) ∨
        (u.old.start ≤ y ∧ y < u.old.top + v.bytes x) := by
      rcases ht.done_lt y hy with h | h
      · exact .inl h
      · omega
    exact hbound
  · have hhigh : y < u.old.top + v.bytes x := hhigh
    by_cases hy : y < u.old.top
    · exact Bool.or_eq_true_iff.mpr (.inr (ht.dirty y hlow hy))
    · refine Bool.or_eq_true_iff.mpr (.inl (Bool.and_eq_true_iff.mpr ⟨?_, ?_⟩))
      · apply decide_eq_true
        unfold Universe.cardIndex Universe.recordObject cardSize
        dsimp only
        omega
      · apply decide_eq_true
        unfold Universe.cardIndex Universe.recordObject cardSize
        dsimp only
        omega
  · rw [hcopy.old_word hw hx hf ha hj] at hnewer
    exact Bool.or_eq_true_iff.mpr (.inr (ht.remembered a ha j hj hnewer))
  · unfold Copies.promote
    rw [map_append, ← append_assoc]
    exact ht.resolves.record (by omega) hdvd rfl rfl rfl

end

theorem Contents.header (hw : v.Coherent m₀ u₀) (h : v.Contents m₀ m c done) (hx : x ∈ v.young) :
    (∃ d, (x, d) ∈ c.pairs ∧ m x = .mem d) ∨
      ((∀ d, (x, d) ∉ c.pairs) ∧ ∃ mark, m x = .mark mark ∧ m₀ x = .mark mark) := by
  by_cases hany : ∃ d, (x, d) ∈ c.pairs
  · obtain ⟨d, hd⟩ := hany
    exact .inl ⟨d, hd, h.forwarded _ hd⟩
  · have hno : ∀ d, (x, d) ∉ c.pairs := fun d hd => hany ⟨d, hd⟩
    obtain ⟨mark, hm, _⟩ := hw.marks x (mem_objects.mpr (.inl hx))
    exact .inr ⟨hno, mark, by rw [h.waiting x hx hno, hm], hm⟩

structure Kept (v : HeapView) (m : Memory) (u : Universe) (c : Copies) (m' : Memory) (u' : Universe)
    (c' : Copies) : Prop where
  extends_ : c.Extends c'
  cards : ∀ i, u.cards i = true → u'.cards i = true
  words : ∀ p, v.Holder c p → ∀ j, j < (v.shape p.1).size → m' (p.2 + 8 * j) = m (p.2 + 8 * j)

theorem Kept.refl (v : HeapView) (m : Memory) (u : Universe) (c : Copies) : v.Kept m u c m u c :=
  ⟨Copies.Extends.refl c, fun _ h => h, fun _ _ _ _ => rfl⟩

theorem CopiedTo.kept_words (hw : v.Coherent m₀ u₀) (ht : v.Targets u₀ u m c done)
    (hx : x ∈ v.young) (hf : v.FreshBlock c done dest (v.bytes x)) (hcopy : v.CopiedTo m m' x dest)
    {j : Nat} (hp : v.Holder c p) (hj : j < (v.shape p.1).size) :
    m' (p.2 + 8 * j) = m (p.2 + 8 * j) := by
  have hb := v.bytes_eq p.1
  have hpos := hw.bytes_pos (mem_objects.mpr (.inl hx))
  have h₁ := young_holder_apart hw ht hx hp
  have h₂ := hf.holder p hp
  exact hcopy.frame _ (by omega) (by omega)

theorem copyTarget_cases (hw : v.Coherent m₀ u₀) (ht : v.Targets u₀ u m c done) (hroom : Room u₀)
    (hx : x ∈ v.young) (hnew : ∀ d, (x, d) ∉ c.pairs) (agePromote : Bool) :
    (u.toSpace.top + v.bytes x ≤ u.toSpace.stop ∧ u.copyTarget agePromote (v.bytes x) = some (u.toSpace.top, false,
          { u with toSpace := { u.toSpace with top := u.toSpace.top + v.bytes x } })) ∨
      u.copyTarget agePromote (v.bytes x) = some (u.old.top, true,
        { u with old := { u.old with top := u.old.top + v.bytes x } }.recordObject u.old.top
          (v.bytes x)) := by
  have hleft := room_left hw ht hroom hx hnew
  have hbytes := v.bytes_eq x
  have hround : (v.bytes x + 7) / 8 * 8 = v.bytes x := by omega
  have halloc : u.oldAllocate (v.bytes x) = some (u.old.top,
      { u with old := { u.old with top := u.old.top + v.bytes x } }.recordObject u.old.top
        (v.bytes x)) := by
    unfold Universe.oldAllocate
    rw [hround]
    rw [if_neg (Nat.not_lt.mpr hleft)]
  unfold Universe.copyTarget
  split
  next =>
    right
    rw [halloc]
    rfl
  next hb =>
    left
    have hfit : ¬ u.toSpace.stop < u.toSpace.top + v.bytes x := by
      intro hlt
      exact hb (Bool.or_eq_true_iff.mpr (.inr (decide_eq_true hlt)))
    exact ⟨Nat.not_lt.mp hfit, rfl⟩

theorem scavengeOop_spec (hw : v.Coherent m₀ u₀) (hroom : Room u₀)
    (h : v.Copying m₀ u₀ m u c done) {w : Word} (hv : v.Valid w) :
    ∃ w' m' u' c', Universe.scavengeOop m u w = some (w', m', u') ∧
      v.Copying m₀ u₀ m' u' c' done ∧ v.Moved c' w w' ∧ v.Kept m u c m' u' c' := by
  have hsame : ∀ w', v.Moved c w w' → Universe.scavengeOop m u w = some (w', m, u) →
      ∃ w' m' u' c', Universe.scavengeOop m u w = some (w', m', u') ∧
        v.Copying m₀ u₀ m' u' c' done ∧ v.Moved c' w w' ∧ v.Kept m u c m' u' c' :=
    fun w' hm hs => ⟨w', m, u, c, hs, h, hm, Kept.refl v m u c⟩
  have ht := h.targets
  cases w with
  | smi i => exact hsame (.smi i) rfl rfl
  | mark i => exact hsame (.mark i) rfl rfl
  | bits i => exact hsame (.bits i) rfl rfl
  | mem x =>
    have hold := ht.old_same.1
    have hobj := hv x rfl
    by_cases hge : u.old.start ≤ x
    · have hnot : x ∉ v.young := by
        intro hy
        have := hw.young_new hy
        omega
      refine hsame (.mem x) (.inr ⟨hnot, rfl⟩) ?_
      unfold Universe.scavengeOop Universe.isOld
      dsimp only
      rw [if_pos (decide_eq_true hge)]
    · have hy : x ∈ v.young := by
        rcases mem_objects.mp hobj with hy | ho
        · exact hy
        · have := (hw.old_bounds ho).1
          omega
      have hpos := hw.bytes_pos hobj
      have hbytes := v.bytes_eq x
      have hapart := (young_apart hw ht hy).1
      have hle := ht.to_le
      have hnotold : ¬ decide (u.old.start ≤ x) = true := fun hd => hge (of_decide_eq_true hd)
      have hnotto : ¬ (u.toSpace.start ≤ x ∧ x < u.toSpace.top) := by omega
      rcases h.contents.header hw hy with ⟨d, hd, hm⟩ | ⟨hno, mark, hm, hm₀⟩
      · refine hsame (.mem d) (.inl ⟨hy, d, hd, rfl⟩) ?_
        unfold Universe.scavengeOop Universe.isOld
        dsimp only
        rw [if_neg hnotold, if_neg hnotto, hm]
      · have hsize := h.contents.objectSizeForCopy hw hy
        have hmark : m.markAt x = some mark := by
          unfold Memory.markAt
          rw [hm]
        have hbytes' : (v.shape x).size * wordSize = v.bytes x := rfl
        have hstep : ∀ {r}, (u.copyTarget (decide (u.tenuringThreshold ≤ mark.age + 1)) (v.bytes x)).elim
            (some (Word.mem x, m, { u with pendingStall := true }))
            (fun t =>
              let m := Universe.copyWords m x t.1 (v.shape x).size
              if t.2.1 then
                some (.mem t.1, m.installForwarding x t.1, t.2.2.recordMultistores t.1 (t.1 + v.bytes x))
              else
                let newAge := min (mark.age + 1) Mark.ageMax
                some (.mem t.1, (m.setMark t.1 (mark.withAge newAge)).installForwarding x t.1,
                  t.2.2.recordAge newAge (v.bytes x))) = r →
            Universe.scavengeOop m u (.mem x) = r := by
          intro r hr
          unfold Universe.scavengeOop Universe.isOld
          dsimp only
          rw [if_neg hnotold, if_neg hnotto, hm]
          simp only [hsize, hmark, hbytes', Option.bind_eq_bind, Option.bind_some, Option.pure_def]
          rw [← hr]
          cases u.copyTarget (decide (u.tenuringThreshold ≤ mark.age + 1)) (v.bytes x) <;> rfl
        rcases copyTarget_cases hw ht hroom hy hno (decide (u.tenuringThreshold ≤ mark.age + 1)) with
          ⟨hfit, htarget⟩ | htarget
        · have hf := fresh_survivor hw ht hfit
          have hcopy := copiedTo (v := v) (m := m) (by omega) (hf.young x hy)
            (.mark (mark.withAge (min (mark.age + 1) Mark.ageMax)))
            ⟨mark, _, hm, rfl, rfl, rfl, rfl, rfl⟩
          have hrun := hstep rfl
          rw [htarget] at hrun
          refine ⟨_, _, _, c.survive (x, u.toSpace.top), hrun, ⟨?_, ?_⟩, ?_,
            c.extends_survive _, fun _ hi => hi, fun p hp j hj => hcopy.kept_words hw ht hy hf hp hj⟩
          · exact h.contents.copy hw ht hy hno hf hcopy fun p => Copies.mem_survive
          · exact ht.survive hw hy hno hfit hcopy rfl
          · exact .inl ⟨hy, u.toSpace.top, Copies.mem_survive.mpr (.inr rfl), rfl⟩
        · have hf := fresh_promoted hw ht (v.bytes x)
          have hcopy := copiedTo (v := v) (m := m) (by omega) (hf.young x hy)
            (.mark mark) ⟨mark, mark, hm, rfl, rfl, rfl, rfl, rfl⟩
          -- the copied header is written nowhere else
          have hself : (Universe.copyWords m x u.old.top (v.shape x).size).write u.old.top (.mark mark) =
              Universe.copyWords m x u.old.top (v.shape x).size := by
            apply update_eq_self_iff.mpr
            unfold Universe.copyWords
            rw [if_pos (by unfold wordSize; omega), Nat.sub_self, Nat.add_zero, hm]
          rw [hself] at hcopy
          have hrun := hstep rfl
          rw [htarget] at hrun
          refine ⟨_, _, _, c.promote (x, u.old.top), hrun, ⟨?_, ?_⟩, ?_,
            c.extends_promote _, fun i hi => ?_, fun p hp j hj => hcopy.kept_words hw ht hy hf hp hj⟩
          · exact h.contents.copy hw ht hy hno hf hcopy fun p => Copies.mem_promote
          · exact ht.promote hw hy hno hcopy
          · exact .inl ⟨hy, u.old.top, Copies.mem_promote.mpr (.inr rfl), rfl⟩
          · unfold Universe.recordMultistores
            rw [if_pos (by omega)]
            exact Bool.or_eq_true_iff.mpr (.inr hi)

end HeapView

end WinArmVm
