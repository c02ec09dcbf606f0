import WinArmVm.ScavengeSlots

namespace WinArmVm.HeapView

open List Tiling Universe Memory Shape

variable {v : HeapView} {m₀ m m' : Memory} {u₀ u u' : Universe} {c c' c'' : Copies}
  {done done' : Nat → Prop} {a x i j : Nat} {before st : Bool}

/-- The scan of dirty card `i`: while no slot visited in it holds a new oop, the flag is down. -/
structure CardScan (v : HeapView) (m₀ : Memory) (u₀ : Universe) (i : Nat) (st : Bool) (m : Memory)
    (u : Universe) (c : Copies) (done : Nat → Prop) : Prop where
  copying : v.Copying m₀ u₀ m u c done
  dirty : u.cards i = true
  clean : st = false → ∀ a ∈ v.old, ∀ j ∈ v.oopWords a, u₀.cardBase i ≤ a + 8 * j →
    done (a + 8 * j) → u₀.isNewOop (m (a + 8 * j)) = false

theorem CardScan.congr (h : v.CardScan m₀ u₀ i st m u c done) (hd : ∀ x, done x ↔ done' x) :
    v.CardScan m₀ u₀ i st m u c done' := by
  have he : done = done' := funext fun x => propext (hd x)
  rw [← he]
  exact h

theorem isNewOop_same (h : v.Targets u₀ u m c done) (w : Word) : u.isNewOop w = u₀.isNewOop w := by
  unfold isNewOop isNew
  rw [h.old_same.1]

theorem touch_spec (hw : v.Coherent m₀ u₀) (hroom : Room u₀)
    (h : v.CardScan m₀ u₀ i (before || st) m u c done) (ha : a ∈ v.old) (hj : j ∈ v.oopWords a)
    (hfresh : u₀.cardBase i ≤ a + 8 * j → ¬ done (a + 8 * j)) :
    ∃ st' m' u' c', Universe.touch (u₀.cardBase i) (u₀.cardBase i + cardSize) m u st (a + 8 * j) = some (st', m', u') ∧
      v.CardScan m₀ u₀ i (before || st') m' u' c' (fun y => done y ∨
        (y = a + 8 * j ∧ u₀.cardBase i ≤ y ∧ y < u₀.cardBase i + cardSize)) ∧ c.Extends c' := by
  have hp : v.Holder c (a, a) := .inr ⟨ha, rfl⟩
  unfold touch
  by_cases hout : a + 8 * j < u₀.cardBase i ∨ u₀.cardBase i + cardSize ≤ a + 8 * j
  · rw [if_pos hout]
    refine ⟨st, m, u, c, rfl, h.congr fun y => ?_, Copies.Extends.refl c⟩
    constructor
    · exact .inl
    · rintro (hd | ⟨rfl, hl, hh⟩)
      · exact hd
      · omega
  · rw [if_neg hout]
    have hbase : u₀.cardBase i = u₀.old.start + i * 512 := rfl
    have hsize : cardSize = 512 := rfl
    have hidx : u.cardIndex (a + 8 * j) = i := by
      unfold cardIndex
      rw [h.copying.targets.old_same.1, hsize]
      omega
    obtain ⟨w', m', u', c', hrun, h', hk⟩ := slot_spec hw hroom h.copying hp hj (hfresh (by omega))
      fun _ => by rw [hidx]; exact h.dirty
    have hnew := isNewOop_same h'.targets
    refine ⟨st || u'.isNewOop w', m'.write (a + 8 * j) w', u', c', ?_, ⟨?_, hk.cards i h.dirty, fun hst b hb k hk' hl hd => ?_⟩,
      hk.extends_⟩
    · dsimp only at hrun
      rw [hrun]
      rfl
    · refine h'.redone ?_ (fun p _ k _ hd => ?_) fun p _ k _ hd hno => ?_
      · rintro y (hy | ⟨rfl, _⟩)
        · exact h'.targets.done_lt y (.inl hy)
        · exact h'.targets.done_lt _ (.inr rfl)
      · rcases hd with hd | he
        · exact .inl hd
        · exact .inr ⟨he, by rw [he]; dsimp only; omega, by rw [he]; dsimp only; omega⟩
      · rcases hd with hd | ⟨he, _⟩
        · exact absurd (.inl hd) hno
        · exact absurd (.inr he) hno
    · rw [← Bool.or_assoc] at hst
      obtain ⟨hst₀, hst₁⟩ := Bool.or_eq_false_iff.mp hst
      by_cases he : b + 8 * k = a + 8 * j
      · rw [he]
        unfold write
        rw [Function.update_self, ← hnew]
        exact hst₁
      · have hlt := (oopWords_lt (hw.nis_ge (mem_objects.mpr (.inr hb))) hk').2
        have hkept := hk.words (b, b) (.inr ⟨hb, rfl⟩) k hlt he
        rw [hkept]
        rcases hd with hd | ⟨he', _⟩
        · exact h.clean hst₀ b hb k hk' hl hd
        · exact absurd he' he

theorem touchAll_spec (hw : v.Coherent m₀ u₀) (hroom : Room u₀) (ha : a ∈ v.old) {l : List Nat}
    (h : v.CardScan m₀ u₀ i (before || st) m u c done) (hl : ∀ j ∈ l, j ∈ v.oopWords a) (hn : l.Nodup)
    (hfresh : ∀ j ∈ l, u₀.cardBase i ≤ a + 8 * j → ¬ done (a + 8 * j)) :
    ∃ st' m' u' c', Universe.touchAll (u₀.cardBase i) (u₀.cardBase i + cardSize)
        (l.map fun j => a + 8 * j) st m u = some (st', m', u') ∧
      v.CardScan m₀ u₀ i (before || st') m' u' c' (fun y => done y ∨ ∃ j ∈ l,
        y = a + 8 * j ∧ u₀.cardBase i ≤ y ∧ y < u₀.cardBase i + cardSize) ∧ c.Extends c' := by
  induction l generalizing st m u c done with
  | nil =>
    refine ⟨st, m, u, c, rfl, h.congr fun y => ?_, Copies.Extends.refl c⟩
    simp
  | cons j l ih =>
    obtain ⟨st₁, m₁, u₁, c₁, hrun, h₁, he₁⟩ := touch_spec hw hroom h ha (hl j mem_cons_self)
      (hfresh j mem_cons_self)
    obtain ⟨hnot, hn⟩ := nodup_cons.mp hn
    obtain ⟨st₂, m₂, u₂, c₂, hrun₂, h₂, he₂⟩ :=
      ih h₁ (fun k hk => hl k (mem_cons_of_mem j hk)) hn fun k hk hlow => by
        rintro (hd | ⟨he, _⟩)
        · exact hfresh k (mem_cons_of_mem j hk) hlow hd
        · have : k = j := by omega
          rw [this] at hk
          exact hnot hk
    refine ⟨st₂, m₂, u₂, c₂, ?_, h₂.congr fun y => ?_, he₁.trans he₂⟩
    · rw [map_cons]
      unfold touchAll
      rw [hrun]
      exact hrun₂
    · simp only [mem_cons, exists_eq_or_imp]
      tauto

theorem map_bodyAddr (a : Nat) (l : List Nat) : l.map (Memory.bodyAddr a) = (l.map (· + 2)).map fun j => a + 8 * j := by
  rw [map_map]
  exact map_congr_left fun i _ => bodyAddr_eq a i

theorem indexableLen_eq (hw : v.Coherent m₀ u₀) (h : v.Contents m₀ m c done) (ha : a ∈ v.objects)
    (hi : (v.shape a).format.indexable = true) :
    Universe.indexableLen m a = some (v.shape a).len := by
  obtain ⟨k', hk, hv⟩ := h.klass hw ha (.inl rfl)
  have hr := h.reads hw ha (.inl rfl) hv
  have hlen := hr.len hi
  unfold indexableLen
  simp only [hk, hr.nis, hr.format, Option.bind_eq_bind, Option.bind_some]
  unfold Format.indexable at hi
  cases hf : (v.shape a).format
  all_goals
    rw [hf] at hi
    dsimp only at hi ⊢
    first
      | exact hlen
      | cases hi

theorem tailStartWord_eq (hw : v.Coherent m₀ u₀) (h : v.Contents m₀ m c done) (ha : a ∈ v.objects) :
    Universe.tailStartWord m a = some ((v.shape a).nis - headerWords + 1) := by
  obtain ⟨k', hk, hv⟩ := h.klass hw ha (.inl rfl)
  have hr := h.reads hw ha (.inl rfl) hv
  unfold tailStartWord
  simp only [hk, hr.nis, Option.bind_eq_bind, Option.bind_some, Option.pure_def]

/-- The elements of a tail at `base` that the window takes in. -/
def tailWindow (base windowStart windowEnd len : Nat) : List Nat := List.range' ((windowStart - base + 7) / 8)
    (min ((windowEnd - base + 7) / 8) len - (windowStart - base + 7) / 8)

theorem mem_tailWindow {base windowStart windowEnd len n : Nat} : n ∈ tailWindow base windowStart windowEnd len ↔
      n < len ∧ windowStart ≤ base + 8 * n ∧ base + 8 * n < windowEnd := by
  unfold tailWindow
  rw [mem_range'_1]
  omega

theorem scanTail_spec (hw : v.Coherent m₀ u₀) (hroom : Room u₀) (ha : a ∈ v.old)
    (h : v.CardScan m₀ u₀ i (before || st) m u c done) (hi : (v.shape a).format.indexable = true)
    (hslot : ∀ n, n < (v.shape a).len → (v.shape a).nis - headerWords + 1 + n + 2 ∈ v.oopWords a)
    (hfresh : ∀ n < (v.shape a).len, u₀.cardBase i ≤ a + 8 * ((v.shape a).nis - headerWords + 1 + n + 2) →
      ¬ done (a + 8 * ((v.shape a).nis - headerWords + 1 + n + 2))) :
    ∃ st' m' u' c', ((Universe.indexableLen m a).bind fun len =>
        if 0 < len then
          (Universe.tailStartWord m a).bind fun tail0 =>
            Universe.touchAll (u₀.cardBase i) (u₀.cardBase i + cardSize)
              ((tailWindow (Memory.bodyAddr a tail0) (u₀.cardBase i)
                (u₀.cardBase i + cardSize) len).map fun n => Memory.bodyAddr a (tail0 + n)) st m u
        else some (st, m, u)) = some (st', m', u') ∧
      v.CardScan m₀ u₀ i (before || st') m' u' c' (fun y => done y ∨ ∃ n < (v.shape a).len,
        y = a + 8 * ((v.shape a).nis - headerWords + 1 + n + 2) ∧ u₀.cardBase i ≤ y ∧
          y < u₀.cardBase i + cardSize) ∧ c.Extends c' := by
  have hobj : a ∈ v.objects := mem_objects.mpr (.inr ha)
  rw [indexableLen_eq hw h.copying.contents hobj hi, Option.bind_some]
  split
  next hpos =>
    rw [tailStartWord_eq hw h.copying.contents hobj, Option.bind_some]
    generalize (v.shape a).nis - headerWords + 1 = tail0 at hslot hfresh ⊢
    have hmap : ∀ l : List Nat, (l.map fun n => bodyAddr a (tail0 + n)) =
        (l.map fun n => tail0 + n + 2).map fun j => a + 8 * j := by
      intro l
      rw [map_map]
      exact map_congr_left fun n _ => bodyAddr_eq a (tail0 + n)
    have hbase := bodyAddr_eq a tail0
    have hwindow : ∀ n, n ∈ tailWindow (bodyAddr a tail0) (u₀.cardBase i)
        (u₀.cardBase i + cardSize) (v.shape a).len ↔ n < (v.shape a).len ∧ u₀.cardBase i ≤ a + 8 * (tail0 + n + 2) ∧
          a + 8 * (tail0 + n + 2) < u₀.cardBase i + cardSize := by
      intro n
      have he : bodyAddr a tail0 + 8 * n = a + 8 * (tail0 + n + 2) := by omega
      rw [mem_tailWindow, he]
    rw [hmap]
    obtain ⟨st', m', u', c', hrun, h', he⟩ := touchAll_spec hw hroom ha h
      (l := (tailWindow (bodyAddr a tail0) (u₀.cardBase i) (u₀.cardBase i + cardSize)
        (v.shape a).len).map fun n => tail0 + n + 2)
      (fun j hj => by
        obtain ⟨n, hn, rfl⟩ := mem_map.mp hj
        exact hslot n ((hwindow n).mp hn).1)
      (List.Nodup.map (fun x y hxy => by omega) nodup_range')
      fun j hj hlow => by
        obtain ⟨n, hn, rfl⟩ := mem_map.mp hj
        exact hfresh n ((hwindow n).mp hn).1 hlow
    refine ⟨st', m', u', c', hrun, h'.congr fun y => ?_, he⟩
    constructor
    · rintro (hd | ⟨j, hj, hy, hl, hh⟩)
      · exact .inl hd
      · obtain ⟨n, hn, rfl⟩ := mem_map.mp hj
        exact .inr ⟨n, ((hwindow n).mp hn).1, hy, hl, hh⟩
    · rintro (hd | ⟨n, hn, hy, hl, hh⟩)
      · exact .inl hd
      · refine .inr ⟨tail0 + n + 2, mem_map.mpr ⟨n, (hwindow n).mpr ?_, rfl⟩, hy, hl, hh⟩
        rw [← hy]
        exact ⟨hn, hl, hh⟩
  next hpos =>
    refine ⟨st, m, u, c, rfl, h.congr fun y => ?_, Copies.Extends.refl c⟩
    constructor
    · exact .inl
    · rintro (hd | ⟨n, hn, _⟩)
      · exact hd
      · omega

theorem oopWords_body (h : (v.shape a).bodyOops = List.range ((v.shape a).nis - headerWords)) :
    v.oopWords a = 1 :: (List.range ((v.shape a).nis - headerWords)).map (· + 2) := by
  unfold oopWords
  rw [h]

theorem scanSlots_spec (hw : v.Coherent m₀ u₀) (hroom : Room u₀)
    (h : v.CardScan m₀ u₀ i before m u c done) (ha : a ∈ v.old) {k : Nat} (hk : Version c (v.shape a).klass k)
    (hfresh : ∀ j ∈ v.oopWords a, u₀.cardBase i ≤ a + 8 * j → ¬ done (a + 8 * j)) :
    ∃ st' m' u' c', Universe.scanSlotsInWindow m u a k (u₀.cardBase i) (u₀.cardBase i + cardSize) = some (st', m', u') ∧
      v.CardScan m₀ u₀ i (before || st') m' u' c' (fun y => done y ∨ ∃ j ∈ v.oopWords a,
        y = a + 8 * j ∧ u₀.cardBase i ≤ y ∧ y < u₀.cardBase i + cardSize) ∧ c.Extends c' := by
  have hobj : a ∈ v.objects := mem_objects.mpr (.inr ha)
  have hs := hw.shaped a hobj
  have hnis := h.copying.contents.nonIndexableSize hw hs.klass_mem hs.klass_format hk hs.reads.nis
  have hstart : v.CardScan m₀ u₀ i (before || false) m u c done := by
    rw [Bool.or_false]
    exact h
  obtain ⟨st₁, m₁, u₁, c₁, hrun₁, h₁, he₁⟩ :=
    touch_spec hw hroom hstart ha mem_cons_self (hfresh 1 mem_cons_self)
  have hk₁ : Version c₁ (v.shape a).klass k := hk.imp_right (he₁.subset _)
  have hformat := h₁.copying.contents.format hw hs.klass_mem hs.klass_format hk₁ hs.reads.format
  have hsplit := (v.shape a).bodyOops_nodup
  -- the named slots come first in every format that has slots
  have hnamed : (∃ tail, (v.shape a).bodyOops = List.range ((v.shape a).nis - headerWords) ++ tail) →
      ∃ st₂ m₂ u₂ c₂, touchAll (u₀.cardBase i) (u₀.cardBase i + cardSize)
          ((List.range ((v.shape a).nis - headerWords)).map (bodyAddr a)) st₁ m₁ u₁ =
          some (st₂, m₂, u₂) ∧
        v.CardScan m₀ u₀ i (before || st₂) m₂ u₂ c₂ (fun y => done y ∨
          ∃ j ∈ 1 :: (List.range ((v.shape a).nis - headerWords)).map (· + 2),
            y = a + 8 * j ∧ u₀.cardBase i ≤ y ∧ y < u₀.cardBase i + cardSize) ∧ c.Extends c₂ := by
    intro ⟨tail, htail⟩
    have hmem : ∀ j ∈ (List.range ((v.shape a).nis - headerWords)).map (· + 2), j ∈ v.oopWords a := by
      intro j hj
      obtain ⟨n, hn, rfl⟩ := mem_map.mp hj
      apply body_mem_oopWords.mpr
      rw [htail]
      exact mem_append.mpr (.inl hn)
    rw [map_bodyAddr]
    obtain ⟨st₂, m₂, u₂, c₂, hrun₂, h₂, he₂⟩ := touchAll_spec hw hroom ha h₁ hmem
      (nodup_range.map fun x y hxy => by simpa using hxy) fun j hj hlow => by
        rintro (hd | ⟨he, _⟩)
        · exact hfresh j (hmem j hj) hlow hd
        · obtain ⟨n, _, rfl⟩ := mem_map.mp hj
          omega
    refine ⟨st₂, m₂, u₂, c₂, hrun₂, h₂.congr fun y => ?_, he₁.trans he₂⟩
    simp only [mem_cons, exists_eq_or_imp]
    tauto
  have hplain : (v.shape a).bodyOops = List.range ((v.shape a).nis - headerWords) →
      ∃ st₂ m₂ u₂ c₂, touchAll (u₀.cardBase i) (u₀.cardBase i + cardSize)
          ((List.range ((v.shape a).nis - headerWords)).map (bodyAddr a)) st₁ m₁ u₁ =
          some (st₂, m₂, u₂) ∧
        v.CardScan m₀ u₀ i (before || st₂) m₂ u₂ c₂ (fun y => done y ∨ ∃ j ∈ v.oopWords a,
            y = a + 8 * j ∧ u₀.cardBase i ≤ y ∧ y < u₀.cardBase i + cardSize) ∧ c.Extends c₂ := by
    intro hb
    rw [oopWords_body hb]
    exact hnamed ⟨[], by rw [hb, append_nil]⟩
  have hnone : (v.shape a).bodyOops = [] → ∃ m₂ u₂ c₂, some (st₁, m₁, u₁) = some (st₁, m₂, u₂) ∧
        v.CardScan m₀ u₀ i (before || st₁) m₂ u₂ c₂ (fun y => done y ∨ ∃ j ∈ v.oopWords a,
            y = a + 8 * j ∧ u₀.cardBase i ≤ y ∧ y < u₀.cardBase i + cardSize) ∧ c.Extends c₂ := by
    intro hb
    refine ⟨m₁, u₁, c₁, rfl, h₁.congr fun y => ?_, he₁⟩
    unfold oopWords
    rw [hb]
    simp
  have htail : (v.shape a).format.indexable = true → (v.shape a).bodyOops =
        List.range ((v.shape a).nis - headerWords) ++ List.range' ((v.shape a).nis - headerWords + 1) (v.shape a).len →
      ∃ st₂ m₂ u₂ c₂, ((touchAll (u₀.cardBase i) (u₀.cardBase i + cardSize)
          ((List.range ((v.shape a).nis - headerWords)).map (bodyAddr a)) st₁ m₁ u₁).bind
          fun r => (indexableLen r.2.1 a).bind fun len =>
            if 0 < len then
              (tailStartWord r.2.1 a).bind fun tail0 =>
                touchAll (u₀.cardBase i) (u₀.cardBase i + cardSize) ((tailWindow (bodyAddr a tail0) (u₀.cardBase i)
                    (u₀.cardBase i + cardSize) len).map fun n => bodyAddr a (tail0 + n))
                  r.1 r.2.1 r.2.2
            else some (r.1, r.2.1, r.2.2)) = some (st₂, m₂, u₂) ∧
        v.CardScan m₀ u₀ i (before || st₂) m₂ u₂ c₂ (fun y => done y ∨ ∃ j ∈ v.oopWords a,
            y = a + 8 * j ∧ u₀.cardBase i ≤ y ∧ y < u₀.cardBase i + cardSize) ∧ c.Extends c₂ := by
    intro hi hb
    obtain ⟨st₂, m₂, u₂, c₂, hrun₂, h₂, he₂⟩ := hnamed ⟨_, hb⟩
    have hslot : ∀ n, n < (v.shape a).len → (v.shape a).nis - headerWords + 1 + n + 2 ∈ v.oopWords a := by
      intro n hn
      apply body_mem_oopWords.mpr
      rw [hb]
      exact mem_append.mpr (.inr (mem_range'_1.mpr ⟨by omega, by omega⟩))
    obtain ⟨st₃, m₃, u₃, c₃, hrun₃, h₃, he₃⟩ := scanTail_spec hw hroom ha h₂ hi hslot fun n hn hlow => by
      rintro (hd | ⟨j, hj, he, _⟩)
      · exact hfresh _ (hslot n hn) hlow hd
      · rcases mem_cons.mp hj with rfl | hj
        · omega
        · obtain ⟨k, hk, rfl⟩ := mem_map.mp hj
          have := mem_range.mp hk
          omega
    refine ⟨st₃, m₃, u₃, c₃, ?_, h₃.congr fun y => ?_, he₂.trans he₃⟩
    · rw [hrun₂]
      exact hrun₃
    · have hall : ∀ j, j ∈ v.oopWords a ↔ j ∈ 1 :: (List.range ((v.shape a).nis - headerWords)).map (· + 2) ∨
            ∃ n < (v.shape a).len, j = (v.shape a).nis - headerWords + 1 + n + 2 := by
        intro j
        unfold oopWords
        rw [hb, map_append, mem_cons, mem_append, mem_cons, or_assoc]
        refine or_congr Iff.rfl (or_congr Iff.rfl ?_)
        rw [mem_map]
        constructor
        · rintro ⟨n, hn, rfl⟩
          have := mem_range'_1.mp hn
          exact ⟨n - ((v.shape a).nis - headerWords + 1), by omega, by omega⟩
        · rintro ⟨n, hn, rfl⟩
          exact ⟨_, mem_range'_1.mpr ⟨by omega, by omega⟩, rfl⟩
      simp only [hall]
      constructor
      · rintro ((hd | ⟨j, hj, hy⟩) | ⟨n, hn, hy⟩)
        · exact .inl hd
        · exact .inr ⟨j, .inl hj, hy⟩
        · exact .inr ⟨_, .inr ⟨n, hn, rfl⟩, hy⟩
      · rintro (hd | ⟨j, hj | ⟨n, hn, rfl⟩, hy⟩)
        · exact .inl (.inl hd)
        · exact .inl (.inr ⟨j, hj, hy⟩)
        · exact .inr ⟨n, hn, hy⟩
  unfold scanSlotsInWindow
  simp only [hnis, hrun₁, hformat, Option.bind_eq_bind, Option.bind_some]
  cases hf : (v.shape a).format
  all_goals dsimp only
  case slots => exact hplain (by unfold bodyOops; rw [hf])
  case klass => exact hplain (by unfold bodyOops; rw [hf])
  case indexableBytes => exact hplain (by unfold bodyOops; rw [hf])
  case method => exact hplain (by unfold bodyOops; rw [hf])
  case double => exact ⟨st₁, hnone (by unfold bodyOops; rw [hf])⟩
  case process => exact ⟨st₁, hnone (by unfold bodyOops; rw [hf])⟩
  all_goals exact htail (by unfold Format.indexable; rw [hf]) (by unfold bodyOops; rw [hf])

end WinArmVm.HeapView
