import WinArmVm.ScavengeCards

namespace WinArmVm.HeapView

open Tiling List Option Function

variable {v : HeapView} {m₀ m m' : Memory} {u₀ u u' : Universe} {c c' c'' : Copies}
  {done done' : Nat → Prop} {a x i j : Nat} {before st : Bool}

/-- The old generation's slots below `b`, as the cycle found it. -/
def scanned (u₀ : Universe) (b : Nat) : Nat → Prop := fun y =>
  u₀.old.start ≤ y ∧ y < b ∧ y < u₀.old.top

theorem scanned_old (hw : v.Coherent m₀ u₀) (ht : v.Targets u₀ u m c done) {p : Nat × Nat}
    (hp : v.Holder c p) (hj : j ∈ v.oopWords p.1) {b : Nat} (hs : scanned u₀ b (p.2 + 8 * j)) :
    p.1 ∈ v.old ∧ p.2 = p.1 := by
  obtain ⟨hl, hb, hh⟩ := hs
  rcases hp with hp | hp
  · have hobj : p.1 ∈ v.objects := mem_objects.mpr (.inl (ht.young p hp))
    have hlt := (oopWords_lt (hw.nis_ge hobj) hj).2
    have hbytes := v.bytes_eq p.1
    have hto := hw.geometry.to_old
    have hle := ht.to_le
    have hstop := ht.to_same.2
    rcases mem_append.mp hp with hp | hp
    · have := ht.survivors.bounds hp
      omega
    · have := ht.promoted.bounds hp
      omega
  · exact hp

theorem scanned_bounds (ht : v.Targets u₀ u m c done) {b y : Nat} (hs : scanned u₀ b y) :
    (u.toSpace.start ≤ y ∧ y < u.toSpace.top) ∨ (u.old.start ≤ y ∧ y < u.old.top) := by
  have hold := ht.old_same.1
  have hle := ht.promoted.le
  unfold scanned at hs
  omega

theorem CardScan.advance (hw : v.Coherent m₀ u₀) (h : v.CardScan m₀ u₀ i st m u c (fun y => scanned u₀
        (max (u₀.cardBase i) (min a (u₀.cardBase i + cardSize))) y ∨ ∃ j ∈ v.oopWords a,
      y = a + 8 * j ∧ u₀.cardBase i ≤ y ∧ y < u₀.cardBase i + cardSize)) (ha : a ∈ v.old) :
    v.CardScan m₀ u₀ i st m u c (scanned u₀
      (max (u₀.cardBase i) (min (a + v.bytes a) (u₀.cardBase i + cardSize)))) := by
  have hobj : a ∈ v.objects := mem_objects.mpr (.inr ha)
  have hb := hw.old_bounds ha
  have hbytes := v.bytes_eq a
  have hslot : ∀ b ∈ v.old, ∀ k ∈ v.oopWords b,
      scanned u₀ (max (u₀.cardBase i) (min (a + v.bytes a) (u₀.cardBase i + cardSize))) (b + 8 * k) →
      scanned u₀ (max (u₀.cardBase i) (min a (u₀.cardBase i + cardSize))) (b + 8 * k) ∨
        ∃ j ∈ v.oopWords a, b + 8 * k = a + 8 * j ∧ u₀.cardBase i ≤ b + 8 * k ∧
          b + 8 * k < u₀.cardBase i + cardSize := by
    intro b hbo k hk hs
    have hbobj : b ∈ v.objects := mem_objects.mpr (.inr hbo)
    have hlt := (oopWords_lt (hw.nis_ge hbobj) hk).2
    have hbb := v.bytes_eq b
    unfold scanned at hs ⊢
    by_cases hlow : b + 8 * k < max (u₀.cardBase i) (min a (u₀.cardBase i + cardSize))
    · exact .inl ⟨hs.1, hlow, hs.2.2⟩
    · right
      rcases hw.apart hobj hbobj with rfl | hap | hap
      · exact ⟨k, hk, rfl, by omega, by omega⟩
      · omega
      · omega
  refine ⟨h.copying.redone (fun y hy => scanned_bounds h.copying.targets hy) (fun p hp k hk hd => ?_)
    fun p hp k hk hd hno => ?_, h.dirty, fun hst b hbo k hk hl hd => ?_⟩
  · rcases hd with hd | ⟨j, hj, he, hl, hh⟩
    · unfold scanned at hd ⊢
      omega
    · have hlt := (oopWords_lt (hw.nis_ge hobj) hj).2
      unfold scanned
      omega
  · obtain ⟨ho, he⟩ := scanned_old hw h.copying.targets hp hk hd
    rw [he] at hd hno
    exact absurd (hslot p.1 ho k hk hd) hno
  · exact h.clean hst b hbo k hk hl (hslot b hbo k hk hd)

theorem CardScan.finish {addr : Nat} (hno : ¬ (addr < u₀.cardBase i + cardSize ∧ addr < u₀.old.top))
    (h : v.CardScan m₀ u₀ i st m u c (scanned u₀ (max (u₀.cardBase i) (min addr (u₀.cardBase i + cardSize))))) :
    v.CardScan m₀ u₀ i st m u c (scanned u₀ (u₀.cardBase i + cardSize)) := by
  have hsize : cardSize = 512 := rfl
  refine h.congr fun y => ?_
  unfold scanned
  omega

theorem scanCard_spec (hw : v.Coherent m₀ u₀) (hroom : Room u₀) {l : List Nat} {fuel addr : Nat}
    (hl : ∀ a ∈ l, a ∈ v.old)
    (htiles : Tiles id v.bytes addr l u₀.old.top) (hfuel : u₀.cardBase i + cardSize - addr ≤ fuel)
    (h : v.CardScan m₀ u₀ i st m u c (scanned u₀ (max (u₀.cardBase i) (min addr (u₀.cardBase i + cardSize))))) :
    ∃ st' m' u' c', Universe.scanCard (u₀.cardBase i) (u₀.cardBase i + cardSize) u₀.old.top fuel addr
        st m u = some (st', m', u') ∧
      v.CardScan m₀ u₀ i st' m' u' c' (scanned u₀ (u₀.cardBase i + cardSize)) ∧ c.Extends c' := by
  induction l generalizing fuel addr st m u c with
  | nil =>
    have hend : addr = u₀.old.top := by
      cases htiles
      rfl
    have hno : ¬ (addr < u₀.cardBase i + cardSize ∧ addr < u₀.old.top) := by omega
    refine ⟨st, m, u, c, ?_, h.finish hno, Copies.Extends.refl c⟩
    cases fuel with
    | zero =>
      unfold Universe.scanCard
      rw [if_neg hno]
    | succ fuel =>
      unfold Universe.scanCard
      rw [if_neg hno]
  | cons a l ih =>
    by_cases hin : addr < u₀.cardBase i + cardSize ∧ addr < u₀.old.top
    · cases htiles with
      | cons hs hpos ht =>
        have hs : a = addr := hs
        subst hs
        have ha := hl a mem_cons_self
        have hobj : a ∈ v.objects := mem_objects.mpr (.inr ha)
        obtain ⟨n, rfl⟩ : ∃ n, fuel = n + 1 := ⟨fuel - 1, by omega⟩
        obtain ⟨k, hk, hv⟩ := h.copying.contents.klass hw hobj (.inl rfl)
        have hsize := (h.copying.contents.reads hw hobj (.inl rfl) hv).size
        have hbytes : (v.shape a).size * wordSize = v.bytes a := rfl
        have hfuel' : u₀.cardBase i + cardSize - (a + v.bytes a) ≤ n := by omega
        have hl' : ∀ b ∈ l, b ∈ v.old := fun b hb => hl b (mem_cons_of_mem a hb)
        have hcard : cardSize = 512 := rfl
        by_cases hreach : u₀.cardBase i < a + v.bytes a
        · -- what is done lies below the object, whose slots in the card are next
          obtain ⟨st₁, m₁, u₁, c₁, hrun₁, h₁, he₁⟩ := scanSlots_spec hw hroom h ha hv
            (fun j hj hlow hdone => by
              have hj := oopWords_lt (hw.nis_ge hobj) hj
              unfold scanned at hdone
              omega)
          obtain ⟨st₂, m₂, u₂, c₂, hrun₂, h₂, he₂⟩ := ih hl' ht hfuel' (h₁.advance hw ha)
          refine ⟨st₂, m₂, u₂, c₂, ?_, h₂, he₁.trans he₂⟩
          unfold Universe.scanCard
          rw [if_pos hin]
          simp only [hk, hsize, hbytes, hrun₁, bind_eq_bind, bind_some]
          rw [if_pos hreach]
          exact hrun₂
        · obtain ⟨st₂, m₂, u₂, c₂, hrun₂, h₂, he₂⟩ := ih hl' ht hfuel' (h.congr fun y => by
            unfold scanned
            omega)
          refine ⟨st₂, m₂, u₂, c₂, ?_, h₂, he₂⟩
          unfold Universe.scanCard
          rw [if_pos hin]
          simp only [hk, hsize, hbytes, bind_eq_bind, bind_some]
          rw [if_neg hreach]
          exact hrun₂
    · refine ⟨st, m, u, c, ?_, h.finish hin, Copies.Extends.refl c⟩
      cases fuel with
      | zero =>
        unfold Universe.scanCard
        rw [if_neg hin]
      | succ fuel =>
        unfold Universe.scanCard
        rw [if_neg hin]

theorem scanned_start (u₀ : Universe) (y : Nat) : ¬ scanned u₀ (u₀.cardBase 0) y := by
  unfold scanned Universe.cardBase
  omega

theorem cardBase_succ (u₀ : Universe) (i : Nat) : u₀.cardBase (i + 1) = u₀.cardBase i + cardSize := by
  unfold Universe.cardBase
  rw [Nat.add_mul, Nat.one_mul, Nat.add_assoc]

theorem cardBase_same (ht : v.Targets u₀ u m c done) (i : Nat) : u.cardBase i = u₀.cardBase i := by
  unfold Universe.cardBase
  rw [ht.old_same.1]

theorem cardIndex_same (ht : v.Targets u₀ u m c done) (x : Nat) : u.cardIndex x = u₀.cardIndex x := by
  unfold Universe.cardIndex
  rw [ht.old_same.1]

section

variable (hw : v.Coherent m₀ u₀)

include hw

theorem moved_self {w : Word} (hnew : u₀.isNewOop w = false) : v.Moved c w w := by
  cases w with
  | mem x =>
    refine .inr ⟨fun hy => ?_, rfl⟩
    have hlt := hw.young_new hy
    have hge := of_decide_eq_false hnew
    omega
  | smi i => rfl
  | mark i => rfl
  | bits i => rfl

theorem Copying.clean_card (hclean : u.cards i = false) (h : v.Copying m₀ u₀ m u c (scanned u₀ (u₀.cardBase i))) :
    v.Copying m₀ u₀ m u c (scanned u₀ (u₀.cardBase (i + 1))) := by
  have hsucc := cardBase_succ u₀ i
  have hbase : u₀.cardBase i = u₀.old.start + i * 512 := rfl
  have hsize : cardSize = 512 := rfl
  refine h.redone (fun y hy => scanned_bounds h.targets hy) (fun p _ j _ hd => ?_)
    fun p hp j hj hd hno => ?_
  · unfold scanned at hd ⊢
    omega
  · obtain ⟨ho, he⟩ := scanned_old hw h.targets hp hj hd
    have hfresh := h.contents.fresh p hp j hj hno
    have hidx : u.cardIndex (p.1 + 8 * j) = i := by
      rw [cardIndex_same h.targets]
      rw [he] at hd hno
      unfold scanned at hd hno
      unfold Universe.cardIndex cardSize
      omega
    have hold : u.isNewOop (m (p.1 + 8 * j)) = false := by
      cases hn : u.isNewOop (m (p.1 + 8 * j)) with
      | false => rfl
      | true =>
        have hdirty := h.targets.remembered p.1 ho j hj hn
        rw [hidx, hclean] at hdirty
        cases hdirty
    rw [isNewOop_same h.targets] at hold
    rw [he] at hfresh ⊢
    rw [hfresh] at hold ⊢
    exact moved_self hw hold

theorem CardScan.cleaned (h : v.CardScan m₀ u₀ i st m u c (scanned u₀ (u₀.cardBase i + cardSize))) :
    v.Copying m₀ u₀ m (if st = false ∧ u₀.cardBase i + cardSize ≤ u₀.old.top then u.setClean i else u)
      c (scanned u₀ (u₀.cardBase (i + 1))) := by
  rw [cardBase_succ]
  split
  next hclean =>
    obtain ⟨hst, hend⟩ := hclean
    obtain ⟨hc, ht⟩ := h.copying
    have hbase : u₀.cardBase i = u₀.old.start + i * 512 := rfl
    have hsize : cardSize = 512 := rfl
    refine ⟨hc, ht.eden, ht.fromSpace, ht.to_same, ht.old_same, ht.nCards, ht.no_stall, ht.survivors,
      ht.promoted, ht.to_le, ht.once, ht.young, ht.done_lt, fun x hlow hhigh => ?_,
      fun a ha j hj hnew => ?_, ht.resolves.congr rfl rfl rfl⟩
    · have hdirty := ht.dirty x hlow hhigh
      have hidx := cardIndex_same ht x
      have hne : u.cardIndex x ≠ i := by
        rw [hidx]
        unfold Universe.cardIndex cardSize
        omega
      exact (update_of_ne hne _ _).trans hdirty
    · have hdirty := ht.remembered a ha j hj hnew
      have hidx := cardIndex_same ht (a + 8 * j)
      by_cases he : u.cardIndex (a + 8 * j) = i
      · exfalso
        rw [hidx] at he
        have hbound := hw.old_bounds ha
        have hlt := (oopWords_lt (hw.nis_ge (mem_objects.mpr (.inr ha))) hj).2
        have hbytes := v.bytes_eq a
        have hcard : (a + 8 * j - u₀.old.start) / 512 = i := he
        have hdone : scanned u₀ (u₀.cardBase i + cardSize) (a + 8 * j) := by
          unfold scanned
          omega
        have hnew : u.isNewOop (m (a + 8 * j)) = true := hnew
        rw [isNewOop_same ht, h.clean hst a ha j hj (by omega) hdone] at hnew
        cases hnew
      · exact (update_of_ne he _ _).trans hdirty
  next => exact h.copying

theorem resolve_tiles (ht : v.Targets u₀ u m c done) (hi : u₀.cardBase i < u₀.old.top) :
    ∃ a l, u.resolve i = some a ∧ a ≤ u₀.cardBase i ∧ (∀ b ∈ l, b ∈ v.old) ∧
      Tiles id v.bytes a l u₀.old.top := by
  have hle := ht.promoted.le
  have hbase := cardBase_same ht i
  obtain ⟨b, hb, hres, hlow, hhigh⟩ := ht.resolves i (by omega)
  rcases mem_append.mp hb with hb | hb
  · obtain ⟨a, ha, rfl⟩ := mem_map.mp hb
    obtain ⟨before, after, hsplit⟩ := append_of_mem ha
    have htiles := hw.old
    rw [hsplit] at htiles
    obtain ⟨mid, _, hrest⟩ := htiles.split
    have hmid : mid = a := by
      cases hrest with
      | cons hs _ _ => exact hs.symm
    rw [hmid] at hrest
    refine ⟨a, a :: after, hres, by omega, fun b hb => ?_, hrest⟩
    rw [hsplit]
    exact mem_append.mpr (.inr hb)
  · -- what was promoted lies above the old top
    obtain ⟨p, hp, rfl⟩ := mem_map.mp hb
    have := (ht.promoted.bounds hp).1
    omega

theorem dirtyCardScan_spec (hroom : Room u₀) {n : Nat} (hn : i + n = u₀.nCards)
    (h : v.Copying m₀ u₀ m u c (scanned u₀ (u₀.cardBase i))) :
    ∃ m' u' c', Universe.dirtyCardScan u₀.old.top (List.range' i n) m u = some (m', u') ∧
      v.Copying m₀ u₀ m' u' c' (scanned u₀ u₀.old.top) ∧ c.Extends c' := by
  have hstop : ∀ {i m u c}, u₀.old.top ≤ u₀.cardBase i → v.Copying m₀ u₀ m u c (scanned u₀ (u₀.cardBase i)) →
      v.Copying m₀ u₀ m u c (scanned u₀ u₀.old.top) := by
    intro i m u c hle h
    have he : scanned u₀ (u₀.cardBase i) = scanned u₀ u₀.old.top := by
      funext y
      unfold scanned
      exact propext (by omega)
    rw [← he]
    exact h
  induction n generalizing i m u c with
  | zero =>
    have hcards := hw.geometry.cards
    have hold := hw.geometry.old_le
    have hbase : u₀.cardBase i = u₀.old.start + i * cardSize := rfl
    rw [Nat.add_zero] at hn
    rw [← hn] at hcards
    exact ⟨m, u, c, rfl, hstop (by omega) h, Copies.Extends.refl c⟩
  | succ n ih =>
    have hbase := cardBase_same h.targets i
    rw [range'_succ]
    unfold Universe.dirtyCardScan
    by_cases htop : u₀.old.top ≤ u₀.cardBase i
    · refine ⟨m, u, c, ?_, hstop htop h, Copies.Extends.refl c⟩
      simp only [hbase, if_pos htop]
    · cases hdirty : u.cards i with
      | false =>
        obtain ⟨m', u', c', hrun, h', he⟩ := ih (by omega) (h.clean_card hw hdirty)
        refine ⟨m', u', c', ?_, h', he⟩
        simp only [hbase, if_neg htop, if_true]
        exact hrun
      | true =>
        obtain ⟨a, l, hres, hle, hl, htiles⟩ := resolve_tiles hw h.targets (Nat.lt_of_not_le htop)
        have hstart : v.CardScan m₀ u₀ i false m u c
            (scanned u₀ (max (u₀.cardBase i) (min a (u₀.cardBase i + cardSize)))) := by
          rw [show max (u₀.cardBase i) (min a (u₀.cardBase i + cardSize)) = u₀.cardBase i by omega]
          refine ⟨h, hdirty, fun _ b _ j _ hlow hdone => ?_⟩
          unfold scanned at hdone
          omega
        obtain ⟨st, m₁, u₁, c₁, hrun₁, h₁, he₁⟩ := scanCard_spec hw hroom hl htiles (Nat.le_refl _) hstart
        obtain ⟨m', u', c', hrun, h', he⟩ := ih (by omega) (h₁.cleaned hw)
        refine ⟨m', u', c', ?_, h', he₁.trans he⟩
        simp only [hbase, if_neg htop, Bool.true_eq_false, if_false, hres, hrun₁, bind_eq_bind, bind_some]
        exact hrun

end

end WinArmVm.HeapView
