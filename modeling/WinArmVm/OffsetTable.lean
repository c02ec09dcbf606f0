import WinArmVm.HeapInvariant

namespace WinArmVm.Universe

variable {u u' : Universe} {i : Nat}

theorem resolveFrom_eq (u : Universe) {fuel : Nat} (h : i < fuel) : u.resolveFrom fuel i = u.resolve i := by
  unfold resolve
  induction i using Nat.strong_induction_on generalizing fuel with
  | _ i ih =>
    obtain ⟨f, rfl⟩ : ∃ f, fuel = f + 1 := ⟨fuel - 1, by omega⟩
    unfold resolveFrom
    dsimp only
    split
    next => rfl
    next hchain =>
      split
      next hle =>
        have hlt : i - (u.offsets i - maxDirect) < i := by omega
        rw [ih _ hlt (show i - (u.offsets i - maxDirect) < f by omega),
          ih _ hlt (show i - (u.offsets i - maxDirect) < i from hlt)]
      next => rfl

theorem resolve_step (u : Universe) (i : Nat) : u.resolve i =
    if u.offsets i ≤ maxDirect then some (u.cardBase i - u.offsets i * wordSize)
    else if u.offsets i - maxDirect ≤ i then u.resolve (i - (u.offsets i - maxDirect))
    else none := by
  have h : u.resolve i = u.resolveFrom (i + 1) i := rfl
  rw [h]
  unfold resolveFrom
  dsimp only
  split
  next => rfl
  next =>
    split
    next => exact u.resolveFrom_eq (by omega)
    next => rfl

theorem resolve_congr (hstart : u'.old.start = u.old.start)
    (h : ∀ j ≤ i, u'.offsets j = u.offsets j) : u'.resolve i = u.resolve i := by
  induction i using Nat.strong_induction_on with
  | _ i ih =>
    rw [resolve_step u', resolve_step u, h i (Nat.le_refl i)]
    have hbase : u'.cardBase i = u.cardBase i := by
      unfold cardBase
      rw [hstart]
    rw [hbase]
    split
    next => rfl
    next =>
      split
      next hle => exact ih _ (by omega) fun j hj => h j (by omega)
      next => rfl

variable {blocks : List (Nat × Nat)} {addr size : Nat}

theorem recordObject_resolve (hstart : u.old.start ≤ addr)
    (hd : 8 ∣ addr - u.old.start) (hlow : addr ≤ u.cardBase i) (hhigh : u.cardBase i < addr + size) :
    (u.recordObject addr size).resolve i = some addr := by
  obtain ⟨n, hn⟩ := hd
  have hc0 : u.cardIndex addr = n / 64 := by
    unfold cardIndex cardSize
    omega
  induction i using Nat.strong_induction_on with
  | _ i ih =>
    have hbase : u.cardBase i = u.old.start + i * 512 := rfl
    rw [resolve_step]
    by_cases hi : i = u.cardIndex addr
    · -- the header is at the base of its own card
      have haddr : addr = u.cardBase (u.cardIndex addr) := by
        rw [← hi]
        omega
      have he : (u.recordObject addr size).offsets i = 0 := by
        unfold recordObject
        dsimp only
        rw [if_pos hi, if_pos haddr]
      have hcard : (u.recordObject addr size).cardBase i = u.cardBase i := rfl
      rw [he, if_pos (Nat.zero_le _), hcard, hi, ← haddr, Nat.zero_mul, Nat.sub_zero]
    · have hlast : u.cardIndex (addr + size - 1) = (addr + size - 1 - u.old.start) / 512 := rfl
      have hlt : u.cardIndex addr < i := by omega
      have he : (u.recordObject addr size).offsets i = u.offsetEntry addr (u.cardIndex addr) i := by
        unfold recordObject
        dsimp only
        rw [if_neg hi, if_pos ⟨hlt, by omega⟩]
      have hcard : (u.recordObject addr size).cardBase i = u.cardBase i := rfl
      rw [he, hcard]
      unfold offsetEntry maxDirect wordSize
      by_cases hdist : (u.cardBase i - addr) / 8 ≤ 64
      · rw [if_pos hdist, if_pos hdist]
        congr 1
        omega
      · have hge := Nat.min_le_left (i - (u.cardIndex addr + 1)) maxChainSkip
        have hpos : 1 ≤ min (i - (u.cardIndex addr + 1)) maxChainSkip := by
          unfold maxChainSkip
          omega
        rw [if_neg hdist]
        generalize min (i - (u.cardIndex addr + 1)) maxChainSkip = skip at hge hpos ⊢
        have hback : i - (64 + skip - 64) = i - skip := by omega
        have hchain : ¬ 64 + skip ≤ 64 := by omega
        have hle : 64 + skip - 64 ≤ i := by omega
        have hbase' : u.cardBase (i - skip) = u.old.start + (i - skip) * 512 := rfl
        rw [if_neg hchain, if_pos hle, hback]
        exact ih _ (by omega) (by omega) (by omega)

theorem recordObject_below (hlow : u.cardBase i < addr) : (u.recordObject addr size).resolve i = u.resolve i := by
  refine resolve_congr rfl fun j hj => ?_
  have hbase : u.cardBase i = u.old.start + i * 512 := rfl
  have hc0 : u.cardIndex addr = (addr - u.old.start) / 512 := rfl
  have hjbase : u.cardBase (u.cardIndex addr) = u.old.start + u.cardIndex addr * 512 := rfl
  unfold recordObject
  dsimp only
  split
  next he =>
    rw [if_neg]
    omega
  next =>
    rw [if_neg]
    omega

theorem Resolves.congr (h : u.Resolves blocks) (hstart : u'.old.start = u.old.start) (htop : u'.old.top = u.old.top)
    (hoff : u'.offsets = u.offsets) : u'.Resolves blocks := by
  intro i hi
  have hbase : u'.cardBase i = u.cardBase i := by
    unfold cardBase
    rw [hstart]
  rw [hbase, htop] at hi
  rw [hbase, resolve_congr hstart fun j _ => by rw [hoff]]
  exact h i hi

theorem Resolves.record (h : u.Resolves blocks) {size : Nat}
    (hle : u.old.start ≤ u.old.top) (hd : 8 ∣ u.old.top - u.old.start)
    (hstart : u'.old.start = u.old.start) (htop : u'.old.top = u.old.top + size)
    (hoff : u'.offsets = (u.recordObject u.old.top size).offsets) :
    u'.Resolves (blocks ++ [(u.old.top, size)]) := by
  intro i hi
  have hbase : u'.cardBase i = u.cardBase i := by
    unfold cardBase
    rw [hstart]
  have hres : u'.resolve i = (u.recordObject u.old.top size).resolve i := resolve_congr hstart fun j _ => by rw [hoff]
  rw [hbase, htop] at hi
  rw [hbase, hres]
  by_cases hlow : u.cardBase i < u.old.top
  · obtain ⟨b, hb, hr, hcover⟩ := h i hlow
    refine ⟨b, List.mem_append.mpr (.inl hb), ?_, hcover⟩
    rw [recordObject_below hlow, hr]
  · exact ⟨(u.old.top, size), List.mem_append.mpr (.inr (List.mem_singleton.mpr rfl)),
      recordObject_resolve hle hd (by omega) hi, by omega, hi⟩

end WinArmVm.Universe
