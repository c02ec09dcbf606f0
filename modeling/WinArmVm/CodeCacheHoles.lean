import WinArmVm.CodeCache
import Mathlib.Algebra.BigOperators.Group.List.Basic
import Mathlib.Tactic.Ring

namespace WinArmVm.CodeCache

open List

def Ordered (holes : List Span) : Prop := holes.Pairwise fun a b => a.stop < b.off

def bytes (spans : List Span) : Nat := (spans.map Span.len).sum

def Aligned (s : Span) : Prop := 16 ∣ s.off ∧ 16 ∣ s.len

/-- The span lies between holes and touches none. -/
def Clear (s : Span) (holes : List Span) : Prop := ∀ q ∈ holes, q.stop < s.off ∨ s.stop < q.off

variable {holes rest : List Span} {s hole : Span} {len : Nat} {c : CodeCache}

theorem bytes_cons : bytes (s :: holes) = s.len + bytes holes := by
  unfold bytes
  rw [map_cons, sum_cons]

theorem bytes_perm (h : holes.Perm rest) : bytes holes = bytes rest := (h.map Span.len).sum_eq

theorem Ordered.insertHole (h : Ordered holes) (hs : Clear s holes) : Ordered (insertHole s holes) := by
  induction holes with
  | nil => exact pairwise_singleton _ _
  | cons first others ih =>
    obtain ⟨hfirst, hothers⟩ := pairwise_cons.mp h
    unfold CodeCache.insertHole
    split
    next hle =>
      refine pairwise_cons.mpr ⟨?_, h⟩
      intro q hq
      obtain hbefore | hafter := hs first mem_cons_self
      · unfold Span.stop at hbefore
        omega
      · obtain rfl | hq := mem_cons.mp hq
        · exact hafter
        · have := hfirst q hq
          unfold Span.stop at this hafter ⊢
          omega
    next hlt =>
      refine pairwise_cons.mpr ⟨?_, ih hothers fun q hq => hs q (mem_cons_of_mem _ hq)⟩
      intro q hq
      obtain rfl | hq := mem_cons.mp ((insertHole_perm s others).mem_iff.mp hq)
      · obtain hbefore | hafter := hs first mem_cons_self
        · exact hbefore
        · unfold Span.stop at hafter
          omega
      · exact hfirst q hq

theorem takeHole_split (h : takeHole len holes = some (hole, rest)) :
    ∃ before after, holes = before ++ hole :: after ∧ rest = before ++ after := by
  induction holes generalizing hole rest with
  | nil => cases h
  | cons first others ih =>
    unfold takeHole at h
    split at h
    next =>
      cases h
      exact ⟨[], others, rfl, rfl⟩
    next =>
      obtain ⟨found, ht, he⟩ := Option.map_eq_some_iff.mp h
      obtain ⟨rfl, rfl⟩ := Prod.mk.inj he
      obtain ⟨before, after, hholes, hrest⟩ := ih ht
      exact ⟨first :: before, after, by rw [hholes]; rfl, by rw [hrest]; rfl⟩

theorem takeHole_none (h : takeHole len holes = none) : ∀ q ∈ holes, q.len < len := by
  induction holes with
  | nil => exact fun q hq => nomatch hq
  | cons first others ih =>
    unfold takeHole at h
    split at h
    next => cases h
    next hshort =>
      intro q hq
      obtain rfl | hq := mem_cons.mp hq
      · exact Nat.lt_of_not_le hshort
      · exact ih (Option.map_eq_none_iff.mp h) q hq

theorem Ordered.take (h : Ordered holes) (ht : takeHole len holes = some (hole, rest)) :
    Ordered rest ∧ Clear hole rest := by
  obtain ⟨before, after, rfl, rfl⟩ := takeHole_split ht
  obtain ⟨hbefore, hafter, hacross⟩ := pairwise_append.mp h
  obtain ⟨hhole, hafter⟩ := pairwise_cons.mp hafter
  refine ⟨pairwise_append.mpr ⟨hbefore, hafter, ?_⟩, ?_⟩
  · exact fun a ha b hb => hacross a ha b (mem_cons_of_mem _ hb)
  · intro q hq
    obtain hq | hq := mem_append.mp hq
    · exact .inl (hacross q hq hole mem_cons_self)
    · exact .inr (hhole q hq)

theorem Ordered.perm_filter (h : Ordered holes) (hs : s ∈ holes) :
    (s :: holes.filter fun q => q.off ≠ s.off).Perm holes := by
  induction holes with
  | nil => cases hs
  | cons first others ih =>
    obtain ⟨hfirst, hothers⟩ := pairwise_cons.mp h
    obtain rfl | hs := mem_cons.mp hs
    · have hkeep : others.filter (fun q => q.off ≠ s.off) = others := by
        apply filter_eq_self.mpr
        intro q hq
        have := hfirst q hq
        unfold Span.stop at this
        simp only [ne_eq, decide_eq_true_eq]
        omega
      rw [filter_cons_of_neg (by simp), hkeep]
    · have hne : first.off ≠ s.off := by
        have := hfirst s hs
        unfold Span.stop at this
        omega
      rw [filter_cons_of_pos (by simpa using hne)]
      exact (List.Perm.swap first s _).trans ((ih hothers hs).cons first)

/-- What a step of coalescing does: the span grows by a hole it touches, or not at all. -/
structure Merges (holes : List Span) (s : Span) (merged : Span × List Span) : Prop where
  ordered : Ordered merged.2
  kept : ∀ q ∈ merged.2, q ∈ holes
  bytes : merged.1.len + bytes merged.2 = s.len + bytes holes
  aligned : (∀ q ∈ s :: holes, Aligned q) → ∀ q ∈ merged.1 :: merged.2, Aligned q

section

variable (h : Ordered holes)

include h

theorem Merges.none : Merges holes s (s, holes) := ⟨h, fun _ hq => hq, rfl, fun h => h⟩

theorem Merges.into {p merged : Span} (hp : p ∈ holes)
    (hmerged : merged = ⟨p.off, p.len + s.len⟩ ∨ merged = ⟨s.off, s.len + p.len⟩) :
    Merges holes s (merged, holes.filter fun q => q.off ≠ p.off) := by
  refine ⟨List.Pairwise.sublist filter_sublist h, fun q hq => (mem_filter.mp hq).1, ?_, ?_⟩
  · have hsum := bytes_perm (h.perm_filter hp)
    rw [bytes_cons] at hsum
    have hlen : merged.len = p.len + s.len := by
      obtain rfl | rfl := hmerged
      · rfl
      · exact Nat.add_comm _ _
    dsimp only
    omega
  · intro haligned q hq
    have hsa := haligned s mem_cons_self
    have hpa := haligned p (mem_cons_of_mem _ hp)
    obtain rfl | hq := mem_cons.mp hq
    · obtain rfl | rfl := hmerged
      · exact ⟨hpa.1, Nat.dvd_add hpa.2 hsa.2⟩
      · exact ⟨hsa.1, Nat.dvd_add hsa.2 hpa.2⟩
    · exact haligned q (mem_cons_of_mem _ (mem_filter.mp hq).1)

theorem merges_prev : Merges holes s (mergePrev holes s) := by
  unfold mergePrev
  split
  next p hp =>
    split
    next => exact .into h (mem_filter.mp (mem_of_getLast? hp)).1 (.inl rfl)
    next => exact .none h
  next => exact .none h

theorem merges_next : Merges holes s (mergeNext holes s) := by
  unfold mergeNext
  split
  next n hn =>
    split
    next => exact .into h (mem_of_find?_eq_some hn) (.inr rfl)
    next => exact .none h
  next => exact .none h

theorem Ordered.before_last {p q : Span}
    (hp : (holes.filter fun p => p.off < s.off).getLast? = some p) (hq : q ∈ holes) (hqs : q.off < s.off) :
    q = p ∨ q.stop < p.off := by
  have hfilter : Ordered (holes.filter fun p => p.off < s.off) := List.Pairwise.sublist filter_sublist h
  have hmem : q ∈ holes.filter fun p => p.off < s.off := mem_filter.mpr ⟨hq, by simpa using hqs⟩
  obtain ⟨front, hfront⟩ := getLast?_eq_some_iff.mp hp
  rw [hfront] at hmem hfilter
  obtain hmem | hmem := mem_append.mp hmem
  · exact .inr ((pairwise_append.mp hfilter).2.2 q hmem p (mem_singleton.mpr rfl))
  · exact .inl (mem_singleton.mp hmem)

theorem Ordered.mergePrev_before (hpos : ∀ q ∈ s :: holes, 0 < q.len) (hapart : ∀ q ∈ holes, s.Apart q) :
    ∀ q ∈ (mergePrev holes s).2, q.stop < (mergePrev holes s).1.off ∨ (mergePrev holes s).1.stop ≤ q.off := by
  have hs := hpos s mem_cons_self
  have hsides : ∀ q ∈ holes, q.off < s.off ∧ q.stop ≤ s.off ∨ s.off < q.off ∧ s.stop ≤ q.off := by
    intro q hq
    have hq0 := hpos q (mem_cons_of_mem _ hq)
    have := hapart q hq
    unfold Span.Apart Span.stop at *
    omega
  unfold mergePrev
  split
  next p hp =>
    have hpmem := mem_filter.mp (mem_of_getLast? hp)
    have hps : p.off < s.off := of_decide_eq_true hpmem.2
    have hpstop : p.stop ≤ s.off := by
      have := hsides p hpmem.1
      omega
    split
    next hadj =>
      intro q hq
      obtain ⟨hq, hne⟩ := mem_filter.mp hq
      obtain ⟨hbefore, -⟩ | ⟨-, hafter⟩ := hsides q hq
      · obtain rfl | hlast := h.before_last hp hq hbefore
        · simp at hne
        · exact .inl hlast
      · right
        unfold Span.stop at *
        dsimp only
        omega
    next hadj =>
      intro q hq
      obtain ⟨hbefore, hstop⟩ | ⟨-, hafter⟩ := hsides q hq
      · left
        obtain rfl | hlast := h.before_last hp hq hbefore
        · exact Nat.lt_of_le_of_ne hstop hadj
        · exact Nat.lt_of_lt_of_le hlast (Nat.le_of_lt hps)
      · exact .inr hafter
  next hnone =>
    intro q hq
    obtain ⟨hbefore, -⟩ | ⟨-, hafter⟩ := hsides q hq
    · have hmem : q ∈ holes.filter fun p => p.off < s.off := mem_filter.mpr ⟨hq, by simpa using hbefore⟩
      rw [getLast?_eq_none_iff.mp hnone] at hmem
      cases hmem
    · exact .inr hafter

theorem Ordered.mergeNext_clear (hpos : ∀ q ∈ holes, 0 < q.len)
    (hsides : ∀ q ∈ holes, q.stop < s.off ∨ s.stop ≤ q.off) : Clear (mergeNext holes s).1 (mergeNext holes s).2 := by
  unfold mergeNext
  split
  next n hn =>
    have hmem := mem_of_find?_eq_some hn
    obtain ⟨hfit, before, after, hholes, hshort⟩ := find?_eq_some_iff_append.mp hn
    have hn0 := hpos n hmem
    -- the holes that are not before the span begin after this one ends
    have hafter : ∀ q ∈ holes, q ≠ n → s.stop ≤ q.off → n.stop < q.off := by
      intro q hq hne hle
      rw [hholes] at hq h
      obtain hq | hq := mem_append.mp hq
      · have := hshort q hq
        simp only [Bool.not_eq_true', decide_eq_false_iff_not] at this
        exact absurd hle this
      · obtain rfl | hq := mem_cons.mp hq
        · exact absurd rfl hne
        · exact (pairwise_cons.mp (pairwise_append.mp h).2.1).1 q hq
    split
    next hadj =>
      intro q hq
      obtain ⟨hq, hne⟩ := mem_filter.mp hq
      have hqn : q ≠ n := by
        rintro rfl
        simp at hne
      obtain hbefore | hle := hsides q hq
      · exact .inl hbefore
      · have := hafter q hq hqn hle
        right
        unfold Span.stop at *
        dsimp only
        omega
    next hadj =>
      intro q hq
      obtain hbefore | hle := hsides q hq
      · exact .inl hbefore
      · right
        by_cases hqn : q = n
        · rw [hqn] at hle ⊢
          exact Nat.lt_of_le_of_ne hle fun he => hadj he.symm
        · have := hafter q hq hqn hle
          have hnle : s.stop ≤ n.off := of_decide_eq_true hfit
          change s.stop < q.off
          unfold Span.stop at *
          omega
  next hnone =>
    intro q hq
    have := find?_eq_none.mp hnone q hq
    simp only [decide_eq_true_eq] at this
    obtain hbefore | hle := hsides q hq
    · exact .inl hbefore
    · exact absurd hle this

end

/-- What the space below `top` is made of, and where its blocks and holes begin. -/
structure Tidy (c : CodeCache) : Prop where
  ordered : Ordered c.free
  below : ∀ q ∈ c.free, q.stop < c.top
  filled : bytes (c.live.map CodeHandle.span) + bytes c.free = c.top
  top_aligned : 16 ∣ c.top
  live_aligned : ∀ h ∈ c.live, Aligned h.span
  free_aligned : ∀ q ∈ c.free, Aligned q
  top_le : c.top ≤ c.cap

theorem roundUp16_aligned (n : Nat) : 16 ∣ roundUp16 n := Dvd.intro_left _ rfl

theorem new_tidy (cap : Nat) : (new cap).Tidy where
  ordered := List.Pairwise.nil
  below := fun _ hq => nomatch hq
  filled := rfl
  top_aligned := Nat.dvd_zero 16
  live_aligned := fun _ hh => nomatch hh
  free_aligned := fun _ hq => nomatch hq
  top_le := Nat.zero_le cap

variable {use : BlockUse} {h : CodeHandle}

theorem Tidy.grant (ht : c.Tidy) {base len top : Nat} {free : List Span} (hordered : Ordered free)
    (hbelow : ∀ q ∈ free, q.stop < top) (hfilled : len + bytes free + c.top = bytes c.free + top)
    (haligned : Aligned ⟨base, len⟩) (hfree : ∀ q ∈ free, Aligned q) (htop : 16 ∣ top) (hcap : top ≤ c.cap) :
    (c.grant use base len top free).2.Tidy := by
  refine ⟨hordered, hbelow, ?_, htop, ?_, hfree, hcap⟩
  · have := ht.filled
    change bytes (⟨base, len⟩ :: c.live.map CodeHandle.span) + bytes free = top
    rw [bytes_cons]
    dsimp only
    omega
  · intro h hh
    obtain rfl | hh := mem_cons.mp hh
    · exact haligned
    · exact ht.live_aligned h hh

variable {len : Nat} {c' : CodeCache}

theorem Tidy.alloc (ht : c.Tidy) (hlen : 0 < len) (ha : c.alloc use len = some (h, c')) : c'.Tidy := by
  have hround := le_roundUp16 len
  have halign := roundUp16_aligned len
  unfold CodeCache.alloc at ha
  dsimp only at ha
  split at ha
  next hole rest htake =>
    obtain ⟨hfit, hperm⟩ := takeHole_spec htake
    obtain ⟨hordered, hclear⟩ := ht.ordered.take htake
    have hsum := bytes_perm hperm
    rw [bytes_cons] at hsum
    have hmem : ∀ q ∈ rest, q ∈ c.free := fun q hq => hperm.mem_iff.mp (mem_cons_of_mem _ hq)
    have hholemem := hperm.mem_iff.mp mem_cons_self
    have hholebelow := ht.below hole hholemem
    obtain ⟨hoff, hholelen⟩ := ht.free_aligned hole hholemem
    split at ha
    next hrem =>
      cases ha
      have hstop : Span.stop ⟨hole.off + roundUp16 len, hole.len - roundUp16 len⟩ = hole.stop := by
        unfold Span.stop
        dsimp only
        omega
      have hrest : Clear ⟨hole.off + roundUp16 len, hole.len - roundUp16 len⟩ rest := by
        intro q hq
        rw [hstop]
        obtain hbefore | hafter := hclear q hq
        · exact .inl (Nat.lt_of_lt_of_le hbefore (Nat.le_add_right _ _))
        · exact .inr hafter
      have hinsert := insertHole_perm ⟨hole.off + roundUp16 len, hole.len - roundUp16 len⟩ rest
      apply ht.grant (hordered.insertHole hrest)
      · intro q hq
        obtain rfl | hq := mem_cons.mp (hinsert.mem_iff.mp hq)
        · rw [hstop]
          exact hholebelow
        · exact ht.below q (hmem q hq)
      · rw [bytes_perm hinsert, bytes_cons]
        dsimp only
        omega
      · exact ⟨hoff, halign⟩
      · intro q hq
        obtain rfl | hq := mem_cons.mp (hinsert.mem_iff.mp hq)
        · exact ⟨Nat.dvd_add hoff halign, Nat.dvd_sub hholelen halign⟩
        · exact ht.free_aligned q (hmem q hq)
      · exact ht.top_aligned
      · exact ht.top_le
    next =>
      cases ha
      apply ht.grant hordered
      · exact fun q hq => ht.below q (hmem q hq)
      · omega
      · exact ⟨hoff, hholelen⟩
      · exact fun q hq => ht.free_aligned q (hmem q hq)
      · exact ht.top_aligned
      · exact ht.top_le
  next =>
    obtain ⟨hroom, ha⟩ := Option.ite_none_right_eq_some.mp ha
    cases ha
    apply ht.grant ht.ordered
    · intro q hq
      have := ht.below q hq
      omega
    · omega
    · exact ⟨ht.top_aligned, halign⟩
    · exact ht.free_aligned
    · exact Nat.dvd_add ht.top_aligned halign
    · exact hroom

theorem Tidy.release (ht : c.Tidy) (hv : c.Valid) (hh : h ∈ c.live) : (c.release h).Tidy := by
  have hloose := hv.given hh
  have hpos : ∀ b ∈ c.live.erase h, 0 < b.len := fun b hb => hv.live_pos b (mem_of_mem_erase hb)
  have hprev := merges_prev (s := h.span) ht.ordered
  have hbefore := ht.ordered.mergePrev_before hloose.pos (pairwise_cons.mp hloose.apart).1
  have hmid := hloose.mergePrev hpos
  have hnext := merges_next (s := (mergePrev c.free h.span).1) hprev.ordered
  have hclear := hprev.ordered.mergeNext_clear (fun q hq => hmid.pos q (mem_cons_of_mem _ hq)) hbefore
  have hall := hmid.mergeNext hpos
  have hsum := hnext.bytes.trans hprev.bytes
  have haligned := hnext.aligned (hprev.aligned (by
    intro q hq
    obtain rfl | hq := mem_cons.mp hq
    · exact ht.live_aligned h hh
    · exact ht.free_aligned q hq))
  have hlive : bytes (c.live.map CodeHandle.span) = h.len + bytes ((c.live.erase h).map CodeHandle.span) := by
    rw [bytes_perm ((perm_cons_erase hh).map CodeHandle.span), map_cons, bytes_cons]
    rfl
  have hordered := hnext.ordered
  have hkept : ∀ q ∈ (mergeNext (mergePrev c.free h.span).2 (mergePrev c.free h.span).1).2, q ∈ c.free :=
    fun q hq => hprev.kept q (hnext.kept q hq)
  have hfilled := ht.filled
  have hlen : h.span.len = h.len := rfl
  unfold CodeCache.release
  dsimp only
  generalize mergeNext (mergePrev c.free h.span).2 (mergePrev c.free h.span).1 = merged at *
  obtain ⟨s, free⟩ := merged
  dsimp only at *
  have hstop := hall.top s mem_cons_self
  split
  next htop =>
    have hoff : s.off + s.len = c.top := htop
    refine ⟨hordered, ?_, ?_, (haligned s mem_cons_self).1, ?_, ?_, ?_⟩
    · intro q hq
      have hqtop := hall.top q (mem_cons_of_mem _ hq)
      obtain hb | ha := hclear q hq
      · exact hb
      · unfold Span.stop at *
        dsimp only at hqtop
        omega
    · dsimp only
      omega
    · exact fun b hb => ht.live_aligned b (mem_of_mem_erase hb)
    · exact fun q hq => haligned q (mem_cons_of_mem _ hq)
    · have := ht.top_le
      dsimp only
      omega
  next htop =>
    have hinsert := insertHole_perm s free
    refine ⟨hordered.insertHole hclear, ?_, ?_, ht.top_aligned, ?_, ?_, ht.top_le⟩
    · intro q hq
      obtain rfl | hq := mem_cons.mp (hinsert.mem_iff.mp hq)
      · exact Nat.lt_of_le_of_ne hstop htop
      · exact ht.below q (hkept q hq)
    · rw [bytes_perm hinsert, bytes_cons]
      dsimp only
      omega
    · exact fun b hb => ht.live_aligned b (mem_of_mem_erase hb)
    · exact fun q hq => haligned q (hinsert.mem_iff.mp hq)

theorem alloc_cap (ha : c.alloc use len = some (h, c')) : c'.cap = c.cap := by
  unfold CodeCache.alloc at ha
  dsimp only at ha
  split at ha
  next =>
    split at ha
    next =>
      cases ha
      rfl
    next =>
      cases ha
      rfl
  next =>
    split at ha
    next =>
      cases ha
      rfl
    next => cases ha

theorem release_cap (h : CodeHandle) : (c.release h).cap = c.cap := by
  unfold CodeCache.release
  dsimp only
  split
  next => rfl
  next => rfl

theorem Tidy.refuse (ht : c.Tidy) (hcap : 16 ∣ c.cap) (ha : c.alloc use len = none) :
    (∀ q ∈ c.free, q.len < len) ∧ c.cap < c.top + len := by
  unfold CodeCache.alloc at ha
  dsimp only at ha
  split at ha
  next =>
    split at ha
    next => cases ha
    next => cases ha
  next htake =>
    split at ha
    next => cases ha
    next hroom =>
      have htop := ht.top_aligned
      unfold roundUp16 at hroom htake
      refine ⟨?_, by omega⟩
      intro q hq
      have hshort := takeHole_none htake q hq
      have hlen := (ht.free_aligned q hq).2
      omega

/-- What requests lead to, each allocation of a length that is allowed. The region is a number of pages. -/
inductive Traffic (allowed : Nat → Prop) (units : Nat) : CodeCache → Prop
  | new : Traffic allowed units (new (16 * units))
  | alloc {c c' : CodeCache} {h : CodeHandle} (use : BlockUse) (len : Nat) (hc : Traffic allowed units c)
      (hlen : allowed len) (ha : c.alloc use len = some (h, c')) : Traffic allowed units c'
  | free {c : CodeCache} {h : CodeHandle} (hc : Traffic allowed units c) (hh : h ∈ c.live) :
      Traffic allowed units (c.release h)

structure Sound (c : CodeCache) : Prop where
  live_apart : c.live.Pairwise fun a b => a.span.Apart b.span
  live_aligned : ∀ h ∈ c.live, 16 ∣ h.base
  live_below : ∀ h ∈ c.live, h.span.stop ≤ c.top
  top_le : c.top ≤ c.cap
  /-- Sorted, and no hole begins where another ends. -/
  free_ordered : Ordered c.free
  live_free : ∀ h ∈ c.live, ∀ q ∈ c.free, h.span.Apart q
  free_below : ∀ q ∈ c.free, q.stop < c.top
  filled : (c.live.map CodeHandle.len).sum + (c.free.map Span.len).sum = c.top
  refuse : ∀ use len, c.alloc use len = none → (∀ q ∈ c.free, q.len < len) ∧ c.cap < c.top + len

variable {units : Nat}

theorem Traffic.inv (h : Traffic (0 < ·) units c) : c.Valid ∧ c.Tidy ∧ c.cap = 16 * units := by
  induction h with
  | new => exact ⟨new_valid _, new_tidy _, rfl⟩
  | alloc _ _ _ hlen ha ih =>
    obtain ⟨hv, ht, hcap⟩ := ih
    exact ⟨(hv.alloc hlen ha).valid, ht.alloc hlen ha, (alloc_cap ha).trans hcap⟩
  | free _ hh ih =>
    obtain ⟨hv, ht, hcap⟩ := ih
    exact ⟨(hv.release hh).1, ht.release hv hh, (release_cap _).trans hcap⟩

/-- While every block that is asked for has a byte at least, the blocks and the holes tile the space that is used. -/
theorem traffic_sound (h : Traffic (0 < ·) units c) : c.Sound := by
  obtain ⟨hv, ht, hcap⟩ := h.inv
  refine ⟨hv.live_apart, fun h hh => (ht.live_aligned h hh).1, hv.live_top, ht.top_le, ht.ordered, hv.live_free, ht.below,
    ?_, fun _ _ => ht.refuse (by rw [hcap]; exact Nat.dvd_mul_right 16 units)⟩
  have hfilled := ht.filled
  unfold bytes at hfilled
  rw [map_map] at hfilled
  exact hfilled

theorem traffic_sound_reuse : ∃ c, Traffic (0 < ·) 16 c ∧ c.Sound ∧ c.free = [⟨48, 80⟩] ∧ c.top = 192 := by
  have h₁ : Traffic (0 < ·) 16 _ := .alloc .code 60 .new (by decide) rfl
  have h₂ : Traffic (0 < ·) 16 _ := .alloc .code 64 h₁ (by decide) rfl
  have h₃ : Traffic (0 < ·) 16 _ := .alloc .code 64 h₂ (by decide) rfl
  have h₄ : Traffic (0 < ·) 16 _ := .free (h := ⟨64, 64, 1, .code⟩) h₃ (by decide)
  have h₅ : Traffic (0 < ·) 16 _ := .free (h := ⟨0, 64, 0, .code⟩) h₄ (by decide)
  have h₆ : Traffic (0 < ·) 16 _ := .alloc .pic 33 h₅ (by decide) rfl
  exact ⟨_, h₆, traffic_sound h₆, rfl, rfl⟩

/-- A block of no bytes, given back when the hole it was cut from has grown around it, hides the hole from its neighbour:
the hole is left below `top`, where it should have lowered `top`. -/
theorem traffic_empty_block : ¬ ∀ units c, Traffic (fun _ => True) units c → c.Sound := by
  intro h
  have h₁ : Traffic (fun _ => True) 16 _ := .alloc .code 64 .new trivial rfl
  have h₂ : Traffic (fun _ => True) 16 _ := .alloc .code 64 h₁ trivial rfl
  have h₃ : Traffic (fun _ => True) 16 _ := .alloc .code 64 h₂ trivial rfl
  have h₄ : Traffic (fun _ => True) 16 _ := .free (h := ⟨64, 64, 1, .code⟩) h₃ (by decide)
  have h₅ : Traffic (fun _ => True) 16 _ := .alloc .code 0 h₄ trivial rfl
  have h₆ : Traffic (fun _ => True) 16 _ := .free (h := ⟨0, 64, 0, .code⟩) h₅ (by decide)
  have h₇ : Traffic (fun _ => True) 16 _ := .free (h := ⟨64, 0, 3, .code⟩) h₆ (by decide)
  have h₈ : Traffic (fun _ => True) 16 _ := .free (h := ⟨128, 64, 2, .code⟩) h₇ (by decide)
  have hbelow := (h _ _ h₈).free_below ⟨0, 128⟩ (by decide)
  revert hbelow
  decide

end WinArmVm.CodeCache
