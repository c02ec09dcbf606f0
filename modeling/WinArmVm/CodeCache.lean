import Mathlib.Data.List.Perm.Basic
import Mathlib.Data.List.Pairwise

namespace WinArmVm

open List

/-- A run of bytes of the code cache's region, from `off`. -/
structure Span where
  off : Nat
  len : Nat
deriving DecidableEq, Repr

def Span.stop (s : Span) : Nat := s.off + s.len

def Span.Apart (a b : Span) : Prop := a.stop ≤ b.off ∨ b.stop ≤ a.off

/-- What a block was granted for. -/
inductive BlockUse
  | code
  | pic
  | mega
  | adapter
  | stub
deriving DecidableEq, Repr

/-- A reservation in the code cache. No code reads `serial` and `use`: they tell
apart two grants of the same space. -/
structure CodeHandle where
  base : Nat
  len : Nat
  serial : Nat
  use : BlockUse
deriving DecidableEq, Repr

def CodeHandle.span (h : CodeHandle) : Span := ⟨h.base, h.len⟩

/-- Space never used lies past `top`; `free` is in address order. `live` are the
blocks handed out and not given back, and `grants` counts them: both only for the
statements, no code reads them. -/
structure CodeCache where
  cap : Nat
  top : Nat
  free : List Span
  live : List CodeHandle
  grants : Nat

namespace CodeCache

def new (cap : Nat) : CodeCache := ⟨cap, 0, [], [], 0⟩

def roundUp16 (n : Nat) : Nat := (n + 15) / 16 * 16

/-- First fit: the first hole of `len` bytes or more, and the other holes. -/
def takeHole (len : Nat) : List Span → Option (Span × List Span)
  | [] => none
  | hole :: rest =>
    if len ≤ hole.len then some (hole, rest)
    else (takeHole len rest).map fun found => (found.1, hole :: found.2)

def insertHole (s : Span) : List Span → List Span
  | [] => [s]
  | hole :: rest => if s.off ≤ hole.off then s :: hole :: rest else hole :: insertHole s rest

def grant (c : CodeCache) (use : BlockUse) (base len top : Nat) (free : List Span) : CodeHandle × CodeCache :=
  let h : CodeHandle := ⟨base, len, c.grants, use⟩
  (h, { c with top := top, free := free, live := h :: c.live, grants := c.grants + 1 })

/-- The freelist first, then fresh space; `none` is a full cache. A remainder too
short for another block is absorbed into the grant. -/
def alloc (c : CodeCache) (use : BlockUse) (len : Nat) : Option (CodeHandle × CodeCache) :=
  let len := roundUp16 len
  match takeHole len c.free with
  | some (hole, rest) =>
    let remainder := hole.len - len
    if 32 ≤ remainder then
      some (c.grant use hole.off len c.top (insertHole ⟨hole.off + len, remainder⟩ rest))
    else some (c.grant use hole.off hole.len c.top rest)
  | none =>
    if c.top + len ≤ c.cap then some (c.grant use c.top len (c.top + len) c.free) else none

def mergePrev (free : List Span) (s : Span) : Span × List Span :=
  match (free.filter fun p => p.off < s.off).getLast? with
  | some p =>
    if p.stop = s.off then (⟨p.off, p.len + s.len⟩, free.filter fun q => q.off ≠ p.off)
    else (s, free)
  | none => (s, free)

def mergeNext (free : List Span) (s : Span) : Span × List Span :=
  match free.find? fun n => s.stop ≤ n.off with
  | some n =>
    if n.off = s.stop then (⟨s.off, s.len + n.len⟩, free.filter fun q => q.off ≠ n.off)
    else (s, free)
  | none => (s, free)

/-- A block that ends at `top` once coalesced retracts `top` instead of being listed. -/
def release (c : CodeCache) (h : CodeHandle) : CodeCache :=
  let (s, free) := mergePrev c.free h.span
  let (s, free) := mergeNext free s
  if s.stop = c.top then { c with top := s.off, free := free, live := c.live.erase h }
  else { c with free := insertHole s free, live := c.live.erase h }

structure Valid (c : CodeCache) : Prop where
  free_pos : ∀ s ∈ c.free, 0 < s.len
  free_top : ∀ s ∈ c.free, s.stop ≤ c.top
  free_apart : c.free.Pairwise Span.Apart
  live_pos : ∀ h ∈ c.live, 0 < h.len
  live_top : ∀ h ∈ c.live, h.span.stop ≤ c.top
  live_apart : c.live.Pairwise fun a b => a.span.Apart b.span
  live_free : ∀ h ∈ c.live, ∀ s ∈ c.free, h.span.Apart s
  serials : ∀ h ∈ c.live, h.serial < c.grants
  distinct : c.live.Nodup

variable {c : CodeCache}

theorem apart_symm {a b : Span} (h : a.Apart b) : b.Apart a := h.symm

instance : Std.Symm Span.Apart := ⟨fun _ _ h => apart_symm h⟩

theorem le_roundUp16 (n : Nat) : n ≤ roundUp16 n := by
  unfold roundUp16
  omega

theorem new_valid (cap : Nat) : (new cap).Valid where
  free_pos := fun s hs => by cases hs
  free_top := fun s hs => by cases hs
  free_apart := List.Pairwise.nil
  live_pos := fun h hh => by cases hh
  live_top := fun h hh => by cases hh
  live_apart := List.Pairwise.nil
  live_free := fun h hh => by cases hh
  serials := fun h hh => by cases hh
  distinct := List.nodup_nil

theorem takeHole_spec {len : Nat} {holes rest : List Span} {hole : Span}
    (h : takeHole len holes = some (hole, rest)) : len ≤ hole.len ∧ (hole :: rest).Perm holes := by
  induction holes generalizing hole rest with
  | nil => cases h
  | cons first others ih =>
    unfold takeHole at h
    split at h
    next hfit =>
      cases h
      exact ⟨hfit, List.Perm.refl _⟩
    next =>
      obtain ⟨⟨found, tail⟩, ht, he⟩ := Option.map_eq_some_iff.mp h
      obtain ⟨rfl, rfl⟩ := Prod.mk.inj he
      obtain ⟨hfit, hperm⟩ := ih ht
      exact ⟨hfit, (List.Perm.swap first found tail).trans (hperm.cons first)⟩

theorem insertHole_perm (s : Span) (holes : List Span) : (insertHole s holes).Perm (s :: holes) := by
  induction holes with
  | nil => exact List.Perm.refl _
  | cons hole rest ih =>
    unfold insertHole
    split
    next => exact List.Perm.refl _
    next => exact (ih.cons hole).trans (List.Perm.swap s hole rest)

/-- The holes, the live blocks, and one span that is neither: what is being given
back, or about to be handed out. -/
structure Loose (c : CodeCache) (free : List Span) (s : Span) : Prop where
  pos : ∀ q ∈ s :: free, 0 < q.len
  top : ∀ q ∈ s :: free, q.stop ≤ c.top
  apart : (s :: free).Pairwise Span.Apart
  live : ∀ h ∈ c.live, ∀ q ∈ s :: free, h.span.Apart q

theorem Valid.loose (hv : c.Valid) {hole : Span} {rest : List Span}
    (hp : (hole :: rest).Perm c.free) : c.Loose rest hole where
  pos := fun q hq => hv.free_pos q (hp.mem_iff.mp hq)
  top := fun q hq => hv.free_top q (hp.mem_iff.mp hq)
  apart := (hp.pairwise_iff fun h => apart_symm h).mpr hv.free_apart
  live := fun h hh q hq => hv.live_free h hh q (hp.mem_iff.mp hq)

variable {free : List Span} {h : CodeHandle}

theorem Valid.grant (hv : c.Valid) {use : BlockUse} {base len top : Nat}
    (hlen : 0 < len) (hbase : base + len ≤ top) (htop : c.top ≤ top)
    (hpos : ∀ q ∈ free, 0 < q.len) (hfree : ∀ q ∈ free, q.stop ≤ top) (hfapart : free.Pairwise Span.Apart)
    (hlive : ∀ h ∈ c.live, h.span.Apart ⟨base, len⟩ ∧ ∀ q ∈ free, h.span.Apart q)
    (hnew : ∀ q ∈ free, Span.Apart ⟨base, len⟩ q) :
    (c.grant use base len top free).2.Valid := by
  refine ⟨hpos, hfree, hfapart, fun h hh => ?_, fun h hh => ?_, ?_, fun h hh q hq => ?_,
    fun h hh => ?_, ?_⟩
  · rcases mem_cons.mp hh with rfl | hh
    · exact hlen
    · exact hv.live_pos h hh
  · rcases mem_cons.mp hh with rfl | hh
    · exact hbase
    · have := hv.live_top h hh
      exact Nat.le_trans this htop
  · exact pairwise_cons.mpr ⟨fun h hh => apart_symm (hlive h hh).1, hv.live_apart⟩
  · rcases mem_cons.mp hh with rfl | hh
    · exact hnew q hq
    · exact (hlive h hh).2 q hq
  · rcases mem_cons.mp hh with rfl | hh
    · exact Nat.lt_succ_self _
    · exact Nat.lt_succ_of_lt (hv.serials h hh)
  · refine nodup_cons.mpr ⟨fun hm => ?_, hv.distinct⟩
    have := hv.serials _ hm
    exact Nat.lt_irrefl _ this

/-- What an allocation leaves: a valid cache with one more live block, never
granted before. -/
structure Grants (c : CodeCache) (use : BlockUse) (len : Nat) (h : CodeHandle) (c' : CodeCache) : Prop where
  valid : c'.Valid
  live : c'.live = h :: c.live
  fresh : h.serial = c.grants
  grants : c'.grants = c.grants + 1
  use : h.use = use
  len_le : len ≤ h.len

theorem Valid.alloc (hv : c.Valid) {use : BlockUse} {len : Nat} (hlen : 0 < len)
    {c' : CodeCache} (ha : c.alloc use len = some (h, c')) : Grants c use len h c' := by
  have hround := le_roundUp16 len
  unfold CodeCache.alloc at ha
  dsimp only at ha
  split at ha
  next hole rest ht =>
    obtain ⟨hfit, hperm⟩ := takeHole_spec ht
    have hl := hv.loose hperm
    have hhole := hl.top hole mem_cons_self
    obtain ⟨hfirst, hrest⟩ := pairwise_cons.mp hl.apart
    unfold Span.stop at hhole
    split at ha
    next hrem =>
      cases ha
      refine ⟨?_, rfl, rfl, rfl, rfl, hround⟩
      have hsub : ∀ q, Span.Apart hole q → Span.Apart ⟨hole.off, roundUp16 len⟩ q ∧
          Span.Apart ⟨hole.off + roundUp16 len, hole.len - roundUp16 len⟩ q := by
        intro q hq
        unfold Span.Apart Span.stop at hq ⊢
        constructor
        · dsimp only
          omega
        · dsimp only
          omega
      have hmem : ∀ q ∈ insertHole ⟨hole.off + roundUp16 len, hole.len - roundUp16 len⟩ rest,
          q = ⟨hole.off + roundUp16 len, hole.len - roundUp16 len⟩ ∨ q ∈ rest :=
        fun q hq => mem_cons.mp ((insertHole_perm _ rest).mem_iff.mp hq)
      apply hv.grant
      · omega
      · omega
      · exact Nat.le_refl _
      · intro q hq
        rcases hmem q hq with rfl | hq
        · dsimp only
          omega
        · exact hl.pos q (mem_cons_of_mem _ hq)
      · intro q hq
        rcases hmem q hq with rfl | hq
        · unfold Span.stop
          dsimp only
          omega
        · exact hl.top q (mem_cons_of_mem _ hq)
      · refine ((insertHole_perm _ rest).pairwise_iff fun h => apart_symm h).mpr ?_
        exact pairwise_cons.mpr ⟨fun q hq => (hsub q (hfirst q hq)).2, hrest⟩
      · intro b hb
        have hb' := hsub b.span (apart_symm (hl.live b hb hole mem_cons_self))
        refine ⟨apart_symm hb'.1, fun q hq => ?_⟩
        rcases hmem q hq with rfl | hq
        · exact apart_symm hb'.2
        · exact hl.live b hb q (mem_cons_of_mem _ hq)
      · intro q hq
        rcases hmem q hq with rfl | hq
        · exact .inl (Nat.le_refl _)
        · exact (hsub q (hfirst q hq)).1
    next =>
      cases ha
      refine ⟨?_, rfl, rfl, rfl, rfl, Nat.le_trans hround hfit⟩
      apply hv.grant
      · omega
      · exact hhole
      · exact Nat.le_refl _
      · exact fun q hq => hl.pos q (mem_cons_of_mem _ hq)
      · exact fun q hq => hl.top q (mem_cons_of_mem _ hq)
      · exact hrest
      · exact fun b hb => ⟨hl.live b hb hole mem_cons_self,
          fun q hq => hl.live b hb q (mem_cons_of_mem _ hq)⟩
      · exact hfirst
  next =>
    obtain ⟨hroom, ha⟩ := Option.ite_none_right_eq_some.mp ha
    cases ha
    refine ⟨?_, rfl, rfl, rfl, rfl, hround⟩
    apply hv.grant
    · omega
    · exact Nat.le_refl _
    · omega
    · exact hv.free_pos
    · intro q hq
      have := hv.free_top q hq
      omega
    · exact hv.free_apart
    · intro b hb
      exact ⟨.inl (hv.live_top b hb), hv.live_free b hb⟩
    · intro q hq
      exact .inr (hv.free_top q hq)

theorem Loose.merge {s p merged : Span} (hl : c.Loose free s) (hlive : ∀ h ∈ c.live, 0 < h.len) (hp : p ∈ free)
    (hadj : (p.stop = s.off ∧ merged = ⟨p.off, p.len + s.len⟩) ∨ (p.off = s.stop ∧ merged = ⟨s.off, s.len + p.len⟩)) :
    c.Loose (free.filter fun q => q.off ≠ p.off) merged := by
  have hsub : ∀ q ∈ free.filter (fun q => q.off ≠ p.off), q ∈ free ∧ q.off ≠ p.off := by
    intro q hq
    have := mem_filter.mp hq
    exact ⟨this.1, by simpa using this.2⟩
  have hs := hl.pos s mem_cons_self
  have hpp := hl.pos p (mem_cons_of_mem _ hp)
  have hst := hl.top s mem_cons_self
  have hpt := hl.top p (mem_cons_of_mem _ hp)
  obtain ⟨hfirst, hrest⟩ := pairwise_cons.mp hl.apart
  have hmerge : ∀ q : Span, 0 < q.len → Span.Apart q s → Span.Apart q p → Span.Apart q merged := by
    intro q hq hqs hqp
    unfold Span.Apart Span.stop at hqs hqp ⊢
    unfold Span.stop at hadj
    rcases hadj with ⟨ha, rfl⟩ | ⟨ha, rfl⟩
    · dsimp only
      omega
    · dsimp only
      omega
  have hapart : ∀ q ∈ free, q.off ≠ p.off → Span.Apart q p := by
    intro q hq hne
    exact hrest.forall hq hp (fun he => hne (congrArg Span.off he))
  refine ⟨fun q hq => ?_, fun q hq => ?_, ?_, fun h hh q hq => ?_⟩
  · rcases mem_cons.mp hq with rfl | hq
    · rcases hadj with ⟨_, rfl⟩ | ⟨_, rfl⟩
      · exact Nat.add_pos_left hpp _
      · exact Nat.add_pos_left hs _
    · exact hl.pos q (mem_cons_of_mem _ (hsub q hq).1)
  · rcases mem_cons.mp hq with rfl | hq
    · unfold Span.stop at hst hpt hadj ⊢
      rcases hadj with ⟨ha, rfl⟩ | ⟨ha, rfl⟩
      · dsimp only
        omega
      · dsimp only
        omega
    · exact hl.top q (mem_cons_of_mem _ (hsub q hq).1)
  · refine pairwise_cons.mpr ⟨fun q hq => ?_, hrest.sublist filter_sublist⟩
    obtain ⟨hqf, hne⟩ := hsub q hq
    exact apart_symm (hmerge q (hl.pos q (mem_cons_of_mem _ hqf)) (apart_symm (hfirst q hqf)) (hapart q hqf hne))
  · rcases mem_cons.mp hq with rfl | hq
    · exact hmerge h.span (hlive h hh) (hl.live h hh s mem_cons_self) (hl.live h hh p (mem_cons_of_mem _ hp))
    · exact hl.live h hh q (mem_cons_of_mem _ (hsub q hq).1)

theorem Loose.mergePrev {s : Span} (hl : c.Loose free s) (hlive : ∀ h ∈ c.live, 0 < h.len) :
    c.Loose (CodeCache.mergePrev free s).2 (CodeCache.mergePrev free s).1 := by
  unfold CodeCache.mergePrev
  split
  next p hp =>
    have hm := mem_of_getLast? hp
    split
    next hadj => exact hl.merge hlive (mem_filter.mp hm).1 (.inl ⟨hadj, rfl⟩)
    next => exact hl
  next => exact hl

theorem Loose.mergeNext {s : Span} (hl : c.Loose free s) (hlive : ∀ h ∈ c.live, 0 < h.len) :
    c.Loose (CodeCache.mergeNext free s).2 (CodeCache.mergeNext free s).1 := by
  unfold CodeCache.mergeNext
  split
  next n hn =>
    split
    next hadj => exact hl.merge hlive (mem_of_find?_eq_some hn) (.inr ⟨hadj, rfl⟩)
    next => exact hl
  next => exact hl

theorem Valid.given (hv : c.Valid) (hh : h ∈ c.live) :
    CodeCache.Loose { c with live := c.live.erase h } c.free h.span := by
  have hsub : ∀ b ∈ c.live.erase h, b ∈ c.live := fun b hb => mem_of_mem_erase hb
  have hother : ∀ b ∈ c.live.erase h, b.span.Apart h.span := by
    have hp : (h :: c.live.erase h).Pairwise fun a b => a.span.Apart b.span :=
      ((perm_cons_erase hh).pairwise_iff fun h => apart_symm h).mp hv.live_apart
    exact fun b hb => apart_symm ((pairwise_cons.mp hp).1 b hb)
  refine ⟨fun q hq => ?_, fun q hq => ?_, ?_, fun b hb q hq => ?_⟩
  · rcases mem_cons.mp hq with rfl | hq
    · exact hv.live_pos h hh
    · exact hv.free_pos q hq
  · rcases mem_cons.mp hq with rfl | hq
    · exact hv.live_top h hh
    · exact hv.free_top q hq
  · exact pairwise_cons.mpr ⟨hv.live_free h hh, hv.free_apart⟩
  · rcases mem_cons.mp hq with rfl | hq
    · exact hother b hb
    · exact hv.live_free b (hsub b hb) q hq

theorem Valid.release (hv : c.Valid) (hh : h ∈ c.live) : (c.release h).Valid ∧ (c.release h).live = c.live.erase h ∧
      (c.release h).grants = c.grants := by
  have hsub : ∀ b ∈ c.live.erase h, b ∈ c.live := fun b hb => mem_of_mem_erase hb
  have hloose := hv.given hh
  have hpos : ∀ b ∈ c.live.erase h, 0 < b.len := fun b hb => hv.live_pos b (hsub b hb)
  have hl := (hloose.mergePrev hpos).mergeNext hpos
  have hlapart : (c.live.erase h).Pairwise fun a b => a.span.Apart b.span := hv.live_apart.sublist erase_sublist
  have hdistinct : (c.live.erase h).Nodup := hv.distinct.erase h
  unfold CodeCache.release
  dsimp only
  generalize (CodeCache.mergeNext (CodeCache.mergePrev c.free h.span).2
    (CodeCache.mergePrev c.free h.span).1) = merged at hl ⊢
  obtain ⟨s, free⟩ := merged
  obtain ⟨hfirst, hrest⟩ := pairwise_cons.mp hl.apart
  have hs := hl.pos s mem_cons_self
  dsimp only
  split
  next htop =>
    have hbelow : ∀ q : Span, 0 < q.len → q.stop ≤ c.top → Span.Apart q s → q.stop ≤ s.off := by
      intro q hq hqt hqs
      unfold Span.Apart Span.stop at hqs
      unfold Span.stop at htop hqt ⊢
      omega
    refine ⟨⟨fun q hq => hl.pos q (mem_cons_of_mem _ hq), fun q hq => ?_, hrest, hpos,
      fun b hb => ?_, hlapart, fun b hb q hq => hl.live b hb q (mem_cons_of_mem _ hq),
      fun b hb => hv.serials b (hsub b hb), hdistinct⟩, rfl, rfl⟩
    · exact hbelow q (hl.pos q (mem_cons_of_mem _ hq)) (hl.top q (mem_cons_of_mem _ hq)) (apart_symm (hfirst q hq))
    · exact hbelow b.span (hpos b hb) (hv.live_top b (hsub b hb)) (hl.live b hb s mem_cons_self)
  next =>
    have hperm := insertHole_perm s free
    have hmem : ∀ q ∈ insertHole s free, q ∈ s :: free := fun q hq => hperm.mem_iff.mp hq
    exact ⟨⟨fun q hq => hl.pos q (hmem q hq), fun q hq => hl.top q (hmem q hq),
      (hperm.pairwise_iff fun h => apart_symm h).mpr hl.apart, hpos,
      fun b hb => hv.live_top b (hsub b hb), hlapart, fun b hb q hq => hl.live b hb q (hmem q hq),
      fun b hb => hv.serials b (hsub b hb), hdistinct⟩, rfl, rfl⟩

end CodeCache

end WinArmVm
