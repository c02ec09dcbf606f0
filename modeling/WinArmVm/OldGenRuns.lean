import WinArmVm.FullGc
import WinArmVm.OffsetTable

namespace WinArmVm

open List Universe Memory Tiling Option

structure LiveObject where
  old : Nat
  words : Nat
  pos : 0 < words

namespace LiveObject

def placed : Nat → List LiveObject → List (Nat × Nat)
  | _, [] => []
  | new, o :: live => (new, o.words * wordSize) :: placed (new + o.words * wordSize) live

def newTop : Nat → List LiveObject → Nat
  | new, [] => new
  | new, o :: live => newTop (new + o.words * wordSize) live

def plan : Nat → List LiveObject → List CompactEntry
  | _, [] => []
  | new, o :: live => ⟨o.old, new, o.words % 2 ^ 32⟩ :: plan (new + o.words * wordSize) live

def Fits (o : LiveObject) : Prop := o.words < 2 ^ 32

end LiveObject

open LiveObject

def Universe.atTop (u : Universe) (top : Nat) : Universe := { u with old := { u.old with top := top } }

/-- The old generation with the objects in it: their headers and their sizes in bytes. -/
structure OldHeap where
  u : Universe
  objects : List (Nat × Nat)

inductive OldAction
  | allocate (sizeBytes : Nat)
  | grow (segment : Nat)
  | compact (live : List LiveObject)

def OldAction.Fits : OldAction → Prop
  | .compact live => ∀ o ∈ live, o.Fits
  | _ => True

namespace OldHeap

def allocate (s : OldHeap) (sizeBytes : Nat) : OldHeap :=
  match s.u.oldAllocate sizeBytes with
  | none => s
  | some (addr, u) => ⟨u, if sizeBytes = 0 then s.objects else s.objects ++ [(addr, (sizeBytes + 7) / 8 * 8)]⟩

def grow (s : OldHeap) (segment : Nat) : OldHeap := { s with u := { s.u with old := s.u.old.grow segment } }

def compact (s : OldHeap) (live : List LiveObject) : OldHeap :=
  ⟨(s.u.slideOld (plan s.u.old.start live)).atTop (newTop s.u.old.start live), placed s.u.old.start live⟩

def step (s : OldHeap) : OldAction → OldHeap
  | .allocate sizeBytes => s.allocate sizeBytes
  | .grow segment => s.grow segment
  | .compact live => s.compact live

def run (s : OldHeap) (actions : List OldAction) : OldHeap := actions.foldl step s

def Boot (s : OldHeap) : Prop := s.u.old.top = s.u.old.start ∧ s.objects = []

/-- The objects lie end to end up to the top, and every card below it leads to one. -/
structure Sound (s : OldHeap) : Prop where
  tiles : Tiles Prod.fst Prod.snd s.u.old.start s.objects s.u.old.top
  aligned : 8 ∣ s.u.old.top - s.u.old.start
  resolves : s.u.Resolves s.objects

namespace Sound

variable {s : OldHeap}

theorem boot (h : s.Boot) : s.Sound := by
  obtain ⟨htop, hobjects⟩ := h
  refine ⟨?_, ?_, ?_⟩
  · rw [hobjects, htop]
    exact Tiles.nil _
  · rw [htop, Nat.sub_self]
    exact Nat.dvd_zero 8
  · intro i hi
    rw [htop] at hi
    unfold cardBase at hi
    omega

theorem allocate (h : s.Sound) (sizeBytes : Nat) : (s.allocate sizeBytes).Sound := by
  unfold OldHeap.allocate oldAllocate
  by_cases hfull : s.u.old.committedEnd < s.u.old.top + (sizeBytes + 7) / 8 * 8
  · rw [if_pos hfull]
    exact h
  rw [if_neg hfull]
  dsimp only
  have hle := h.tiles.le
  have hd := h.aligned
  have hrecord : (({ s.u with old := { s.u.old with top := s.u.old.top + (sizeBytes + 7) / 8 * 8 } } :
      Universe).recordObject s.u.old.top ((sizeBytes + 7) / 8 * 8)).Resolves
      (s.objects ++ [(s.u.old.top, (sizeBytes + 7) / 8 * 8)]) := h.resolves.record hle hd rfl rfl rfl
  by_cases hzero : sizeBytes = 0
  · subst hzero
    refine ⟨h.tiles, h.aligned, ?_⟩
    intro i hi
    obtain ⟨b, hb, hres, hcover⟩ := hrecord i hi
    rcases mem_append.mp hb with hb | hb
    · exact ⟨b, hb, hres, hcover⟩
    · cases mem_singleton.mp hb
      omega
  · rw [if_neg hzero]
    refine ⟨h.tiles.snoc rfl ?_, ?_, hrecord⟩
    · show 0 < (sizeBytes + 7) / 8 * 8
      omega
    · show 8 ∣ s.u.old.top + (sizeBytes + 7) / 8 * 8 - s.u.old.start
      omega

theorem grow (h : s.Sound) (segment : Nat) : (s.grow segment).Sound :=
  ⟨h.tiles, h.aligned, h.resolves.congr rfl rfl rfl⟩

end Sound

variable {live : List LiveObject} {m m' : Memory} {new : Nat}

theorem slide_resolves {u : Universe} {blocks : List (Nat × Nat)}
    (h : (u.atTop new).Resolves blocks) (hle : u.old.start ≤ new) (hd : 8 ∣ new - u.old.start)
    (hfit : ∀ o ∈ live, o.Fits) :
    (((plan new live).foldl (fun u e => u.recordObject e.new (e.sizeWords * wordSize)) u).atTop
      (newTop new live)).Resolves (blocks ++ placed new live) := by
  induction live generalizing u new blocks with
  | nil =>
    rw [placed, append_nil]
    exact h
  | cons o live ih =>
    have hsize : o.words % 2 ^ 32 = o.words := Nat.mod_eq_of_lt (hfit o mem_cons_self)
    have hrecord : ((u.recordObject new (o.words * wordSize)).atTop (new + o.words * wordSize)).Resolves
        (blocks ++ [(new, o.words * wordSize)]) := h.record hle hd rfl rfl rfl
    have hd' : 8 ∣ new + o.words * 8 - u.old.start := by omega
    have hrest := ih hrecord (Nat.le_add_right_of_le hle) hd'
      fun o' ho' => hfit o' (mem_cons_of_mem o ho')
    rw [append_assoc] at hrest
    simp only [plan, placed, newTop, foldl_cons, hsize]
    exact hrest

theorem placed_tiles (new : Nat) (live : List LiveObject) :
    Tiles Prod.fst Prod.snd new (placed new live) (newTop new live) := by
  induction live generalizing new with
  | nil => exact Tiles.nil new
  | cons o live ih =>
    refine Tiles.cons rfl ?_ (ih _)
    have hpos := o.pos
    show 0 < o.words * wordSize
    unfold wordSize
    omega

theorem placed_words {b : Nat × Nat} (hb : b ∈ placed new live) : 8 ∣ b.2 := by
  induction live generalizing new with
  | nil => cases hb
  | cons o live ih =>
    rcases mem_cons.mp hb with rfl | hb
    · exact Nat.dvd_mul_left 8 o.words
    · exact ih hb

theorem newTop_aligned (new : Nat) (live : List LiveObject) : 8 ∣ newTop new live - new :=
  ((placed_tiles new live).dvd fun _ hb => placed_words hb).1

namespace Sound

variable {s : OldHeap}

theorem compact (s : OldHeap) {live : List LiveObject} (hfit : ∀ o ∈ live, o.Fits) : (s.compact live).Sound := by
  have hold : (s.compact live).u.old = { s.u.old with top := newTop s.u.old.start live } := by
    obtain ⟨offsets, hslide⟩ := s.u.slideOld_eq (plan s.u.old.start live)
    unfold OldHeap.compact atTop
    rw [hslide]
  have hclear : (s.u.clearThrough s.u.old.top).old = s.u.old := by
    unfold clearThrough
    split <;> rfl
  have hempty : ((s.u.clearThrough s.u.old.top).atTop s.u.old.start).Resolves [] := by
    intro i hi
    unfold cardBase atTop at hi
    rw [hclear] at hi
    dsimp only at hi
    omega
  refine ⟨?_, ?_, ?_⟩
  · rw [hold]
    exact placed_tiles _ live
  · rw [hold]
    exact newTop_aligned _ live
  · exact slide_resolves hempty (by rw [hclear]) (by rw [hclear]; simp) hfit

theorem step {a : OldAction} (h : s.Sound) (hfit : a.Fits) : (s.step a).Sound := by
  cases a with
  | allocate sizeBytes => exact h.allocate sizeBytes
  | grow segment => exact h.grow segment
  | compact live => exact Sound.compact s hfit

theorem run {actions : List OldAction} (h : s.Sound) (hfit : ∀ a ∈ actions, a.Fits) : (s.run actions).Sound := by
  induction actions generalizing s with
  | nil => exact h
  | cons a actions ih =>
    exact ih (h.step (hfit a mem_cons_self)) fun b hb => hfit b (mem_cons_of_mem a hb)

end Sound

theorem forwardingCompute_plan {top fuel addr new newEnd : Nat} {side side' : SideMarks} {entries : List CompactEntry}
    (h : Memory.forwardingCompute top fuel addr new m side = some (entries, newEnd, m', side')) :
    ∃ live, entries = plan new live ∧ newEnd = newTop new live := by
  induction fuel generalizing addr new newEnd m m' side side' entries with
  | zero =>
    obtain ⟨-, h⟩ := ite_none_left_eq_some.mp h
    cases h
    exact ⟨[], rfl, rfl⟩
  | succ fuel ih =>
    unfold forwardingCompute at h
    split at h
    next hlt =>
      obtain ⟨words, hwords, h⟩ := bind_eq_some_iff.mp h
      obtain ⟨mark, hmark, h⟩ := bind_eq_some_iff.mp h
      split at h
      next =>
        obtain ⟨⟨rest, newEnd', m₁, side₁⟩, hrest, h⟩ := bind_eq_some_iff.mp h
        cases h
        obtain ⟨live, rfl, rfl⟩ := ih hrest
        have hpos : 0 < words := by
          -- an object without a word would be met again, with its header forwarded
          by_contra hzero
          have hzero : words = 0 := by omega
          have hheader : (m.installForwarding addr new).markAt addr = none := by
            unfold markAt installForwarding write
            rw [Function.update_self]
          rw [hzero, Nat.zero_mul, Nat.add_zero] at hrest
          cases fuel with
          | zero =>
            unfold forwardingCompute at hrest
            rw [if_pos hlt] at hrest
            cases hrest
          | succ fuel =>
            unfold forwardingCompute at hrest
            rw [if_pos hlt] at hrest
            obtain ⟨_, _, hrest⟩ := bind_eq_some_iff.mp hrest
            obtain ⟨_, hm, _⟩ := bind_eq_some_iff.mp hrest
            rw [hheader] at hm
            cases hm
        exact ⟨⟨addr, words, hpos⟩ :: live, rfl, rfl⟩
      next => exact ih h
    next =>
      cases h
      exact ⟨[], rfl, rfl⟩

theorem fullGc_compact {r r' : Roots} {u u' : Universe} (objects : List (Nat × Nat))
    (h : Universe.fullGc r m u = some (r', m', u')) : ∃ live,
      u'.old = ((⟨u, objects⟩ : OldHeap).step (.compact live)).u.old ∧
        u'.offsets = ((⟨u, objects⟩ : OldHeap).step (.compact live)).u.offsets := by
  obtain ⟨m₁, g, -, f, rfl⟩ := fullGc_cases h
  obtain ⟨live, hplan, htop⟩ := forwardingCompute_plan f.old
  refine ⟨live, ?_, ?_⟩
  · rw [post_old]
    show { (u.slideOld f.oldPlan).old with top := f.oldTop } =
      { (u.slideOld (plan u.old.start live)).old with top := newTop u.old.start live }
    rw [hplan, htop]
  · rw [post_offsets]
    show (u.slideOld f.oldPlan).offsets = (u.slideOld (plan u.old.start live)).offsets
    rw [hplan]

def Covers (u : Universe) (i : Nat) (o : Nat × Nat) : Prop := o.1 ≤ u.cardBase i ∧ u.cardBase i < o.1 + o.2

/-- Every card below the top leads to the one object over its first byte. -/
theorem card_resolves {s : OldHeap} {actions : List OldAction} (hboot : s.Boot) (hfit : ∀ a ∈ actions, a.Fits)
    {i : Nat} (hi : (s.run actions).u.cardBase i < (s.run actions).u.old.top) :
    ∃ o ∈ (s.run actions).objects, (s.run actions).u.resolve i = some o.1 ∧ Covers (s.run actions).u i o ∧
      ∀ o' ∈ (s.run actions).objects, Covers (s.run actions).u i o' → o' = o := by
  have h := (Sound.boot hboot).run hfit
  obtain ⟨o, ho, hres, hcover⟩ := h.resolves i hi
  refine ⟨o, ho, hres, hcover, fun o' ho' hcover' => ?_⟩
  unfold Covers at hcover'
  rcases h.tiles.apart ho' ho with he | hlt | hlt
  · exact he
  · omega
  · omega

def wide : OldHeap where
  u := {
    eden := ⟨0, 0, 0⟩, fromSpace := ⟨0, 0, 0⟩, toSpace := ⟨0, 0, 0⟩
    old := ⟨0, 2 ^ 36, 2 ^ 36, 0⟩
    nCards := 2 ^ 27, cards := fun _ => false, offsets := fun _ => 0
    tenuringThreshold := 0, bytesAtAge := fun _ => 0, pendingStall := false }
  objects := []

theorem card_resolves_wide : ∃ o ∈ (wide.run [.allocate 4096, .grow 0, .compact [⟨1024, 384, by decide⟩]]).objects,
      (wide.run [.allocate 4096, .grow 0, .compact [⟨1024, 384, by decide⟩]]).u.resolve 5 = some o.1 := by
  have hfit : ∀ a ∈ [OldAction.allocate 4096, .grow 0, .compact [⟨1024, 384, by decide⟩]], a.Fits := by
    intro a ha
    simp only [mem_cons, not_mem_nil, or_false] at ha
    rcases ha with rfl | rfl | rfl
    · trivial
    · trivial
    · intro o ho
      cases mem_singleton.mp ho
      show 384 < 2 ^ 32
      decide
  obtain ⟨o, ho, hres, -⟩ := card_resolves (s := wide) ⟨rfl, rfl⟩ hfit (i := 5) (by decide)
  exact ⟨o, ho, hres⟩

/-- One object of `2 ^ 32 + 64` words survives; its entry has room for 64. -/
theorem long_object_unresolved :
    ∃ o ∈ (wide.run [.allocate (2 ^ 35 + 512), .compact [⟨0, 2 ^ 32 + 64, by decide⟩]]).objects,
      Covers (wide.run [.allocate (2 ^ 35 + 512), .compact [⟨0, 2 ^ 32 + 64, by decide⟩]]).u 2 o ∧
        (wide.run [.allocate (2 ^ 35 + 512), .compact [⟨0, 2 ^ 32 + 64, by decide⟩]]).u.resolve 2 = some 1024 ∧
        o.1 = 0 := by
  refine ⟨(0, 2 ^ 35 + 512), ?_, ?_, ?_, rfl⟩
  · exact mem_cons_self
  · constructor <;> decide
  · rfl

end OldHeap

end WinArmVm
