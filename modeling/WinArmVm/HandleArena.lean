import Mathlib.Algebra.Group.Nat.Defs
import Mathlib.Data.List.Basic

namespace WinArmVm.Handles

open List Option

/-- An index into the arena, and the generation that the slot had when the handle was made. -/
structure Handle where
  index : UInt32
  generation : UInt32
deriving DecidableEq, Repr

/-- `gen` is parallel to `slots` and never shrinks. -/
structure HandleArena (Oop : Type) where
  slots : List Oop
  gen : List UInt32
deriving DecidableEq, Repr

structure HandleScope where
  savedLen : Nat
deriving DecidableEq, Repr

namespace HandleArena

variable {Oop : Type} (arena : HandleArena Oop)

def new : HandleArena Oop := ⟨[], []⟩

def len : Nat := arena.slots.length

/-- One more for every generation from `base` up to `top`. -/
def bump (gen : List UInt32) (base top : Nat) : List UInt32 :=
  gen.mapIdx fun i g => if base ≤ i ∧ i < top then g + 1 else g

def resetTo (baseLen : Nat) : HandleArena Oop :=
  let liveTop := arena.len
  if baseLen < liveTop then ⟨arena.slots.take baseLen, bump arena.gen baseLen liveTop⟩ else arena

def enter : HandleScope := ⟨arena.len⟩

/-- `none` is the panic of a scope that is dropped out of order. -/
def drop (scope : HandleScope) : Option (HandleArena Oop) :=
  let liveTop := arena.len
  if scope.savedLen ≤ liveTop then
    some ⟨arena.slots.take scope.savedLen, bump arena.gen scope.savedLen liveTop⟩
  else none

/-- The scope takes no part in it; `none` is the failed assertion on the generations. -/
def handle (val : Oop) : Option (Handle × HandleArena Oop) :=
  let index := arena.len
  match arena.gen[index]? with
  | some generation =>
    some (⟨UInt32.ofNat index, generation⟩, { arena with slots := arena.slots ++ [val] })
  | none =>
    if index = arena.gen.length then
      some (⟨UInt32.ofNat index, 0⟩, ⟨arena.slots ++ [val], arena.gen ++ [0]⟩)
    else none

/-- The guard that a build with debug assertions has. -/
def slot (debugAssertions : Bool) (h : Handle) : Option Nat :=
  let i := h.index.toNat
  if debugAssertions ∧ ¬ (i < arena.len ∧ arena.gen[i]? = some h.generation) then none else some i

def get (debugAssertions : Bool) (h : Handle) : Option Oop :=
  match arena.slot debugAssertions h with
  | none => none
  | some i => arena.slots[i]?

def set (debugAssertions : Bool) (h : Handle) (val : Oop) : Option (HandleArena Oop) :=
  match arena.slot debugAssertions h with
  | none => none
  | some i => if i < arena.len then some { arena with slots := arena.slots.set i val } else none

def relocate (f : Oop → Oop) : HandleArena Oop := { arena with slots := arena.slots.map f }

end HandleArena

/-- A handle that has been made: its slot and the innermost scope at the time, what was last
written through it (moved by every collection since), whether its slot is still its own, and how
often the slot has been vacated since. -/
structure Issued (Oop : Type) where
  handle : Handle
  slot : Nat
  scope : Nat
  value : Oop
  live : Bool
  vacated : Nat

/-- The open scopes with their numbers, innermost first, and the handles made so far. -/
structure State (Oop : Type) where
  arena : HandleArena Oop
  scopes : List (Nat × HandleScope)
  entered : Nat
  issued : List (Issued Oop)

inductive Op (Oop : Type)
  | enter
  | handle (val : Oop)
  | get (k : Nat)
  | set (k : Nat) (val : Oop)
  | drop
  /-- A jump back past every scope but the `kept` outermost ones. -/
  | resetTo (kept baseLen : Nat)
  | collect (f : Oop → Oop)

/-- The slots from `base` up to `top` are vacated, and the handles that `dead` picks end. -/
def Issued.vacate {Oop : Type} (base top : Nat) (dead : Issued Oop → Bool) (i : Issued Oop) :
    Issued Oop :=
  { i with
    live := i.live && !dead i
    vacated := if base ≤ i.slot ∧ i.slot < top then i.vacated + 1 else i.vacated }

namespace State

variable {Oop : Type} (debugAssertions : Bool)

def start : State Oop := ⟨.new, [], 0, []⟩

/-- `none` is a panic, or an operation out of turn. -/
def step (st : State Oop) : Op Oop → Option (State Oop)
  | .enter => some { st with
      scopes := (st.entered, st.arena.enter) :: st.scopes
      entered := st.entered + 1 }
  | .handle val =>
    match st.scopes with
    | [] => none
    | (id, _) :: _ => (st.arena.handle val).map fun r => { st with
        arena := r.2
        issued := st.issued ++ [⟨r.1, st.arena.len, id, val, true, 0⟩] }
  | .get k =>
    match st.issued[k]? with
    | none => none
    | some i => (st.arena.get debugAssertions i.handle).map fun _ => st
  | .set k val =>
    match st.issued[k]? with
    | none => none
    | some i => (st.arena.set debugAssertions i.handle val).map fun arena => { st with
        arena := arena
        issued := st.issued.modify k fun i => { i with value := val } }
  | .drop =>
    match st.scopes with
    | [] => none
    | (id, scope) :: rest => (st.arena.drop scope).map fun arena => { st with
        arena := arena
        scopes := rest
        issued := st.issued.map (Issued.vacate scope.savedLen st.arena.len fun i => i.scope = id) }
  | .resetTo kept baseLen =>
    let abandoned := st.scopes.take (st.scopes.length - kept)
    let scopes := st.scopes.drop (st.scopes.length - kept)
    if (∀ s ∈ scopes, s.2.savedLen ≤ baseLen) ∧ ∀ s ∈ abandoned, baseLen ≤ s.2.savedLen then
      some { st with
        arena := st.arena.resetTo baseLen
        scopes := scopes
        issued := st.issued.map (Issued.vacate baseLen st.arena.len fun i =>
          baseLen ≤ i.slot || i.scope ∈ abandoned.map Prod.fst) }
    else none
  | .collect f => some { st with
      arena := st.arena.relocate f
      issued := st.issued.map fun i => { i with value := f i.value } }

def run (st : State Oop) : List (Op Oop) → Option (State Oop)
  | [] => some st
  | op :: ops =>
    match st.step debugAssertions op with
    | none => none
    | some st' => st'.run ops

end State

namespace HandleArena

variable {Oop : Type} {arena arena' : HandleArena Oop}

variable (gen : List UInt32)

theorem bump_getElem? (base top i : Nat) : (bump gen base top)[i]? =
      gen[i]?.map fun g => if base ≤ i ∧ i < top then g + 1 else g := by
  unfold bump
  exact getElem?_mapIdx

theorem length_bump (base top : Nat) : (bump gen base top).length = gen.length := length_mapIdx

/-- What the slots from `base` on have lost, whether by a drop or by a reset. -/
structure Cut (arena arena' : HandleArena Oop) (base : Nat) : Prop where
  slots : arena'.slots = arena.slots.take base
  gen : ∀ i, arena'.gen[i]? = arena.gen[i]?.map fun g => if base ≤ i ∧ i < arena.len then g + 1 else g
  length : arena'.gen.length = arena.gen.length

theorem drop_cut {scope : HandleScope} (h : arena.drop scope = some arena') :
    scope.savedLen ≤ arena.len ∧ Cut arena arena' scope.savedLen := by
  obtain ⟨hle, h⟩ := ite_none_right_eq_some.mp h
  cases h
  exact ⟨hle, rfl, bump_getElem? _ _ _, length_bump ..⟩

theorem resetTo_cut (baseLen : Nat) : Cut arena (arena.resetTo baseLen) baseLen := by
  unfold resetTo
  dsimp only
  split
  next => exact ⟨rfl, bump_getElem? _ _ _, length_bump ..⟩
  next hge =>
    refine ⟨(take_of_length_le (Nat.not_lt.mp hge)).symm, fun i => ?_, rfl⟩
    have hout : ¬ (baseLen ≤ i ∧ i < arena.len) := by omega
    simp [hout]

end HandleArena

def InScope (scopes : List (Nat × HandleScope)) (id slot : Nat) : Prop :=
  ∃ inner s outer, scopes = inner ++ s :: outer ∧ s.1 = id ∧ s.2.savedLen ≤ slot ∧ ∀ t ∈ inner, slot < t.2.savedLen

/-- A handle's generation is behind its slot's by the times that the slot was vacated. -/
structure Issued.Ok {Oop : Type} (st : State Oop) (i : Issued Oop) : Prop where
  index : i.handle.index = UInt32.ofNat i.slot
  generation : st.arena.gen[i.slot]? = some (i.handle.generation + UInt32.ofNat i.vacated)
  live_iff : i.live = true ↔ i.vacated = 0
  value : i.live = true → st.arena.slots[i.slot]? = some i.value
  scope : i.live = true → InScope st.scopes i.scope i.slot

structure Sound {Oop : Type} (st : State Oop) : Prop where
  gen_le : st.arena.len ≤ st.arena.gen.length
  bounded : ∀ s ∈ st.scopes, s.2.savedLen ≤ st.arena.len ∧ s.1 < st.entered
  nested : st.scopes.Pairwise fun s t => t.2.savedLen ≤ s.2.savedLen ∧ s.1 ≠ t.1
  issued : ∀ i ∈ st.issued, i.Ok st
  apart : ∀ (a b : Nat) (i j : Issued Oop), st.issued[a]? = some i → st.issued[b]? = some j →
    a ≠ b → i.live = true → j.live = true → i.slot ≠ j.slot
  owned : ∀ n < st.arena.len, ∃ i ∈ st.issued, i.live = true ∧ i.slot = n

/-- No handle's slot is beyond the 32 bits of an index, none was vacated 2^32 times. -/
def State.Bounded {Oop : Type} (st : State Oop) : Prop := ∀ i ∈ st.issued, i.slot < 2 ^ 32 ∧ i.vacated < 2 ^ 32

namespace Issued

variable {Oop : Type} {st : State Oop} {i : Issued Oop}

theorem index_toNat (h : i.Ok st) (hslot : i.slot < 2 ^ 32) : i.handle.index.toNat = i.slot := by
  rw [h.index, UInt32.toNat_ofNat']
  exact Nat.mod_eq_of_lt hslot

theorem slot_lt (h : i.Ok st) (hl : i.live = true) : i.slot < st.arena.len :=
  (List.getElem?_eq_some_iff.mp (h.value hl)).1

theorem generation_ne (h : i.Ok st) (hdead : i.live = false) (hv : i.vacated < 2 ^ 32) :
    st.arena.gen[i.slot]? ≠ some i.handle.generation := by
  intro heq
  have hnat := congrArg UInt32.toNat (some.inj (h.generation.symm.trans heq))
  have hg := i.handle.generation.toNat_lt
  have hzero : i.vacated ≠ 0 := fun hz => by simp [h.live_iff.mpr hz] at hdead
  rw [UInt32.toNat_add, UInt32.toNat_ofNat'] at hnat
  omega

theorem slot_live (h : i.Ok st) (hslot : i.slot < 2 ^ 32) (hl : i.live = true) (debug : Bool) :
    st.arena.slot debug i.handle = some i.slot := by
  have hgen : st.arena.gen[i.slot]? = some i.handle.generation := by
    have hg := h.generation
    rw [h.live_iff.mp hl] at hg
    simpa using hg
  unfold HandleArena.slot
  rw [index_toNat h hslot, if_neg]
  exact fun hno => hno.2 ⟨slot_lt h hl, hgen⟩

theorem slot_dead (h : i.Ok st) (hslot : i.slot < 2 ^ 32) (hdead : i.live = false)
    (hv : i.vacated < 2 ^ 32) : st.arena.slot true i.handle = none := by
  unfold HandleArena.slot
  rw [index_toNat h hslot, if_pos]
  exact ⟨rfl, fun hok => generation_ne h hdead hv hok.2⟩

end Issued

theorem InScope.drop {scopes : List (Nat × HandleScope)} {top : Nat × HandleScope} {id slot : Nat}
    (h : InScope (top :: scopes) id slot) (hne : id ≠ top.1) :
    InScope scopes id slot ∧ slot < top.2.savedLen := by
  obtain ⟨inner, s, outer, hs, hid, hle, hlt⟩ := h
  cases inner with
  | nil =>
    cases hs
    exact absurd hid.symm hne
  | cons t inner =>
    cases hs
    exact ⟨⟨inner, s, outer, rfl, hid, hle, fun x hx => hlt x (mem_cons_of_mem _ hx)⟩, hlt _ mem_cons_self⟩

theorem InScope.top {scopes : List (Nat × HandleScope)} {top : Nat × HandleScope} {slot : Nat}
    (hid : ∀ s ∈ scopes, top.1 ≠ s.1) (h : InScope (top :: scopes) top.1 slot) :
    top.2.savedLen ≤ slot := by
  obtain ⟨inner, s, outer, hs, heq, hle, -⟩ := h
  cases inner with
  | nil =>
    cases hs
    exact hle
  | cons t inner =>
    cases hs
    exact absurd heq.symm (hid s (by simp))

namespace Sound

variable {Oop : Type} {st st' : State Oop}

theorem vacate (h : Sound st) {arena : HandleArena Oop} {base : Nat}
    (hcut : st.arena.Cut arena base) {scopes : List (Nat × HandleScope)}
    (hsub : scopes <:+ st.scopes) (hle : ∀ s ∈ scopes, s.2.savedLen ≤ base) {dead : Issued Oop → Bool}
    (hdead : ∀ i ∈ st.issued, i.live = true → (dead i = true ↔ base ≤ i.slot))
    (hscope : ∀ i ∈ st.issued, i.live = true → i.slot < base → InScope scopes i.scope i.slot) :
    Sound { st with
      arena := arena
      scopes := scopes
      issued := st.issued.map (Issued.vacate base st.arena.len dead) } := by
  have hlen : arena.len = min base st.arena.len := by
    show arena.slots.length = _
    rw [hcut.slots, length_take]
    rfl
  have hkept : ∀ i ∈ st.issued, (Issued.vacate base st.arena.len dead i).live = true →
      i.live = true ∧ i.slot < base := by
    intro i hi hl
    simp only [Issued.vacate, Bool.and_eq_true, Bool.not_eq_true'] at hl
    refine ⟨hl.1, ?_⟩
    by_contra hge
    have hd := (hdead i hi hl.1).mpr (Nat.not_lt.mp hge)
    rw [hl.2] at hd
    cases hd
  refine ⟨?_, ?_, h.nested.sublist hsub.sublist, ?_, ?_, ?_⟩
  · have hgen := h.gen_le
    have hl := hcut.length
    show arena.len ≤ arena.gen.length
    omega
  · intro s hs
    obtain ⟨hb, hid⟩ := h.bounded s (hsub.subset hs)
    have hb' := hle s hs
    refine ⟨?_, hid⟩
    show s.2.savedLen ≤ arena.len
    omega
  · intro i' hi'
    obtain ⟨i, hi, rfl⟩ := mem_map.mp hi'
    have hok := h.issued i hi
    refine ⟨hok.index, ?_, ?_, ?_, ?_⟩
    · show arena.gen[i.slot]? = _
      rw [hcut.gen, hok.generation]
      by_cases hin : base ≤ i.slot ∧ i.slot < st.arena.len
      · simp only [Issued.vacate, hin, and_self, if_true, map_some, Option.some.injEq]
        rw [UInt32.ofNat_add, UInt32.add_assoc]
        rfl
      · simp only [Issued.vacate, hin, if_false, map_some]
    · constructor
      · intro hl
        obtain ⟨hlive, hlt⟩ := hkept i hi hl
        have hout : ¬ (base ≤ i.slot ∧ i.slot < st.arena.len) := by omega
        simp only [Issued.vacate, hout, if_false]
        exact hok.live_iff.mp hlive
      · intro hv
        simp only [Issued.vacate] at hv
        split at hv
        next => omega
        next hout =>
          have hlive := hok.live_iff.mpr hv
          have hlt := Issued.slot_lt hok hlive
          have hnot : dead i = false := by
            by_contra hd
            exact hout ⟨(hdead i hi hlive).mp (by simpa using hd), hlt⟩
          simp [Issued.vacate, hlive, hnot]
    · intro hl
      obtain ⟨hlive, hlt⟩ := hkept i hi hl
      show arena.slots[i.slot]? = some i.value
      rw [hcut.slots, getElem?_take_of_lt hlt]
      exact hok.value hlive
    · intro hl
      obtain ⟨hlive, hlt⟩ := hkept i hi hl
      exact hscope i hi hlive hlt
  · intro a b i' j' hi' hj' hab hil hjl
    simp only [getElem?_map, map_eq_some_iff] at hi' hj'
    obtain ⟨i, hi, rfl⟩ := hi'
    obtain ⟨j, hj, rfl⟩ := hj'
    exact h.apart a b i j hi hj hab (hkept i (mem_of_getElem? hi) hil).1 (hkept j (mem_of_getElem? hj) hjl).1
  · intro n hn
    have hn' : n < min base st.arena.len := hlen ▸ hn
    obtain ⟨i, hi, hlive, rfl⟩ := h.owned n (by omega)
    have hnot : dead i = false := by
      by_contra hd
      have hge := (hdead i hi hlive).mp (by simpa using hd)
      omega
    exact ⟨_, mem_map.mpr ⟨i, hi, rfl⟩, by simp [Issued.vacate, hlive, hnot], rfl⟩

theorem enter (h : Sound st) : Sound { st with
    scopes := (st.entered, st.arena.enter) :: st.scopes
    entered := st.entered + 1 } := by
  refine ⟨h.gen_le, ?_, ?_, ?_, h.apart, h.owned⟩
  · intro s hs
    rcases mem_cons.mp hs with rfl | hs
    · exact ⟨Nat.le_refl _, Nat.lt_succ_self _⟩
    · obtain ⟨hb, hid⟩ := h.bounded s hs
      exact ⟨hb, Nat.lt_succ_of_lt hid⟩
  · refine pairwise_cons.mpr ⟨fun s hs => ?_, h.nested⟩
    obtain ⟨hb, hid⟩ := h.bounded s hs
    exact ⟨hb, Nat.ne_of_gt hid⟩
  · intro i hi
    have hok := h.issued i hi
    refine ⟨hok.index, hok.generation, hok.live_iff, hok.value, fun hl => ?_⟩
    obtain ⟨inner, s, outer, hs, hid, hle, hlt⟩ := hok.scope hl
    refine ⟨(st.entered, st.arena.enter) :: inner, s, outer, by rw [hs]; rfl, hid, hle, ?_⟩
    intro t ht
    rcases mem_cons.mp ht with rfl | ht
    · exact Issued.slot_lt hok hl
    · exact hlt t ht

theorem drop (h : Sound st) {id : Nat} {scope : HandleScope} {rest : List (Nat × HandleScope)}
    (hs : st.scopes = (id, scope) :: rest) {arena : HandleArena Oop}
    (hdrop : st.arena.drop scope = some arena) : Sound { st with
      arena := arena
      scopes := rest
      issued := st.issued.map
        (Issued.vacate scope.savedLen st.arena.len fun i => i.scope = id) } := by
  obtain ⟨-, hcut⟩ := HandleArena.drop_cut hdrop
  have hnested := h.nested
  rw [hs] at hnested
  obtain ⟨htop, -⟩ := pairwise_cons.mp hnested
  have hsplit : ∀ i ∈ st.issued, i.live = true → (i.scope = id → scope.savedLen ≤ i.slot) ∧
        (i.scope ≠ id → InScope rest i.scope i.slot ∧ i.slot < scope.savedLen) := by
    intro i hi hl
    have hin := (h.issued i hi).scope hl
    rw [hs] at hin
    constructor
    · rintro rfl
      exact InScope.top (fun s hs => (htop s hs).2) hin
    · intro hne
      exact InScope.drop hin hne
  apply h.vacate hcut
  · rw [hs]
    exact suffix_cons _ _
  · exact fun s hs => (htop s hs).1
  · intro i hi hl
    obtain ⟨h1, h2⟩ := hsplit i hi hl
    rw [decide_eq_true_eq]
    refine ⟨h1, fun hge => ?_⟩
    by_contra hne
    exact absurd (h2 hne).2 (Nat.not_lt.mpr hge)
  · intro i hi hl hlt
    obtain ⟨h1, h2⟩ := hsplit i hi hl
    have hne : i.scope ≠ id := fun heq => absurd (h1 heq) (Nat.not_le.mpr hlt)
    exact (h2 hne).1

theorem inScope_append {xs ys : List (Nat × HandleScope)} {id slot : Nat}
    (h : InScope (xs ++ ys) id slot) (hlt : ∀ x ∈ xs, slot < x.2.savedLen) :
    InScope ys id slot := by
  induction xs with
  | nil => exact h
  | cons x xs ih =>
    apply ih _ fun y hy => hlt y (mem_cons_of_mem _ hy)
    obtain ⟨inner, s, outer, hs, hid, hle, hin⟩ := h
    cases inner with
    | nil =>
      cases hs
      exact absurd (hlt _ mem_cons_self) (Nat.not_lt.mpr hle)
    | cons t inner =>
      obtain ⟨rfl, htail⟩ := List.cons.inj hs
      exact ⟨inner, s, outer, htail, hid, hle, fun y hy => hin y (mem_cons_of_mem _ hy)⟩

theorem resetTo (h : Sound st) {baseLen : Nat} {abandoned scopes : List (Nat × HandleScope)}
    (hs : st.scopes = abandoned ++ scopes) (hkept : ∀ s ∈ scopes, s.2.savedLen ≤ baseLen)
    (hgone : ∀ s ∈ abandoned, baseLen ≤ s.2.savedLen) : Sound { st with
      arena := st.arena.resetTo baseLen
      scopes := scopes
      issued := st.issued.map (Issued.vacate baseLen st.arena.len fun i =>
        baseLen ≤ i.slot || i.scope ∈ abandoned.map Prod.fst) } := by
  have hin : ∀ i ∈ st.issued, i.live = true → i.slot < baseLen →
      InScope scopes i.scope i.slot := by
    intro i hi hl hlt
    have hscope := (h.issued i hi).scope hl
    rw [hs] at hscope
    exact inScope_append hscope fun s hs => Nat.lt_of_lt_of_le hlt (hgone s hs)
  apply h.vacate (HandleArena.resetTo_cut baseLen)
  · rw [hs]
    exact suffix_append _ _
  · exact hkept
  · intro i hi hl
    simp only [Bool.or_eq_true, decide_eq_true_eq]
    refine ⟨fun hd => ?_, .inl⟩
    rcases hd with hge | hmem
    · exact hge
    · by_contra hlt
      obtain ⟨inner, s, outer, hsplit, hid, -⟩ := hin i hi hl (Nat.not_le.mp hlt)
      obtain ⟨t, ht, heq⟩ := mem_map.mp hmem
      have hnested := h.nested
      rw [hs, hsplit] at hnested
      have hne := ((pairwise_append.mp hnested).2.2 t ht s (by simp)).2
      exact hne (heq.trans hid.symm)
  · exact hin

theorem handle (h : Sound st) {id : Nat} {scope : HandleScope} {rest : List (Nat × HandleScope)}
    (hs : st.scopes = (id, scope) :: rest) {val : Oop} {r : Handle × HandleArena Oop}
    (hr : st.arena.handle val = some r) : Sound { st with
      arena := r.2
      issued := st.issued ++ [⟨r.1, st.arena.len, id, val, true, 0⟩] } := by
  -- a slot that was in use before keeps its generation, a new one starts at zero
  have hnew : r.1.index = UInt32.ofNat st.arena.len ∧
      r.2.slots = st.arena.slots ++ [val] ∧ r.2.gen[st.arena.len]? = some r.1.generation ∧
      (∀ i < st.arena.gen.length, r.2.gen[i]? = st.arena.gen[i]?) ∧
      st.arena.len < r.2.gen.length := by
    unfold HandleArena.handle at hr
    dsimp only at hr
    split at hr
    next g hg =>
      cases hr
      exact ⟨rfl, rfl, hg, fun _ _ => rfl, (List.getElem?_eq_some_iff.mp hg).1⟩
    next =>
      obtain ⟨heq, hr⟩ := ite_none_right_eq_some.mp hr
      cases hr
      refine ⟨rfl, rfl, ?_, fun i hi => List.getElem?_append_left hi, by simp [heq]⟩
      rw [heq]
      exact List.getElem?_concat_length
  obtain ⟨hindex, hslots, hgen, hsame, hlt⟩ := hnew
  have hlen : r.2.len = st.arena.len + 1 := by
    show r.2.slots.length = _
    rw [hslots]
    simp [HandleArena.len]
  have hbelow : ∀ i ∈ st.issued, i.slot < st.arena.gen.length := fun i hi =>
    (List.getElem?_eq_some_iff.mp (h.issued i hi).generation).1
  refine ⟨?_, ?_, h.nested, ?_, ?_, ?_⟩
  · show r.2.len ≤ r.2.gen.length
    omega
  · intro s hs'
    obtain ⟨hb, hid⟩ := h.bounded s hs'
    refine ⟨?_, hid⟩
    show s.2.savedLen ≤ r.2.len
    omega
  · intro i hi
    rcases mem_append.mp hi with hi | hi
    · have hok := h.issued i hi
      refine ⟨hok.index, (hsame _ (hbelow i hi)).trans hok.generation, hok.live_iff, ?_, hok.scope⟩
      intro hl
      show r.2.slots[i.slot]? = some i.value
      rw [hslots, List.getElem?_append_left (Issued.slot_lt hok hl)]
      exact hok.value hl
    · cases mem_singleton.mp hi
      refine ⟨hindex, ?_, by simp, fun _ => ?_, fun _ => ?_⟩
      · show r.2.gen[st.arena.len]? = _
        rw [hgen]
        simp
      · show r.2.slots[st.arena.len]? = some val
        rw [hslots]
        exact List.getElem?_concat_length
      · have hb := (h.bounded (id, scope) (by simp [hs])).1
        exact ⟨[], (id, scope), rest, hs, rfl, hb, fun t ht => by cases ht⟩
  · intro a b i j hi hj hab hil hjl
    have hcase : ∀ {a : Nat} {i : Issued Oop},
        (st.issued ++ [⟨r.1, st.arena.len, id, val, true, 0⟩])[a]? = some i → i.live = true →
        st.issued[a]? = some i ∧ i.slot < st.arena.len ∨
          a = st.issued.length ∧ i.slot = st.arena.len := by
      intro a i hi hl
      by_cases ha : a < st.issued.length
      · rw [List.getElem?_append_left ha] at hi
        have hok := h.issued i (mem_of_getElem? hi)
        exact .inl ⟨hi, Issued.slot_lt hok hl⟩
      · have hb := (List.getElem?_eq_some_iff.mp hi).1
        simp only [length_append, length_singleton] at hb
        have heq : a = st.issued.length := by omega
        subst heq
        rw [List.getElem?_concat_length] at hi
        cases hi
        exact .inr ⟨rfl, rfl⟩
    rcases hcase hi hil with ⟨hi', hilt⟩ | ⟨ha, hieq⟩
    · rcases hcase hj hjl with ⟨hj', -⟩ | ⟨-, hjeq⟩
      · exact h.apart a b i j hi' hj' hab hil hjl
      · omega
    · rcases hcase hj hjl with ⟨-, hjlt⟩ | ⟨hb, -⟩
      · omega
      · omega
  · intro n hn
    have hn' : n < st.arena.len + 1 := hlen ▸ hn
    by_cases heq : n = st.arena.len
    · exact ⟨_, mem_append_right _ (mem_singleton.mpr rfl), rfl, heq.symm⟩
    · obtain ⟨i, hi, hl, hslot⟩ := h.owned n (by omega)
      exact ⟨i, mem_append_left _ hi, hl, hslot⟩

theorem set (h : Sound st) {k : Nat} {target : Issued Oop} (hk : st.issued[k]? = some target)
    (hl : target.live = true) (val : Oop) : Sound { st with
      arena := { st.arena with slots := st.arena.slots.set target.slot val }
      issued := st.issued.modify k fun i => { i with value := val } } := by
  have htarget := h.issued target (mem_of_getElem? hk)
  have hlt := Issued.slot_lt htarget hl
  have hlen : (st.arena.slots.set target.slot val).length = st.arena.len := length_set
  have hcase : ∀ {a : Nat} {i' : Issued Oop}, (st.issued.modify k fun i => { i with value := val })[a]? = some i' →
      ∃ i, st.issued[a]? = some i ∧
        (a = k ∧ i = target ∧ i' = { i with value := val } ∨ a ≠ k ∧ i' = i) := by
    intro a i' hi'
    rw [getElem?_modify] at hi'
    by_cases hak : k = a
    · subst hak
      rw [hk] at hi'
      simp only [if_true, Option.map_eq_map, map_some, Option.some.injEq] at hi'
      exact ⟨target, hk, .inl ⟨rfl, rfl, hi'.symm⟩⟩
    · simp only [hak, if_false, Option.map_eq_map, Option.map_id_fun', id] at hi'
      exact ⟨i', hi', .inr ⟨fun heq => hak heq.symm, rfl⟩⟩
  refine ⟨?_, ?_, h.nested, ?_, ?_, ?_⟩
  · show (st.arena.slots.set target.slot val).length ≤ st.arena.gen.length
    rw [hlen]
    exact h.gen_le
  · intro s hs
    obtain ⟨hb, hid⟩ := h.bounded s hs
    refine ⟨?_, hid⟩
    show s.2.savedLen ≤ (st.arena.slots.set target.slot val).length
    rwa [hlen]
  · intro i' hi'
    obtain ⟨a, ha⟩ := mem_iff_getElem?.mp hi'
    obtain ⟨i, hi, ⟨rfl, rfl, rfl⟩ | ⟨hne, rfl⟩⟩ := hcase ha
    · refine ⟨htarget.index, htarget.generation, htarget.live_iff, fun _ => ?_, htarget.scope⟩
      exact getElem?_set_self hlt
    · have hok := h.issued i' (mem_of_getElem? hi)
      refine ⟨hok.index, hok.generation, hok.live_iff, fun hil => ?_, hok.scope⟩
      have hslot := h.apart a k i' target hi hk hne hil hl
      show (st.arena.slots.set target.slot val)[i'.slot]? = _
      rw [getElem?_set_ne (Ne.symm hslot)]
      exact hok.value hil
  · intro a b i' j' hi' hj' hab hil hjl
    obtain ⟨i, hi, hi2⟩ := hcase hi'
    obtain ⟨j, hj, hj2⟩ := hcase hj'
    have hsi : i'.slot = i.slot ∧ i'.live = i.live := by
      rcases hi2 with ⟨-, -, rfl⟩ | ⟨-, rfl⟩ <;> exact ⟨rfl, rfl⟩
    have hsj : j'.slot = j.slot ∧ j'.live = j.live := by
      rcases hj2 with ⟨-, -, rfl⟩ | ⟨-, rfl⟩ <;> exact ⟨rfl, rfl⟩
    rw [hsi.1, hsj.1]
    exact h.apart a b i j hi hj hab (hsi.2 ▸ hil) (hsj.2 ▸ hjl)
  · intro n hn
    have hn' : n < st.arena.len := hlen ▸ hn
    obtain ⟨i, hi, hil, rfl⟩ := h.owned n hn'
    obtain ⟨a, ha⟩ := mem_iff_getElem?.mp hi
    by_cases hak : k = a
    · refine ⟨{ i with value := val }, mem_of_getElem? (i := a) ?_, hil, rfl⟩
      rw [getElem?_modify, ha]
      simp [hak]
    · refine ⟨i, mem_of_getElem? (i := a) ?_, hil, rfl⟩
      rw [getElem?_modify, ha]
      simp [hak]

theorem collect (h : Sound st) (f : Oop → Oop) : Sound { st with
    arena := st.arena.relocate f
    issued := st.issued.map fun i => { i with value := f i.value } } := by
  have hlen : (st.arena.relocate f).len = st.arena.len := length_map _
  refine ⟨hlen.symm ▸ h.gen_le, ?_, h.nested, ?_, ?_, ?_⟩
  · intro s hs
    obtain ⟨hb, hid⟩ := h.bounded s hs
    exact ⟨hlen.symm ▸ hb, hid⟩
  · intro i' hi'
    obtain ⟨i, hi, rfl⟩ := mem_map.mp hi'
    have hok := h.issued i hi
    refine ⟨hok.index, hok.generation, hok.live_iff, fun hl => ?_, hok.scope⟩
    show (st.arena.slots.map f)[i.slot]? = some (f i.value)
    rw [getElem?_map, hok.value hl]
    rfl
  · intro a b i' j' hi' hj' hab hil hjl
    simp only [getElem?_map, map_eq_some_iff] at hi' hj'
    obtain ⟨i, hi, rfl⟩ := hi'
    obtain ⟨j, hj, rfl⟩ := hj'
    exact h.apart a b i j hi hj hab hil hjl
  · intro n hn
    obtain ⟨i, hi, hl, hslot⟩ := h.owned n (hlen ▸ hn)
    exact ⟨_, mem_map.mpr ⟨i, hi, rfl⟩, hl, hslot⟩

end Sound

theorem start_sound {Oop : Type} : Sound (State.start : State Oop) where
  gen_le := Nat.le_refl _
  bounded s hs := by cases hs
  nested := List.Pairwise.nil
  issued i hi := by cases hi
  apart a b i j hi := by simp [State.start] at hi
  owned n hn := by cases hn

namespace State

variable {Oop : Type} {st st' : State Oop} {op : Op Oop} {debug : Bool}

theorem step_issued (h : st.step debug op = some st') :
    ∀ i ∈ st.issued, ∃ i' ∈ st'.issued, i'.slot = i.slot ∧ i.vacated ≤ i'.vacated := by
  have hvacate : ∀ (base top : Nat) (dead : Issued Oop → Bool), ∀ i ∈ st.issued,
      ∃ i' ∈ st.issued.map (Issued.vacate base top dead),
        i'.slot = i.slot ∧ i.vacated ≤ i'.vacated := by
    intro base top dead i hi
    refine ⟨_, mem_map.mpr ⟨i, hi, rfl⟩, rfl, ?_⟩
    unfold Issued.vacate
    dsimp only
    split <;> omega
  intro i hi
  cases op with
  | enter =>
    cases some.inj h
    exact ⟨i, hi, rfl, Nat.le_refl _⟩
  | handle val =>
    unfold step at h
    dsimp only at h
    split at h
    next => cases h
    next =>
      obtain ⟨r, -, rfl⟩ := map_eq_some_iff.mp h
      exact ⟨i, mem_append_left _ hi, rfl, Nat.le_refl _⟩
  | get k =>
    unfold step at h
    dsimp only at h
    split at h
    next => cases h
    next =>
      obtain ⟨r, -, rfl⟩ := map_eq_some_iff.mp h
      exact ⟨i, hi, rfl, Nat.le_refl _⟩
  | set k val =>
    unfold step at h
    dsimp only at h
    split at h
    next => cases h
    next =>
      obtain ⟨r, -, rfl⟩ := map_eq_some_iff.mp h
      obtain ⟨a, ha⟩ := mem_iff_getElem?.mp hi
      refine ⟨if k = a then { i with value := val } else i, mem_of_getElem? (i := a) ?_, ?_, ?_⟩
      · rw [getElem?_modify, ha]
        split <;> simp
      · split <;> rfl
      · split <;> exact Nat.le_refl _
  | drop =>
    unfold step at h
    dsimp only at h
    split at h
    next => cases h
    next =>
      obtain ⟨r, -, rfl⟩ := map_eq_some_iff.mp h
      exact hvacate _ _ _ i hi
  | resetTo kept baseLen =>
    obtain ⟨-, h⟩ := ite_none_right_eq_some.mp h
    cases some.inj h
    exact hvacate _ _ _ i hi
  | collect f =>
    cases some.inj h
    exact ⟨_, mem_map.mpr ⟨i, hi, rfl⟩, rfl, Nat.le_refl _⟩

theorem bounded_of_step (h : st.step debug op = some st') (hb : st'.Bounded) : st.Bounded := by
  intro i hi
  obtain ⟨i', hi', hslot, hle⟩ := step_issued h i hi
  obtain ⟨h1, h2⟩ := hb i' hi'
  exact ⟨hslot ▸ h1, Nat.lt_of_le_of_lt hle h2⟩

theorem bounded_of_run {ops : List (Op Oop)} (h : st.run debug ops = some st') (hb : st'.Bounded) : st.Bounded := by
  induction ops generalizing st with
  | nil =>
    cases h
    exact hb
  | cons op ops ih =>
    unfold run at h
    split at h
    next => cases h
    next mid hmid => exact bounded_of_step hmid (ih h)

end State

namespace Sound

variable {Oop : Type} {st st' : State Oop} {op : Op Oop}

theorem step (h : Sound st) (hb : st.Bounded) (hs : st.step true op = some st') : Sound st' := by
  cases op with
  | enter =>
    cases some.inj hs
    exact h.enter
  | handle val =>
    unfold State.step at hs
    dsimp only at hs
    split at hs
    next => cases hs
    next id scope rest hscopes =>
      obtain ⟨r, hr, rfl⟩ := map_eq_some_iff.mp hs
      exact h.handle hscopes hr
  | get k =>
    unfold State.step at hs
    dsimp only at hs
    split at hs
    next => cases hs
    next =>
      obtain ⟨r, -, rfl⟩ := map_eq_some_iff.mp hs
      exact h
  | set k val =>
    unfold State.step at hs
    dsimp only at hs
    split at hs
    next => cases hs
    next i hi =>
      obtain ⟨arena, ha, rfl⟩ := map_eq_some_iff.mp hs
      have hmem := mem_of_getElem? hi
      have hok := h.issued i hmem
      obtain ⟨hslot, hv⟩ := hb i hmem
      unfold HandleArena.set at ha
      by_cases hl : i.live = true
      · rw [Issued.slot_live hok hslot hl] at ha
        dsimp only at ha
        rw [if_pos (Issued.slot_lt hok hl)] at ha
        cases some.inj ha
        exact h.set hi hl val
      · rw [Issued.slot_dead hok hslot (Bool.eq_false_iff.mpr hl) hv] at ha
        cases ha
  | drop =>
    unfold State.step at hs
    dsimp only at hs
    split at hs
    next => cases hs
    next id scope rest hscopes =>
      obtain ⟨arena, ha, rfl⟩ := map_eq_some_iff.mp hs
      exact h.drop hscopes ha
  | resetTo kept baseLen =>
    obtain ⟨hguard, hs⟩ := ite_none_right_eq_some.mp hs
    cases some.inj hs
    exact h.resetTo (take_append_drop _ _).symm hguard.1 hguard.2
  | collect f =>
    cases hs
    exact h.collect f

theorem run {ops : List (Op Oop)} (h : Sound st) (hs : st.run true ops = some st') (hb : st'.Bounded) : Sound st' := by
  induction ops generalizing st with
  | nil =>
    cases hs
    exact h
  | cons op ops ih =>
    unfold State.run at hs
    split at hs
    next => cases hs
    next mid hmid =>
      have hmb := State.bounded_of_run hs hb
      exact ih (h.step (State.bounded_of_step hmid hmb) hmid) hs

/-- In a build with the assertions, a live handle reads what was last written through it, and a
handle whose scope is gone reads and writes nothing. Without them the bound alone is checked, and
a slot in use again answers its new owner's value. -/
theorem handles_safe {ops : List (Op Oop)} (hrun : State.start.run true ops = some st)
    (hb : st.Bounded) {i : Issued Oop} (hi : i ∈ st.issued) :
    (i.live = true → ∀ debug, st.arena.get debug i.handle = some i.value) ∧
      (i.live = false → st.arena.get true i.handle = none ∧ (∀ val, st.arena.set true i.handle val = none) ∧
        (st.arena.get false i.handle = none ∧ st.arena.len ≤ i.slot ∨ ∃ j ∈ st.issued, j.live = true ∧ j.slot = i.slot ∧
            st.arena.get false i.handle = some j.value)) := by
  have hsound := start_sound.run hrun hb
  have hok := hsound.issued i hi
  obtain ⟨hslot, hv⟩ := hb i hi
  constructor
  · intro hl debug
    unfold HandleArena.get
    rw [Issued.slot_live hok hslot hl]
    exact hok.value hl
  · intro hdead
    have hno := Issued.slot_dead hok hslot hdead hv
    have hfree : st.arena.get false i.handle = st.arena.slots[i.slot]? := by
      unfold HandleArena.get HandleArena.slot
      simp [Issued.index_toNat hok hslot]
    refine ⟨?_, fun val => ?_, ?_⟩
    · unfold HandleArena.get
      rw [hno]
    · unfold HandleArena.set
      rw [hno]
    · rw [hfree]
      by_cases hlt : i.slot < st.arena.len
      · obtain ⟨j, hj, hjl, hjs⟩ := hsound.owned i.slot hlt
        have hval := (hsound.issued j hj).value hjl
        rw [hjs] at hval
        exact .inr ⟨j, hj, hjl, hjs, hval⟩
      · exact .inl ⟨getElem?_eq_none (Nat.not_lt.mp hlt), Nat.not_lt.mp hlt⟩

def reuse : List (Op Nat) :=
  [.enter, .handle 1, .enter, .handle 2, .drop, .enter, .handle 3, .set 0 5, .collect (· + 10)]

theorem handles_safe_reuse : ∃ (st : State Nat) (outer stale : Issued Nat),
    State.start.run true reuse = some st ∧ outer.live = true ∧ stale.live = false ∧
      st.arena.get true outer.handle = some 15 ∧ st.arena.get true stale.handle = none := by
  have hrun : State.start.run true reuse = some ⟨⟨[15, 13], [0, 1]⟩, [(2, ⟨1⟩), (0, ⟨0⟩)], 3,
        [⟨⟨0, 0⟩, 0, 0, 15, true, 0⟩, ⟨⟨1, 0⟩, 1, 1, 12, false, 1⟩, ⟨⟨1, 1⟩, 1, 2, 13, true, 0⟩]⟩ := rfl
  have hb : @State.Bounded Nat ⟨⟨[15, 13], [0, 1]⟩, [(2, ⟨1⟩), (0, ⟨0⟩)], 3,
        [⟨⟨0, 0⟩, 0, 0, 15, true, 0⟩, ⟨⟨1, 0⟩, 1, 1, 12, false, 1⟩,
          ⟨⟨1, 1⟩, 1, 2, 13, true, 0⟩]⟩ := by
    intro i hi
    simp only [mem_cons, not_mem_nil, or_false] at hi
    rcases hi with rfl | rfl | rfl <;> decide
  have hlive := (handles_safe hrun hb (i := ⟨⟨0, 0⟩, 0, 0, 15, true, 0⟩) (by simp)).1 rfl true
  have hstale := ((handles_safe hrun hb (i := ⟨⟨1, 0⟩, 1, 1, 12, false, 1⟩) (by simp)).2 rfl).1
  exact ⟨_, _, _, hrun, rfl, rfl, hlive, hstale⟩

/-- Without the assertions a stale handle reads its slot's new owner. -/
theorem stale_handle_reads : ∃ (st : State Nat) (i : Issued Nat),
    State.start.run false [.enter, .handle 1, .drop, .enter, .handle 2, .get 0] = some st ∧
      i ∈ st.issued ∧ i.live = false ∧ i.vacated = 1 ∧ st.arena.get false i.handle = some 2 :=
  ⟨_, ⟨⟨0, 0⟩, 0, 0, 1, false, 1⟩, rfl, mem_cons_self, rfl, rfl, rfl⟩

end Sound

end WinArmVm.Handles
