import Mathlib.Algebra.Group.Int.Defs
import Mathlib.Algebra.Group.Nat.Defs
import Mathlib.Logic.Function.Basic

namespace WinArmVm.Process

def FRAME_METHOD : Nat := 0
def FRAME_SAVED_FP : Nat := 1
def FRAME_SAVED_BCI : Nat := 2
def FRAME_CONTEXT : Nat := 3
def FRAME_RECEIVER : Nat := 4
def FRAME_SERIAL : Nat := 5
def FRAME_MARKER : Nat := 6
def FRAME_TEMPS_BASE : Nat := 7

def ENTRY_FRAME_SENTINEL : Int := -1

/-- `ENTRY_FRAME_SENTINEL as usize`, the frame index while no frame is the sender's. -/
def NO_FRAME : Nat := 2 ^ 64 - 1

def DEFAULT_STACK_CAPACITY : Nat := 64 * 1024

structure CompiledMethod where
  argc : Nat
  ntemps : Nat
  isBlock : Bool
  hasCtx : Bool
  capturesCtx : Bool
deriving DecidableEq, Repr

/-- Closures and unwind tokens go by their index in the heap. -/
inductive Oop
  | smi (value : Int)
  | nil
  | method (m : CompiledMethod)
  | closure (c : Nat)
  | array (a : Nat)
  | object (o : Nat)
deriving DecidableEq, Repr

/-- `SmallInt::try_from`. -/
def Oop.smallInt : Oop → Option Int
  | smi v => some v
  | _ => none

/-- `MethodOop::try_from`. -/
def Oop.methodOop : Oop → Option CompiledMethod
  | method m => some m
  | _ => none

structure FrameActivation where
  fp : Nat
  hasFrame : Bool
deriving DecidableEq

/-- Every VM has a stack of the default capacity; a slot from `sp` up is stale. -/
structure ProcessStack where
  slots : Nat → Oop
  sp : Nat
  fp : Nat
  hasFrame : Bool

namespace ProcessStack

variable (st : ProcessStack)

def empty : ProcessStack := ⟨fun _ => .smi 0, 0, 0, false⟩

def get (i : Nat) : Oop := st.slots i

def set (i : Nat) (v : Oop) : ProcessStack := { st with slots := Function.update st.slots i v }

def truncate (sp : Nat) : ProcessStack := { st with sp := sp }

def activateFrame (fp : Nat) : ProcessStack := { st with fp := fp, hasFrame := true }

def deactivate : ProcessStack := { st with hasFrame := false }

def saveActivation : FrameActivation := ⟨st.fp, st.hasFrame⟩

def restoreActivation (saved : FrameActivation) : ProcessStack := { st with fp := saved.fp, hasFrame := saved.hasFrame }

/-- `none` is the exit on overflow. -/
def push (v : Oop) : Option ProcessStack :=
  if st.sp < DEFAULT_STACK_CAPACITY then some { st.set st.sp v with sp := st.sp + 1 } else none

def pop : Oop × ProcessStack := (st.get (st.sp - 1), st.truncate (st.sp - 1))

def pushAll (st : ProcessStack) : List Oop → Option ProcessStack
  | [] => some st
  | v :: vs =>
    match st.push v with
    | none => none
    | some st' => st'.pushAll vs

variable {st st' : ProcessStack} {vs : List Oop}

theorem push_eq {v : Oop} (h : st.push v = some st') :
    st.sp < DEFAULT_STACK_CAPACITY ∧ st' = { st.set st.sp v with sp := st.sp + 1 } := by
  unfold push at h
  split at h
  next hlt => exact ⟨hlt, (Option.some.inj h).symm⟩
  next => cases h

theorem pushAll_spec (h : st.pushAll vs = some st') :
    st'.sp = st.sp + vs.length ∧ st'.fp = st.fp ∧ st'.hasFrame = st.hasFrame ∧
      (∀ i, i < st.sp ∨ st.sp + vs.length ≤ i → st'.slots i = st.slots i) ∧
      (∀ k v, vs[k]? = some v → st'.slots (st.sp + k) = v) ∧
      (st.sp ≤ DEFAULT_STACK_CAPACITY → st'.sp ≤ DEFAULT_STACK_CAPACITY) := by
  induction vs generalizing st with
  | nil =>
    cases h
    simp
  | cons w ws ih =>
    unfold pushAll at h
    split at h
    next => cases h
    next mid hmid =>
      obtain ⟨hlt, rfl⟩ := push_eq hmid
      obtain ⟨hsp, hfp, hfr, hout, hin, hcap⟩ := ih h
      simp only [List.length_cons] at hsp hout hin hcap ⊢
      refine ⟨by omega, hfp, hfr, ?_, ?_, fun _ => hcap hlt⟩
      · intro i hi
        have hne : i ≠ st.sp := by omega
        rw [hout i (by omega)]
        exact Function.update_of_ne hne _ _
      · intro k v hk
        cases k with
        | zero =>
          cases hk
          rw [hout _ (.inl (by omega))]
          exact Function.update_self ..
        | succ k =>
          have hnext := hin k v hk
          rwa [show st.sp + (k + 1) = st.sp + 1 + k by omega]

theorem pushAll_of_room {st : ProcessStack}
    (h : st.sp + vs.length ≤ DEFAULT_STACK_CAPACITY) : ∃ st', st.pushAll vs = some st' := by
  induction vs generalizing st with
  | nil => exact ⟨st, rfl⟩
  | cons w ws ih =>
    simp only [List.length_cons] at h
    have hlt : st.sp < DEFAULT_STACK_CAPACITY := by omega
    have hroom : ({ st.set st.sp w with sp := st.sp + 1 } : ProcessStack).sp + ws.length ≤
        DEFAULT_STACK_CAPACITY := by
      show st.sp + 1 + ws.length ≤ DEFAULT_STACK_CAPACITY
      omega
    obtain ⟨st', hst'⟩ := ih hroom
    exact ⟨st', by simp [pushAll, push, hlt, hst']⟩

end ProcessStack

inductive MarkerKind
  | ensure
  | ifCurtailed
deriving DecidableEq, Repr

structure Frame where
  fp : Nat
deriving DecidableEq

namespace Frame

variable (f : Frame) (st : ProcessStack)

def method : Option CompiledMethod := (st.get (f.fp + FRAME_METHOD)).methodOop

def savedFp : Option Int := (st.get (f.fp + FRAME_SAVED_FP)).smallInt

def savedBci : Option Nat := (st.get (f.fp + FRAME_SAVED_BCI)).smallInt.map Int.toNat

def context : Oop := st.get (f.fp + FRAME_CONTEXT)

def setContext (c : Oop) : ProcessStack := st.set (f.fp + FRAME_CONTEXT) c

def serialWord : Option Int := (st.get (f.fp + FRAME_SERIAL)).smallInt

def serialBits (w : Int) : UInt32 := UInt32.ofNat (w % 2 ^ 32).toNat

def serial : Option UInt32 := (f.serialWord st).map serialBits

def marker : Oop := st.get (f.fp + FRAME_MARKER)

def markerKind : Option MarkerKind :=
  (f.serialWord st).map fun w => if w / 2 ^ 32 % 2 ≠ 0 then .ifCurtailed else .ensure

def setMarker (m : Oop) (kind : MarkerKind) : Option ProcessStack := (f.serialWord st).map fun w =>
    let kindBit : Int := match kind with
      | .ensure => 0
      | .ifCurtailed => 2 ^ 32
    (st.set (f.fp + FRAME_SERIAL) (.smi (w % 2 ^ 32 + kindBit))).set (f.fp + FRAME_MARKER) m

def clearMarker : ProcessStack := st.set (f.fp + FRAME_MARKER) .nil

def receiver : Oop := st.get (f.fp + FRAME_RECEIVER)

def tempIndex (t : Nat) : Option Nat := (f.method st).map fun m =>
    if t < m.argc then f.fp - m.argc + t else f.fp + FRAME_TEMPS_BASE + (t - m.argc)

def setTemp (t : Nat) (v : Oop) : Option ProcessStack := (f.tempIndex st t).map fun i => st.set i v

def receiverSlot : Option Nat := (f.method st).map fun m => f.fp - m.argc - 1

end Frame

end WinArmVm.Process
