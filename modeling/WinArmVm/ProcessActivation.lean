import WinArmVm.ProcessStack
import WinArmVm.SmallInt
import Mathlib.Data.Nat.Bitwise
import Mathlib.Tactic.NormNum

namespace WinArmVm

/-- A closure's reference to its home activation: process id, frame serial, frame index. -/
structure HomeRef where
  proc : UInt8
  serial : UInt32
  fp : Nat
deriving DecidableEq, Repr

def HOME_REF_FP_BITS : Nat := 22
def HOME_REF_SERIAL_BITS : Nat := 32
def HOME_REF_FP_SHIFT : Nat := 0
def HOME_REF_SERIAL_SHIFT : Nat := HOME_REF_FP_SHIFT + HOME_REF_FP_BITS
def HOME_REF_PROC_SHIFT : Nat := HOME_REF_SERIAL_SHIFT + HOME_REF_SERIAL_BITS
def HOME_REF_FP_MAX : Nat := 2 ^ HOME_REF_FP_BITS - 1

def packHomeRef (h : HomeRef) : Int :=
  let raw := h.proc.toNat <<< HOME_REF_PROC_SHIFT ||| h.serial.toNat <<< HOME_REF_SERIAL_SHIFT
    ||| h.fp <<< HOME_REF_FP_SHIFT
  Int.bmod raw (2 ^ 62)

def unpackHomeRef (s : Int) : HomeRef :=
  let raw := (s % 2 ^ 62).toNat
  { proc := UInt8.ofNat (raw >>> HOME_REF_PROC_SHIFT)
    serial := UInt32.ofNat (raw >>> HOME_REF_SERIAL_SHIFT)
    fp := (raw >>> HOME_REF_FP_SHIFT) % (HOME_REF_FP_MAX + 1) }

theorem packed_fields {p s f : Nat} (hs : s < 2 ^ 32) (hf : f < 2 ^ 22) :
    p <<< HOME_REF_PROC_SHIFT ||| s <<< HOME_REF_SERIAL_SHIFT ||| f <<< HOME_REF_FP_SHIFT =
      p * 2 ^ 54 + s * 2 ^ 22 + f := by
  have hlow : s <<< 22 ||| f = s <<< 22 + f := (Nat.shiftLeft_add_eq_or_of_lt hf s).symm
  have hlt : s <<< 22 + f < 2 ^ 54 := by
    rw [Nat.shiftLeft_eq]
    omega
  simp only [HOME_REF_PROC_SHIFT, HOME_REF_SERIAL_SHIFT, HOME_REF_FP_SHIFT, HOME_REF_FP_BITS,
    HOME_REF_SERIAL_BITS, Nat.zero_add, Nat.reduceAdd]
  rw [Nat.shiftLeft_zero, Nat.or_assoc, hlow, ← Nat.shiftLeft_add_eq_or_of_lt hlt, Nat.shiftLeft_eq, Nat.shiftLeft_eq]
  omega

theorem low_bits_bmod {n : Nat} (h : n < 2 ^ 62) : (Int.bmod (n : Int) (2 ^ 62) % 2 ^ 62).toNat = n := by
  have hmod : Int.bmod (n : Int) (2 ^ 62) % 2 ^ 62 = (n : Int) % 2 ^ 62 := by
    have hcast := Int.bmod_emod (x := (n : Int)) (m := 2 ^ 62)
    exact_mod_cast hcast
  rw [hmod]
  omega

theorem unpackHomeRef_packHomeRef {h : HomeRef} (hf : h.fp ≤ HOME_REF_FP_MAX) : unpackHomeRef (packHomeRef h) = h := by
  obtain ⟨proc, serial, fp⟩ := h
  have hp : proc.toNat < 2 ^ 8 := proc.toNat_lt
  have hs : serial.toNat < 2 ^ 32 := serial.toNat_lt
  have hfp : fp < 2 ^ 22 := by
    simp only [HOME_REF_FP_MAX, HOME_REF_FP_BITS] at hf
    omega
  have hpack : packHomeRef ⟨proc, serial, fp⟩ =
      Int.bmod ((proc.toNat * 2 ^ 54 + serial.toNat * 2 ^ 22 + fp : Nat) : Int) (2 ^ 62) := by
    unfold packHomeRef
    simp only [packed_fields hs hfp]
  have hraw := low_bits_bmod (n := proc.toNat * 2 ^ 54 + serial.toNat * 2 ^ 22 + fp) (by omega)
  rw [← hpack] at hraw
  simp only [unpackHomeRef, hraw, HOME_REF_PROC_SHIFT, HOME_REF_SERIAL_SHIFT, HOME_REF_FP_SHIFT,
    HOME_REF_FP_BITS, HOME_REF_SERIAL_BITS, HOME_REF_FP_MAX, Nat.shiftRight_eq_div_pow]
  have hproc : (proc.toNat * 2 ^ 54 + serial.toNat * 2 ^ 22 + fp) / 2 ^ (0 + 22 + 32) = proc.toNat := by omega
  have hserial : UInt32.ofNat ((proc.toNat * 2 ^ 54 + serial.toNat * 2 ^ 22 + fp) / 2 ^ (0 + 22)) =
      serial := by
    apply UInt32.toNat_inj.mp
    rw [UInt32.toNat_ofNat']
    omega
  have hindex : (proc.toNat * 2 ^ 54 + serial.toNat * 2 ^ 22 + fp) / 2 ^ 0 % (2 ^ 22 - 1 + 1) = fp := by omega
  rw [hproc, hserial, hindex, UInt8.ofNat_toNat]

/-- Every reference the frame cap admits is a small integer that no other one packs to. -/
theorem HomeRef.smi_roundTrip {h : HomeRef} (hf : h.fp ≤ HOME_REF_FP_MAX) :
    (Oops.SMI_MIN.toInt ≤ packHomeRef h ∧ packHomeRef h ≤ Oops.SMI_MAX.toInt) ∧ unpackHomeRef (packHomeRef h) = h ∧
      ∀ h', h'.fp ≤ HOME_REF_FP_MAX → packHomeRef h' = packHomeRef h → h' = h := by
  have hsmi : Oops.SMI_MIN.toInt ≤ packHomeRef h ∧ packHomeRef h ≤ Oops.SMI_MAX.toInt := by
    have hmin : Oops.SMI_MIN.toInt = -2 ^ 61 := rfl
    have hmax : Oops.SMI_MAX.toInt = 2 ^ 61 - 1 := rfl
    have hbound (raw : Int) : -2 ^ 61 ≤ Int.bmod raw (2 ^ 62) ∧ Int.bmod raw (2 ^ 62) < 2 ^ 61 := by
      simp only [Int.bmod, Nat.reducePow]
      split <;> omega
    have hpacked := hbound (h.proc.toNat <<< HOME_REF_PROC_SHIFT ||| h.serial.toNat <<< HOME_REF_SERIAL_SHIFT
      ||| h.fp <<< HOME_REF_FP_SHIFT : Nat)
    change -2 ^ 61 ≤ packHomeRef h ∧ packHomeRef h < 2 ^ 61 at hpacked
    omega
  refine ⟨hsmi, unpackHomeRef_packHomeRef hf, ?_⟩
  intro h' hf' he
  have hback := unpackHomeRef_packHomeRef hf'
  rw [he, unpackHomeRef_packHomeRef hf] at hback
  exact hback.symm

theorem HomeRef.smi_roundTrip_top : (Oops.SMI_MIN.toInt ≤ packHomeRef ⟨255, 4294967295, HOME_REF_FP_MAX⟩ ∧
      packHomeRef ⟨255, 4294967295, HOME_REF_FP_MAX⟩ ≤ Oops.SMI_MAX.toInt) ∧
    unpackHomeRef (packHomeRef ⟨255, 4294967295, HOME_REF_FP_MAX⟩) = ⟨255, 4294967295, HOME_REF_FP_MAX⟩ ∧
    ∀ h', h'.fp ≤ HOME_REF_FP_MAX → packHomeRef h' = packHomeRef ⟨255, 4294967295, HOME_REF_FP_MAX⟩ →
      h' = ⟨255, 4294967295, HOME_REF_FP_MAX⟩ :=
  HomeRef.smi_roundTrip (h := ⟨255, 4294967295, HOME_REF_FP_MAX⟩) (Nat.le_refl _)

namespace Process

structure Closure where
  method : CompiledMethod
  home : Int
  copied : List Oop
deriving DecidableEq

structure NlrState where
  home : HomeRef
  value : Oop
  closure : Option Oop
deriving DecidableEq

/-- A frame that has been pushed; `id` counts the frames pushed before it. -/
structure Activation where
  id : Nat
  fp : Nat
  method : CompiledMethod
  savedBci : Nat
deriving DecidableEq

def Activation.base (a : Activation) : Nat := a.fp - a.method.argc - 1

def Activation.top (a : Activation) : Nat := a.fp + FRAME_TEMPS_BASE + a.method.ntemps

/-- What has happened, which no function of the virtual machine reads: the frames pushed so
far, the live ones of each interpreter run (innermost first) and, for each closure, the
activation that its home is. -/
structure History where
  pushed : Nat
  current : List Activation
  outer : List (List Activation)
  creators : List Nat
deriving DecidableEq

def History.live (h : History) : List Activation := h.current ++ h.outer.flatten

def History.opened (h : History) (fp : Nat) (m : CompiledMethod) (savedBci : Nat) : History :=
  { h with pushed := h.pushed + 1, current := ⟨h.pushed, fp, m, savedBci⟩ :: h.current }

def History.closed (h : History) : History := { h with current := h.current.tail }

/-- `suspended` are the activations that nested runs have saved; `cannotReturnMethod` is what
the lookup of `#cannotReturn:` in the closure klass finds, a method of one argument. -/
structure Vm where
  stack : ProcessStack
  method : Option CompiledMethod
  bci : Nat
  nextFrameSerial : UInt32
  closures : List Closure
  arrays : List (List Oop)
  nextObject : Nat
  nlrState : Option NlrState
  suspended : List FrameActivation
  cannotReturnMethod : Option { m : CompiledMethod // m.argc = 1 }
  history : History

inductive PrimResult
  | activated
  | fail
deriving DecidableEq

def asI64 (n : Nat) : Int := if n < 2 ^ 63 then n else (n : Int) - 2 ^ 64

namespace Vm

variable (vm : Vm)

def currentFrame : Frame := ⟨vm.stack.fp⟩

def allocFrameSerial : UInt32 × Vm := (vm.nextFrameSerial, { vm with nextFrameSerial := vm.nextFrameSerial + 1 })

end Vm

/-- The slots of a new frame, from `FRAME_METHOD` up. -/
def frameSlots (m : CompiledMethod) (savedFp : Int) (savedBci : Nat) (receiver : Oop) (serial : UInt32) : List Oop :=
  [.method m, .smi savedFp, .smi savedBci, .nil, receiver, .smi serial.toNat, .nil] ++ List.replicate m.ntemps .nil

namespace Vm

variable (vm : Vm)

/-- The pushes that `push_frame` and `activate_block_interp` make alike. -/
def layFrame (m : CompiledMethod) (savedFp : Int) (savedBci : Nat) (receiver : Oop) : Option Vm :=
  let (serial, vm) := vm.allocFrameSerial
  match vm.stack.pushAll (frameSlots m savedFp savedBci receiver serial) with
  | none => none
  | some stack => some { vm with
      stack := stack.activateFrame vm.stack.sp
      history := vm.history.opened vm.stack.sp m savedBci }

def pushFrame (m : CompiledMethod) (argc : Nat) (savedFp : Int) (savedBci : Nat) : Option Vm :=
  vm.layFrame m savedFp savedBci (vm.stack.get (vm.stack.sp - argc - 1))

def maybeAllocContext (m : CompiledMethod) (fp : Nat) : Vm :=
  if m.hasCtx then
    { vm with
      stack := (Frame.mk fp).setContext vm.stack (.object vm.nextObject)
      nextObject := vm.nextObject + 1 }
  else vm

def activateMethod (m : CompiledMethod) (argc : Nat) : Option Vm :=
  match vm.pushFrame m argc (asI64 vm.stack.fp) vm.bci with
  | none => none
  | some vm => some { vm.maybeAllocContext m vm.stack.fp with method := some m, bci := 0 }

def activateEntry (m : CompiledMethod) (argc : Nat) : Option Vm :=
  match vm.pushFrame m argc ENTRY_FRAME_SENTINEL 0 with
  | none => none
  | some vm => some { vm.maybeAllocContext m vm.stack.fp with method := some m, bci := 0 }

def setCaptures (f : Frame) (st : ProcessStack) : Nat → List Oop → Option ProcessStack
  | _, [] => some st
  | t, v :: vs =>
    match f.setTemp st t v with
    | none => none
    | some st => setCaptures f st (t + 1) vs

def activateBlockInterp (c argc : Nat) : Option (PrimResult × Vm) :=
  match vm.closures[c]? with
  | none => none
  | some closure =>
    let blk := closure.method
    if blk.argc ≠ argc then some (.fail, vm)
    else
      let fpNew := vm.stack.sp
      match vm.layFrame blk (asI64 vm.stack.fp) vm.bci (closure.copied.getD 0 .nil) with
      | none => none
      | some vm =>
        let enclosing := if blk.capturesCtx then closure.copied.getD 1 .nil else .nil
        let vm :=
          if blk.hasCtx then vm.maybeAllocContext blk fpNew
          else { vm with stack := (Frame.mk fpNew).setContext vm.stack enclosing }
        let valueBase := if blk.capturesCtx then 2 else 1
        match setCaptures ⟨fpNew⟩ vm.stack argc (closure.copied.drop valueBase) with
        | none => none
        | some stack => some (.activated, { vm with stack := stack, method := some blk, bci := 0 })

/-- `ensure:` and `ifCurtailed:`, whose receiver and argument are on top of the stack. -/
def primEnsureLike (kind : MarkerKind) : Option (PrimResult × Vm) :=
  match vm.stack.get (vm.stack.sp - 2), vm.stack.get (vm.stack.sp - 1) with
  | .closure p, .closure h =>
    match vm.closures[p]?, vm.closures[h]? with
    | some protected_, some handler =>
      if protected_.method.argc ≠ 0 ∨ handler.method.argc ≠ 0 then some (.fail, vm)
      else
        match { vm with stack := vm.stack.truncate (vm.stack.sp - 1) }.activateBlockInterp p 0 with
        | some (.activated, vm) =>
          (vm.currentFrame.setMarker vm.stack (.closure h) kind).map
            fun stack => (.activated, { vm with stack := stack })
        | other => other
    | _, _ => none
  | _, _ => some (.fail, vm)

def homeRefForNewClosure : Option Int :=
  match vm.currentFrame.method vm.stack with
  | none => none
  | some m =>
    if m.isBlock then
      match vm.stack.get (vm.stack.fp - m.argc - 1) with
      | .closure e => vm.closures[e]?.map Closure.home
      | _ => none
    else (vm.currentFrame.serial vm.stack).map fun serial =>
      packHomeRef ⟨0, serial, vm.stack.fp⟩

/-- The activation that `homeRefForNewClosure` refers to. -/
def homeOfNewClosure : Option Nat :=
  match vm.history.current with
  | [] => none
  | a :: _ =>
    if a.method.isBlock then
      match vm.stack.get (vm.stack.fp - a.method.argc - 1) with
      | .closure e => vm.history.creators[e]?
      | _ => none
    else some a.id

def makeClosure (blk : CompiledMethod) (nValueCaptures : Nat) : Option (Nat × Vm) :=
  let base := vm.stack.sp - nValueCaptures
  let captures := (List.range nValueCaptures).map fun i => vm.stack.get (base + i)
  let vm := { vm with stack := vm.stack.truncate base }
  let receiver := vm.currentFrame.receiver vm.stack
  let context := vm.currentFrame.context vm.stack
  let copied := receiver :: (if blk.capturesCtx then [context] else []) ++ captures
  match vm.homeRefForNewClosure, vm.homeOfNewClosure with
  | some home, some id => some (vm.closures.length, { vm with
      closures := vm.closures ++ [⟨blk, home, copied⟩]
      history := { vm.history with creators := vm.history.creators ++ [id] } })
  | _, _ => none

end Vm

end Process

end WinArmVm
