import WinArmVm.ProcessActivation

namespace WinArmVm.Process

def BCI_SENTINEL_BASE : Nat := 0x7FFF0000
def BCI_RESUME_ENSURE_RET : Nat := 0x7FFF0001
def BCI_RESUME_UNWIND : Nat := 0x7FFF0002
def BCI_RESUME_CANNOT_RETURN : Nat := 0x7FFF0003

inductive MarkerClass
  | none
  | handler (c : Nat)
  | token (a : Nat)
deriving DecidableEq

inductive ScanResult
  | marked (fp : Nat) (handler : Nat)
  | reachedHome
  | crossedBoundary (entryFp : Nat)
deriving DecidableEq

/-- Where control goes next. The returns and the unwind call each other in tail position, so a
call is a state of its own (`continueUnwind` in two halves, the second with the frames above
the marked one gone). The last five hand control back to the dispatch loop (the first three:
in the caller, in a handler, in `#cannotReturn:`) or end it. -/
inductive Call
  | doReturn (result : Oop)
  | popAndDeliver (result : Oop)
  | resumeEnsureRet
  | resumeUnwind
  | continueUnwind (home : HomeRef) (value : Oop) (originatingClosure : Option Oop)
  | suspendUnwind (mfp handler : Nat) (home : HomeRef) (value : Oop)
  | dispatch
  | ranHandler (handler : Nat)
  | cannotReturn
  | entryReturned (result : Oop)
  | escaped
deriving DecidableEq

def Call.settled : Call → Bool
  | doReturn _ | popAndDeliver _ | resumeEnsureRet | resumeUnwind => false
  | continueUnwind .. | suspendUnwind .. => false
  | _ => true

namespace Vm

variable (vm : Vm)

/-- `none` is the panic: neither nil, nor a closure, nor an array. -/
def markerClass (f : Frame) : Option MarkerClass :=
  match f.marker vm.stack with
  | .nil => some .none
  | .closure c => some (.handler c)
  | .array a => some (.token a)
  | _ => none

/-- The handler is on the stack and `bci` is the sentinel that its activation saves. -/
def runHandler (handler : Nat) : Option (Vm × Call) :=
  match vm.stack.push (.closure handler) with
  | none => none
  | some stack =>
    match { vm with stack := stack }.activateBlockInterp handler 0 with
    | some (.activated, vm) => some (vm, .ranHandler handler)
    | _ => none

def interceptEnsureReturn (f : Frame) (handler : Nat) (result : Oop) : Option (Vm × Call) :=
  match (f.clearMarker vm.stack).push result with
  | none => none
  | some stack => { vm with stack := stack, bci := BCI_RESUME_ENSURE_RET }.runHandler handler

def doReturn (result : Oop) : Option (Vm × Call) :=
  let frame := vm.currentFrame
  match vm.markerClass frame with
  | some .none => some (vm, .popAndDeliver result)
  | some (.handler h) =>
    match frame.markerKind vm.stack with
    | some .ifCurtailed =>
      some ({ vm with stack := frame.clearMarker vm.stack }, .popAndDeliver result)
    | some .ensure => vm.interceptEnsureReturn frame h result
    | none => none
  | _ => none

/-- The resume sentinels go to their routines; `#cannotReturn:` must not have returned. -/
def resumeAt (savedBci : Nat) : Option (Vm × Call) :=
  if savedBci = BCI_RESUME_ENSURE_RET then some (vm, .resumeEnsureRet)
  else if savedBci = BCI_RESUME_UNWIND then some (vm, .resumeUnwind)
  else if savedBci = BCI_RESUME_CANNOT_RETURN then none
  else
    match vm.currentFrame.method vm.stack with
    | none => none
    | some m => some ({ vm with method := some m, bci := savedBci }, .dispatch)

def popAndDeliver (result : Oop) : Option (Vm × Call) :=
  let frame := vm.currentFrame
  match frame.method vm.stack, frame.savedFp vm.stack, frame.savedBci vm.stack with
  | some m, some savedFp, some savedBci =>
    let base := vm.stack.fp - m.argc - 1
    let stack := (vm.stack.set base result).truncate (base + 1)
    let history := vm.history.closed
    if savedFp = ENTRY_FRAME_SENTINEL then
      some ({ vm with stack := (stack.truncate base).deactivate, history := history },
        .entryReturned result)
    else
      { vm with stack := stack.activateFrame savedFp.toNat, history := history }.resumeAt savedBci
  | _, _, _ => none

def resumeEnsureRet : Option (Vm × Call) :=
  let (result, stack) := (vm.stack.truncate (vm.stack.sp - 1)).pop
  some ({ vm with stack := stack }, .doReturn result)

def homeIsLive (home : HomeRef) : Bool :=
  if home.proc ≠ 0 then false
  else if vm.stack.sp ≤ home.fp + FRAME_MARKER then false
  else
    match (vm.stack.get (home.fp + FRAME_SERIAL)).smallInt with
    | some s => Frame.serialBits s = home.serial
    | none => false

/-- A chain of frames below `fp` has at most `fp` of them, which bounds the loop. -/
def scanMarked (homeFp : Nat) : Nat → Nat → Option ScanResult
  | 0, _ => none
  | fuel + 1, fp =>
    if fp = homeFp then some .reachedHome
    else
      match vm.markerClass ⟨fp⟩ with
      | none => none
      | some (.handler h) => some (.marked fp h)
      | some _ =>
        match (Frame.mk fp).savedFp vm.stack with
        | none => none
        | some savedFp =>
          if savedFp = ENTRY_FRAME_SENTINEL then some (.crossedBoundary fp)
          else scanMarked homeFp fuel savedFp.toNat

def innermostMarkedFrame (fromFp homeFp : Nat) : Option ScanResult := vm.scanMarked homeFp (fromFp + 1) fromFp

def walkTo (target : Nat) : Nat → Nat → Option Unit
  | 0, _ => none
  | fuel + 1, fp =>
    if fp = target then some ()
    else
      match (Frame.mk fp).savedFp vm.stack with
      | none => none
      | some savedFp => walkTo target fuel savedFp.toNat

def popFramesAbove (targetFp : Nat) : Option Vm :=
  match vm.walkTo targetFp (vm.stack.fp + 1) vm.stack.fp,
    (Frame.mk targetFp).method vm.stack with
  | some (), some m => some { vm with
      stack := (vm.stack.activateFrame targetFp).truncate (targetFp + FRAME_TEMPS_BASE + m.ntemps)
      history := { vm.history with
        current := vm.history.current.dropWhile fun a => a.fp ≠ targetFp } }
  | _, _ => none

def allocUnwindToken (home : HomeRef) (value : Oop) : Option (Nat × Vm) :=
  match vm.stack.push value with
  | none => none
  | some stack => some (vm.arrays.length, { vm with
      stack := stack.pop.2
      arrays := vm.arrays ++ [[.smi (packHomeRef home), stack.pop.1]] })

def cannotReturn (closure value : Oop) : Option (Vm × Call) :=
  match vm.stack.pushAll [closure, value], vm.cannotReturnMethod with
  | some stack, some m =>
    match { vm with stack := stack, bci := BCI_RESUME_CANNOT_RETURN }.activateMethod m.val 1 with
    | none => none
    | some vm => some (vm, .cannotReturn)
  | _, _ => none

def cannotReturnCurrentClosure (value : Oop) : Option (Vm × Call) :=
  match vm.currentFrame.receiverSlot vm.stack with
  | none => none
  | some slot =>
    match vm.stack.get slot with
    | .closure c => vm.cannotReturn (.closure c) value
    | _ => none

def park (home : HomeRef) (value : Oop) (originatingClosure : Option Oop) : Vm × Call :=
  ({ vm with nlrState := some ⟨home, value, originatingClosure⟩ }, .escaped)

def continueUnwind (home : HomeRef) (value : Oop) (originatingClosure : Option Oop) : Option (Vm × Call) :=
  if vm.stack.fp = NO_FRAME then some (vm.park home value originatingClosure)
  else if !vm.homeIsLive home then
    match originatingClosure with
    | some (.closure c) => vm.cannotReturn (.closure c) value
    | _ => vm.cannotReturnCurrentClosure value
  else
    match vm.innermostMarkedFrame vm.stack.fp home.fp with
    | none => none
    | some .reachedHome =>
      match vm.popFramesAbove home.fp with
      | none => none
      | some vm => some (vm, .doReturn value)
    | some (.crossedBoundary entryFp) =>
      match (Frame.mk entryFp).method vm.stack with
      | none => none
      | some m =>
        let base := entryFp - m.argc - 1
        some ({ vm with
          stack := (vm.stack.truncate base).deactivate
          history := { vm.history with current := [] } }.park home value originatingClosure)
    | some (.marked mfp handler) =>
      match vm.popFramesAbove mfp with
      | none => none
      | some vm => some (vm, .suspendUnwind mfp handler home value)

def suspendUnwind (mfp handler : Nat) (home : HomeRef) (value : Oop) : Option (Vm × Call) :=
  match vm.allocUnwindToken home value with
  | none => none
  | some (token, vm) =>
    match (Frame.mk mfp).setMarker vm.stack (.array token) .ensure with
    | none => none
    | some stack => { vm with stack := stack, bci := BCI_RESUME_UNWIND }.runHandler handler

def resumeUnwind : Option (Vm × Call) :=
  let stack := vm.stack.truncate (vm.stack.sp - 1)
  let frame := vm.currentFrame
  match vm.markerClass frame with
  | some (.token t) =>
    match vm.arrays[t]? with
    | some [.smi home, value] =>
      some ({ vm with stack := frame.clearMarker stack },
        .continueUnwind (unpackHomeRef home) value none)
    | _ => none
  | _ => none

def call : Call → Option (Vm × Call)
  | .doReturn result => vm.doReturn result
  | .popAndDeliver result => vm.popAndDeliver result
  | .resumeEnsureRet => vm.resumeEnsureRet
  | .resumeUnwind => vm.resumeUnwind
  | .continueUnwind home value closure => vm.continueUnwind home value closure
  | .suspendUnwind mfp handler home value => vm.suspendUnwind mfp handler home value
  | _ => none

end Vm

end WinArmVm.Process
