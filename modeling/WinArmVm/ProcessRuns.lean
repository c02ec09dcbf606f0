import WinArmVm.Unwind

namespace WinArmVm.Process

/-- What the interpreter, the primitives, the deopt materializer and compiled code do to a
process stack between two calls of the unwind. -/
inductive Action
  | push (v : Oop)
  /-- Operands go: `pop`, `sp -= 1` and `sp = base`. -/
  | truncate (sp : Nat)
  | setOperand (i : Nat) (v : Oop)
  | setTemp (t : Nat) (v : Oop)
  | setContext (v : Oop)
  | setReceiver (v : Oop)
  | send (m : CompiledMethod) (savedBci : Nat)
  /-- `value` and its family, and the blocks that run from a fresh entry. -/
  | value (c savedBci : Nat)
  | ensureLike (kind : MarkerKind) (savedBci : Nat)
  | pushClosure (blk : CompiledMethod) (nValueCaptures : Nat)
  | doReturn (result : Oop)
  | nlrTos (value : Oop)
  /-- A nested run begins: `save_activation`, and no frame is its caller. -/
  | enter
  | activateEntry (m : CompiledMethod)
  | leave
  /-- The loop goes on in compiled code, without the frame. -/
  | osr
  /-- A block's compiled code parks its return; `resume` takes it up below that code. -/
  | originate (c : Nat) (value : Oop)
  | resume
  /-- An error clears the markers of the frames it curtails, one at a time. -/
  | clearMarker (fp : Nat)
  /-- A fatal error drops every frame. -/
  | restoreBaseline (sp : Nat)
  | tick
deriving DecidableEq

structure Machine where
  vm : Vm
  call : Call

namespace Vm

variable (vm : Vm)

def floor : Nat :=
  match vm.history.live with
  | [] => 0
  | a :: _ => a.top

def osrPop : Option Vm :=
  let frame := vm.currentFrame
  match frame.method vm.stack, frame.savedFp vm.stack, frame.savedBci vm.stack with
  | some m, some savedFp, some savedBci =>
    let stack := vm.stack.truncate (vm.stack.fp - m.argc - 1)
    let history := vm.history.closed
    if savedFp = ENTRY_FRAME_SENTINEL then
      some { vm with stack := stack.deactivate, history := history }
    else
      let vm := { vm with stack := stack.activateFrame savedFp.toNat, history := history }
      (vm.currentFrame.method vm.stack).map fun m => { vm with method := some m, bci := savedBci }
  | _, _, _ => none

def enter : Vm :=
  { vm with
    stack := { vm.stack with fp := NO_FRAME }
    suspended := vm.stack.saveActivation :: vm.suspended
    history := { vm.history with
      current := []
      outer := vm.history.current :: vm.history.outer } }

def leave : Option Vm :=
  match vm.suspended, vm.history.outer with
  | saved :: suspended, seg :: outer => some { vm with
      stack := vm.stack.restoreActivation saved
      suspended := suspended
      history := { vm.history with current := seg, outer := outer } }
  | _, _ => none

def restoreBaseline (sp : Nat) : Vm :=
  { vm with
    stack := { vm.stack with sp := sp, fp := 0, hasFrame := false }
    nlrState := none
    suspended := []
    history := { vm.history with current := [], outer := [] } }

def currentClosure : Option Nat :=
  match vm.currentFrame.receiverSlot vm.stack with
  | none => none
  | some slot =>
    match vm.stack.get slot with
    | .closure c => some c
    | _ => none

/-- An action of the dispatch loop or of what it runs; `none` is an exit of the process, or an
action that the code does not take there. -/
def act : Action → Option (Vm × Call)
  | .push v => (vm.stack.push v).map fun stack => ({ vm with stack := stack }, .dispatch)
  | .truncate sp =>
    if vm.floor ≤ sp ∧ sp ≤ vm.stack.sp then
      some ({ vm with stack := vm.stack.truncate sp }, .dispatch)
    else none
  | .setOperand i v =>
    if vm.floor ≤ i ∧ i < vm.stack.sp then
      some ({ vm with stack := vm.stack.set i v }, .dispatch)
    else none
  | .setTemp t v =>
    match vm.history.current with
    | [] => none
    | a :: _ =>
      if t < a.method.argc + a.method.ntemps then
        (vm.currentFrame.setTemp vm.stack t v).map
          fun stack => ({ vm with stack := stack }, .dispatch)
      else none
  | .setContext v =>
    if vm.history.current = [] then none
    else some ({ vm with stack := vm.currentFrame.setContext vm.stack v }, .dispatch)
  | .setReceiver v =>
    if vm.history.current = [] then none
    else some ({ vm with stack := vm.stack.set (vm.stack.fp + FRAME_RECEIVER) v }, .dispatch)
  | .send m savedBci =>
    if vm.history.current ≠ [] ∧ vm.floor + m.argc + 1 ≤ vm.stack.sp ∧ savedBci < BCI_SENTINEL_BASE then
      ({ vm with bci := savedBci }.activateMethod m m.argc).map fun vm => (vm, .dispatch)
    else none
  | .value c savedBci =>
    match vm.closures[c]? with
    | none => none
    | some closure =>
      let argc := closure.method.argc
      if vm.floor + argc + 1 ≤ vm.stack.sp ∧ vm.stack.get (vm.stack.sp - argc - 1) = .closure c ∧
          savedBci < BCI_SENTINEL_BASE ∧
          (vm.history.current ≠ [] ∨ vm.stack.fp = NO_FRAME) then
        ({ vm with bci := savedBci }.activateBlockInterp c argc).map
          fun (r : PrimResult × Vm) => (r.2, .dispatch)
      else none
  | .ensureLike kind savedBci =>
    if vm.floor + 2 ≤ vm.stack.sp ∧ savedBci < BCI_SENTINEL_BASE ∧
        (vm.history.current ≠ [] ∨ vm.stack.fp = NO_FRAME) then
      ({ vm with bci := savedBci }.primEnsureLike kind).map
        fun (r : PrimResult × Vm) => (r.2, .dispatch)
    else none
  | .pushClosure blk n =>
    if vm.history.current ≠ [] ∧ vm.floor + n ≤ vm.stack.sp ∧ blk.isBlock ∧ n ≤ blk.ntemps then
      match vm.makeClosure blk n with
      | none => none
      | some (c, vm) =>
        (vm.stack.push (.closure c)).map fun stack => ({ vm with stack := stack }, .dispatch)
    else none
  | .doReturn result =>
    if vm.history.current = [] then none else some (vm, .doReturn result)
  | .nlrTos value =>
    if vm.history.current = [] then none
    else
      match vm.currentClosure with
      | none => none
      | some c =>
        vm.closures[c]?.map fun closure =>
          (vm, .continueUnwind (unpackHomeRef closure.home) value (some (.closure c)))
  | .enter => some (vm.enter, .dispatch)
  | .activateEntry m =>
    if vm.history.current = [] ∧ vm.floor + m.argc + 1 ≤ vm.stack.sp then
      (vm.activateEntry m m.argc).map fun vm => (vm, .dispatch)
    else none
  | .leave => if vm.history.current = [] then vm.leave.map fun vm => (vm, .dispatch) else none
  | .osr =>
    if vm.history.current = [] then none else vm.osrPop.map fun vm => (vm, .dispatch)
  | .originate c value =>
    match vm.closures[c]?, vm.nlrState with
    | some closure, none => some ({ vm with
        nlrState := some ⟨unpackHomeRef closure.home, value, some (.closure c)⟩ }, .dispatch)
    | _, _ => none
  | .resume =>
    match vm.nlrState with
    | none => none
    | some st =>
      if vm.history.current ≠ [] ∨ vm.stack.fp = NO_FRAME then
        some ({ vm with nlrState := none }, .continueUnwind st.home st.value st.closure)
      else none
  | .clearMarker fp =>
    if fp ∈ vm.history.current.map Activation.fp then
      some ({ vm with stack := (Frame.mk fp).clearMarker vm.stack }, .dispatch)
    else none
  | .restoreBaseline sp =>
    if sp ≤ vm.stack.sp ∧ ∀ a ∈ vm.history.live, sp ≤ a.base then
      some (vm.restoreBaseline sp, .dispatch)
    else none
  | .tick => none

end Vm

namespace Machine

/-- A process before its first run; `m` is the method of `#cannotReturn:`, if there is one. -/
def start (m : Option { m : CompiledMethod // m.argc = 1 }) : Machine where
  vm := {
    stack := .empty
    method := none
    bci := 0
    nextFrameSerial := 0
    closures := []
    arrays := []
    nextObject := 0
    nlrState := none
    suspended := []
    cannotReturnMethod := m
    history := ⟨0, [], [], []⟩ }
  call := .dispatch

/-- A call goes on until the dispatch loop has control. After the entry frame has returned, or a
return has escaped, only the nested run's end is left. -/
def step (m : Machine) (a : Action) : Option Machine :=
  match m.call with
  | .dispatch | .ranHandler _ | .cannotReturn => (m.vm.act a).map fun r => ⟨r.1, r.2⟩
  | .entryReturned _ | .escaped =>
    if a = .leave then (m.vm.act a).map fun r => ⟨r.1, r.2⟩ else none
  | call => if a = .tick then (m.vm.call call).map fun r => ⟨r.1, r.2⟩ else none

def run (m : Machine) : List Action → Option Machine
  | [] => some m
  | a :: as =>
    match m.step a with
    | none => none
    | some m' => m'.run as

end Machine

end WinArmVm.Process
