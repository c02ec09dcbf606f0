import WinArmVm.Compile

namespace WinArmVm

inductive EnterResult
  | completed
  | nlr
  | bailout
deriving DecidableEq, Repr

/-- What one send meets outside the dispatch code: whether compiling is on, the
compiler's answers, and how compiled code entered from here comes back. -/
structure JitOracle where
  enabled : Bool
  recompiled : CompileOutcome
  compiled : CompileOutcome
  fastEntry : EnterResult
  entry : EnterResult

def JitOracle.off : JitOracle := ⟨false, .retryLater, .retryLater, .completed, .completed⟩

/-- The code a send hands control to. -/
inductive Activation
  | interpreted (m : MethodOop)
  | compiled (id : NmethodId)
deriving DecidableEq, Repr

inductive SendOutcome
  | activated (a : Activation)
  | notUnderstood (handler : Option Activation)
deriving DecidableEq, Repr

namespace VmState

/-- `L(k)`. `none` is the panic of a super send from a method with no holder. -/
def resolve (vm : VmState) (caller : MethodOop) (selector : SymbolOop) (isSuper : Bool)
    (rcvrKlass : KlassOop) : Option (Option MethodOop × VmState) :=
  if isSuper then
    match vm.holder caller with
    | none => none
    | some holder =>
      match vm.image.klasses.parent holder with
      | none => some (none, vm)
      | some superKlass => some (vm.lookup superKlass selector)
  else some (vm.lookup rcvrKlass selector)

def reverifyArms (vm : VmState) (caller : MethodOop) (selector : SymbolOop) (isSuper : Bool) :
    (arms : List PolyArm) → Option ({ kept : List PolyArm // kept.length ≤ arms.length } × VmState)
  | [] => some (⟨[], le_rfl⟩, vm)
  | arm :: rest => do
    let (found, vm) ← vm.resolve caller selector isSuper arm.klass
    let (kept, vm) ← reverifyArms vm caller selector isSuper rest
    match found with
    | some m => pure (⟨{ arm with method := m } :: kept.1, Nat.succ_le_succ kept.2⟩, vm)
    | none => pure (⟨kept.1, Nat.le_succ_of_le kept.2⟩, vm)

/-- Row 8: every pair is resolved again, and the failing ones are dropped. -/
def reverifyPoly (vm : VmState) (caller : MethodOop) (selector : SymbolOop) (isSuper : Bool)
    (pairs : PolyPairs) : Option (PolyPairs × VmState) := do
  let (kept, vm) ← vm.reverifyArms caller selector isSuper pairs.arms
  pure (⟨kept.1, kept.2.trans pairs.arms_le⟩, vm)

def fillEmpty (vm : VmState) (caller : MethodOop) (icIdx : Nat) (k : KlassOop) (isSuper : Bool) :
    Option (Option MethodOop × VmState) := do
  let ic := vm.ics caller icIdx
  let (found, vm) ← vm.resolve caller ic.selector isSuper k
  match found with
  | some m => pure (some m, vm.setIc caller icIdx (ic.setMono k m vm.icEpoch))
  | none => pure (none, vm)

def refreshMono (vm : VmState) (caller : MethodOop) (icIdx : Nat) (k : KlassOop) (isSuper : Bool) :
    Option (Option MethodOop × VmState) := do
  let ic := vm.ics caller icIdx
  let (found, vm) ← vm.resolve caller ic.selector isSuper k
  match found with
  | some m => pure (some m, vm.setIc caller icIdx (ic.setMono k m vm.icEpoch))
  | none => pure (none, vm.setIc caller icIdx ic.setEmpty)

/-- The method a mono site is demoted with: its own target, or for a compiled
target the method the klass resolves to. -/
def demoted (vm : VmState) (caller : MethodOop) (selector : SymbolOop) (isSuper : Bool)
    (k0 : KlassOop) : Option MethodOop → Option (MethodOop × VmState)
  | some m0 => some (m0, vm)
  | none => do
    let (found, vm) ← vm.resolve caller selector isSuper k0
    let m0 ← found
    pure (m0, vm)

def splitMono (vm : VmState) (caller : MethodOop) (icIdx : Nat) (k : KlassOop) (isSuper : Bool)
    (k0 : KlassOop) (target : Option MethodOop) : Option (Option MethodOop × VmState) := do
  let ic := vm.ics caller icIdx
  let (found, vm) ← vm.resolve caller ic.selector isSuper k
  match found with
  | some m =>
    let (m0, vm) ← vm.demoted caller ic.selector isSuper k0 target
    pure (some m, vm.setIc caller icIdx (ic.setPoly (.pair k0 m0 k m) vm.icEpoch))
  | none => pure (none, vm)

def dispatchPoly (vm : VmState) (caller : MethodOop) (icIdx : Nat) (k : KlassOop) (isSuper : Bool)
    (pairs : PolyPairs) : Option (Option MethodOop × VmState) :=
  let ic := vm.ics caller icIdx
  match pairs.hit k with
  | some arm =>
    some (some arm.method, vm.setIc caller icIdx { ic with shape := .poly (pairs.bump k) })
  | none => do
    let (found, vm) ← vm.resolve caller ic.selector isSuper k
    match found with
    | some m =>
      if h : pairs.arms.length < icPolyMaxPairs then
        pure (some m, vm.setIc caller icIdx (ic.setPoly (pairs.append h k m) vm.icEpoch))
      else pure (some m, vm.setIc caller icIdx ic.setMega)
    | none => pure (none, vm)

def transitPoly (vm : VmState) (caller : MethodOop) (icIdx : Nat) (k : KlassOop) (isSuper : Bool)
    (pairs : PolyPairs) : Option (Option MethodOop × VmState) :=
  let ic := vm.ics caller icIdx
  if ic.epoch = vm.icEpoch then vm.dispatchPoly caller icIdx k isSuper pairs
  else do
    let (pairs, vm) ← vm.reverifyPoly caller ic.selector isSuper pairs
    if pairs.arms = [] then (vm.setIc caller icIdx ic.setEmpty).fillEmpty caller icIdx k isSuper
    else
      (vm.setIc caller icIdx (ic.setPoly pairs vm.icEpoch)).dispatchPoly caller icIdx k isSuper pairs

def icTransition (vm : VmState) (caller : MethodOop) (icIdx : Nat) (rcvrKlass : KlassOop)
    (isSuper : Bool) : Option (Option MethodOop × VmState) :=
  match (vm.ics caller icIdx).shape with
  | .empty => vm.fillEmpty caller icIdx rcvrKlass isSuper
  | .mono k0 m0 =>
    if k0 = rcvrKlass then vm.refreshMono caller icIdx k0 isSuper
    else vm.splitMono caller icIdx rcvrKlass isSuper k0 (some m0)
  | .monoCompiled k0 _ =>
    if k0 = rcvrKlass then vm.refreshMono caller icIdx k0 isSuper
    else vm.splitMono caller icIdx rcvrKlass isSuper k0 none
  | .poly pairs => vm.transitPoly caller icIdx rcvrKlass isSuper pairs
  | .mega => vm.resolve caller (vm.ics caller icIdx).selector isSuper rcvrKlass

def existingNmethod (vm : VmState) (k : KlassOop) (sel : SymbolOop) : Option (NmethodId × Nmethod) := do
  let id ← vm.codeTable.lookup k sel
  let nm ← vm.codeTable.get id
  if nm.state = .alive then pure (id, nm) else none

/-- The nmethod a hot activation goes to: the existing one, a warm replacement
of a half-warm OSR nmethod, or a fresh compile. -/
def obtainCompiled (vm : VmState) (k : KlassOop) (m : MethodOop) (jit : JitOracle) : Option NmethodId × VmState :=
  match vm.existingNmethod k (vm.image.selector m) with
  | some (id, nm) =>
    if nm.halfWarmOsr then
      match vm.compileMethodVersioned k m (nm.version + 1) jit.recompiled with
      | (some newId, vm) => (some newId, vm.retire id)
      | (none, vm) => (some id, vm)
    else (some id, vm)
  | none => vm.compileMethod k m jit.compiled

def seedOk (ic : InterpreterIc) (k : KlassOop) : Bool :=
  match ic.icState with
  | .empty => true
  | .mono => ic.guard = some k
  | .poly _ => false
  | .mega => false

def seedIc (vm : VmState) (k : KlassOop) (id : NmethodId) : Option (MethodOop × Nat) → VmState
  | none => vm
  | some (caller, icIdx) =>
    if seedOk (vm.ics caller icIdx) k then
      vm.setIc caller icIdx ((vm.ics caller icIdx).setMonoCompiled k id vm.icEpoch)
    else vm

def jitTriggered (vm : VmState) (m : MethodOop) (bumped : Nat) (jit : JitOracle) : Bool :=
  match vm.jitThreshold with
  | none => false
  | some n => n ≤ bumped && !vm.compileDisabled m && jit.enabled

/-- `k` is the klass of the receiver on the stack. A primitive of `m` and its
bytecode body are one activation of `m` here. -/
def activateMethod (vm : VmState) (m : MethodOop) (k : KlassOop)
    (icSite : Option (MethodOop × Nat)) (jit : JitOracle) : Activation × VmState :=
  let (bumped, vm) := vm.bumpInvocation m
  if vm.jitTriggered m bumped jit then
    let (truth, vm) := vm.lookup k (vm.image.selector m)
    if truth = some m then
      match vm.obtainCompiled k m jit with
      | (some id, vm) =>
        (if jit.entry = .bailout then .interpreted m else .compiled id, vm.seedIc k id icSite)
      | (none, vm) => (.interpreted m, vm)
    else (.interpreted m, vm)
  else (.interpreted m, vm)

def dnu (vm : VmState) (k : KlassOop) (jit : JitOracle) : SendOutcome × VmState :=
  match vm.lookup k vm.image.selDoesNotUnderstand with
  | (some handler, vm) =>
    let (a, vm) := vm.activateMethod handler k none jit
    (.notUnderstood (some a), vm)
  | (none, vm) => (.notUnderstood none, vm)

/-- A stale id can never dispatch: the record must still be the site's key. -/
def validTarget (vm : VmState) (ic : InterpreterIc) (k : KlassOop) (id : NmethodId) : Bool :=
  (vm.codeTable.get id).any fun nm =>
    nm.state = .alive && nm.keyKlass = k && nm.keySelector = ic.selector

def sendSlow (vm : VmState) (caller : MethodOop) (icIdx : Nat) (k : KlassOop) (isSuper : Bool)
    (jit : JitOracle) : Option (SendOutcome × VmState) := do
  let (found, vm) ← vm.icTransition caller icIdx k isSuper
  match found with
  | some m =>
    let (a, vm) := vm.activateMethod m k (some (caller, icIdx)) jit
    pure (.activated a, vm)
  | none => pure (vm.dnu k jit)

def sendGeneric (vm : VmState) (caller : MethodOop) (icIdx : Nat) (k : KlassOop) (isSuper : Bool)
    (jit : JitOracle) : Option (SendOutcome × VmState) :=
  let ic := vm.ics caller icIdx
  if ic.guard = some k ∧ ic.epoch = vm.icEpoch then
    match ic.shape with
    | .monoCompiled k0 id =>
      if vm.validTarget ic k0 id then
        if jit.fastEntry = .bailout then do
          let (found, vm) := vm.lookup k ic.selector
          let m ← found
          let (a, vm) := vm.activateMethod m k none jit
          pure (.activated a, vm)
        else some (.activated (.compiled id), vm)
      else vm.sendSlow caller icIdx k isSuper jit
    | .mono _ m =>
      let (a, vm) := vm.activateMethod m k (some (caller, icIdx)) jit
      some (.activated a, vm)
    | _ => vm.sendSlow caller icIdx k isSuper jit
  else vm.sendSlow caller icIdx k isSuper jit

end VmState

end WinArmVm
