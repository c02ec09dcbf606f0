import WinArmVm.VmState

namespace WinArmVm

/-- A send the compiler leaves as a call. `staticKlass` is the holder's superclass
of a super send; `provenSelf` marks a receiver that is provably `self`, which a
method's code takes to be of its own key klass. -/
structure CallSite where
  selector : SymbolOop
  argc : Nat
  staticKlass : Option KlassOop
  provenSelf : Bool

/-- What the optimizing compiler decides about one method; its code generation is
a parameter. `cacheFull` is a code cache with no room for the blob. -/
structure Emitted where
  halfWarmOsr : Bool
  selfDevirt : Bool
  inlineDeps : List (KlassOop × SymbolOop)
  callSites : List CallSite
  cacheFull : Bool

inductive CompileOutcome
  | emitted (code : Emitted)
  | ineligible
  | retryLater

/-- The klass a proven-self send is resolved for. `self` in a block's code is the
home receiver, of no known klass. -/
def CallSite.selfKlass (s : CallSite) (image : Image) (k : KlassOop) (m : MethodOop) : Option KlassOop :=
  if s.provenSelf && !image.isBlock m then some k else none

def countersInvocationMax : Nat := 0xFFFF

namespace VmState

/-- The target a send of `selector` to a `k` receiver links to. An nmethod's full
entry guards the receiver's klass, its verified entry does not. -/
def resolveTargetEntry (vm : VmState) (k : KlassOop) (selector : SymbolOop) (method : MethodOop)
    (useVerified : Bool) : CodeTarget :=
  match vm.image.valueArgc method with
  | some argc => .valueDispatch argc
  | none =>
    match vm.codeTable.lookup k selector with
    | some id =>
      if (vm.codeTable.get id).any (fun nm => !nm.halfWarmOsr) then
        if useVerified then .verifiedEntry id else .entry id
      else .c2i method
    | none => .c2i method

/-- A super site never enters code devirtualized against its key klass. -/
def resolveSuperTargetEntry (vm : VmState) (superKlass : KlassOop) (selector : SymbolOop)
    (method : MethodOop) : CodeTarget :=
  if ((vm.codeTable.lookup superKlass selector).bind vm.codeTable.get).any Nmethod.selfDevirt then
    .c2i method
  else vm.resolveTargetEntry superKlass selector method true

/-- Every super site is resolved before anything is published; one that finds no
method fails the compile. -/
def resolveSuperSites (vm : VmState) :
    List CallSite → Option (List (CallSite × Option (KlassOop × CodeTarget))) × VmState
  | [] => (some [], vm)
  | s :: rest =>
    match s.staticKlass with
    | none =>
      let (sites, vm) := resolveSuperSites vm rest
      (sites.map fun sites => (s, none) :: sites, vm)
    | some superKlass =>
      match vm.lookup superKlass s.selector with
      | (none, vm) => (none, vm)
      | (some m, vm) =>
        let target := vm.resolveSuperTargetEntry superKlass s.selector m
        let (sites, vm) := resolveSuperSites vm rest
        (sites.map fun sites => (s, some (superKlass, target)) :: sites, vm)

/-- The direct link of a proven-self send: the callee's verified entry, when the
callee is the nmethod being installed or is compiled already. -/
def f1Resolution (vm : VmState) (self : NmethodId) (k : KlassOop) (m : MethodOop) (s : CallSite) :
    Option (KlassOop × CodeTarget) × VmState :=
  match s.staticKlass, s.selfKlass vm.image k m with
  | none, some k =>
    match vm.lookup k s.selector with
    | (some callee, vm) =>
      if callee = m then (some (k, .verifiedEntry self), vm)
      else ((vm.codeTable.lookup k s.selector).map fun id => (k, .verifiedEntry id), vm)
    | (none, vm) => (none, vm)
  | _, _ => (none, vm)

def bornSite (s : CallSite) (resolved f1 : Option (KlassOop × CodeTarget)) : IcSite where
  selector := s.selector
  argc := s.argc
  state :=
    match resolved.or f1 with
    | some (k, target) => .mono k target
    | none => .unresolved
  superKlass := resolved.map Prod.fst

def linkSites (vm : VmState) (self : NmethodId) (k : KlassOop) (m : MethodOop) :
    List (CallSite × Option (KlassOop × CodeTarget)) → List IcSite × List (KlassOop × SymbolOop) × VmState
  | [] => ([], [], vm)
  | (s, resolved) :: rest =>
    let (f1, vm) := vm.f1Resolution self k m s
    let (sites, deps, vm) := linkSites vm self k m rest
    let dep := (f1.map fun link => (link.1, s.selector)).toList
    (bornSite s resolved f1 :: sites, dep ++ deps, vm)

def saturateInvocation (vm : VmState) (m : MethodOop) : VmState :=
  match vm.jitThreshold with
  | none => vm
  | some n =>
    { vm with invocations :=
        Function.update vm.invocations m (max (vm.invocations m) (min n countersInvocationMax)) }

def pushDep (deps : List (KlassOop × SymbolOop)) (dep : KlassOop × SymbolOop) : List (KlassOop × SymbolOop) :=
  if dep ∈ deps then deps else deps ++ [dep]

/-- The record of a compile of `m` customized for `k`. The code owns the key
only when dynamic lookup of the key gives `m`. -/
def nmethodFor (vm : VmState) (k : KlassOop) (m : MethodOop) (version : Nat) (code : Emitted)
    (sites : List IcSite) (deps : List (KlassOop × SymbolOop)) : Nmethod where
  keyKlass := k
  keySelector := vm.image.selector m
  ownsDynamicKey := vm.image.isBlock m || vm.lookupUncached k (vm.image.selector m) = some m
  blockMethod := if vm.image.isBlock m then some m else none
  method := m
  state := .alive
  version := version
  halfWarmOsr := code.halfWarmOsr
  selfDevirt := code.selfDevirt
  inlineDeps := deps.foldl pushDep code.inlineDeps
  icSites := sites

def disableCompile (vm : VmState) (m : MethodOop) : VmState :=
  { vm with compileDisabled := Function.update vm.compileDisabled m true }

/-- Install the code of `m`, its sites linked. -/
def installCode (vm : VmState) (k : KlassOop) (m : MethodOop) (version : Nat) (code : Emitted)
    (resolved : List (CallSite × Option (KlassOop × CodeTarget))) : NmethodId × VmState :=
  let (sites, deps, vm) := vm.linkSites vm.codeTable.freeSlot k m resolved
  let (id, table) := vm.codeTable.install (vm.nmethodFor k m version code sites deps)
  (id, { vm with codeTable := table }.saturateInvocation m)

/-- A method with a `value` primitive is never eligible: those activate a frame. -/
def compileMethodVersioned (vm : VmState) (k : KlassOop) (m : MethodOop) (version : Nat) :
    CompileOutcome → Option NmethodId × VmState
  | .emitted code =>
    if (vm.image.valueArgc m).isSome then (none, vm.disableCompile m)
    else
      match vm.resolveSuperSites code.callSites with
      | (none, vm) => (none, vm)
      | (some resolved, vm) =>
        if code.cacheFull then (none, { vm with jitThreshold := none })
        else
          let (id, vm) := vm.installCode k m version code resolved
          (some id, vm)
  | .ineligible => (none, vm.disableCompile m)
  | .retryLater => (none, vm)

def compileMethod (vm : VmState) (k : KlassOop) (m : MethodOop) (outcome : CompileOutcome) :
    Option NmethodId × VmState :=
  vm.compileMethodVersioned k m 0 outcome

def bumpInvocation (vm : VmState) (m : MethodOop) : Nat × VmState :=
  let bumped := min (vm.invocations m + 1) countersInvocationMax
  (bumped, { vm with invocations := Function.update vm.invocations m bumped })

def retire (vm : VmState) (id : NmethodId) : VmState := { vm with codeTable := vm.codeTable.setNotEntrant id }

end VmState

end WinArmVm
