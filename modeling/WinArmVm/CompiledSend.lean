import WinArmVm.SendGeneric

namespace WinArmVm

/-- A receiver in `x0`; for a closure, with the CompiledBlock it closes over. -/
structure Receiver where
  klass : KlassOop
  block : Option MethodOop
deriving DecidableEq, Repr

/-- What a compiled send ends up running. `valueBlock` enters the receiver's own
compiled block, which is what a `value` primitive of that arity does. -/
inductive Ran
  | method (m : MethodOop)
  | valueBlock (argc : Nat)
  | notUnderstood
deriving DecidableEq, Repr

/-- Where a jump lands: the body of a live nmethod, the interpreter behind a c2i
adapter, a block-dispatch stub, `stub_resolve`, or a megamorphic trampoline. -/
inductive Landing
  | code (m : MethodOop)
  | interpret (baked : MethodOop)
  | value (argc : Nat)
  | resolve
  | mega
deriving DecidableEq, Repr

namespace VmState

def siteAt (vm : VmState) (caller : NmethodId) (idx : Nat) : Option IcSite :=
  (vm.codeTable.get caller).bind fun nm => nm.icSites[idx]?

def setSite (vm : VmState) (caller : NmethodId) (idx : Nat) (state : CompiledIcState) : VmState :=
  { vm with codeTable := vm.codeTable.modify caller fun nm =>
      { nm with icSites := nm.icSites.modify idx fun site => { site with state := state } } }

/-- Both entries of a retired nmethod branch to `not_entrant_stub`, which resolves
the send again. `none` is a jump into freed code. -/
def landTarget (vm : VmState) (k : KlassOop) : CodeTarget → Option Landing
  | .resolve => some .resolve
  | .entry id => (vm.codeTable.get id).map fun nm =>
      if nm.state = .alive ∧ nm.keyKlass = k then .code nm.method else .resolve
  | .verifiedEntry id => (vm.codeTable.get id).map fun nm =>
      if nm.state = .alive then .code nm.method else .resolve
  | .c2i m => some (.interpret m)
  | .valueDispatch argc => some (.value argc)

/-- A PIC compares its klasses in order and falls through to `stub_resolve`. -/
def landSite (vm : VmState) (site : IcSite) (k : KlassOop) : Option Landing :=
  match site.state with
  | .unresolved => some .resolve
  | .mono _ target => vm.landTarget k target
  | .pic pairs =>
    match pairs.find? fun p => p.1 = k with
    | some p => vm.landTarget k p.2
    | none => some .resolve
  | .mega => some .mega

/-- The site's next state, and where this dispatch goes. With a full code cache a
poly arm leaves the site as it was. `none` is one of the two panics. -/
def relink (vm : VmState) (caller : NmethodId) (idx : Nat) (site : IcSite) (k : KlassOop)
    (m : MethodOop) (cacheFull : Bool) : Option (CodeTarget × VmState) :=
  match site.state with
  | .unresolved =>
    let t := vm.resolveTargetEntry k site.selector m false
    some (t, vm.setSite caller idx (.mono k t))
  | .mono oldK _ =>
    if oldK = k then
      let t := vm.resolveTargetEntry k site.selector m false
      some (t, vm.setSite caller idx (.mono k t))
    else
      match vm.lookup oldK site.selector with
      | (none, _) => none
      | (some oldM, vm) =>
        let oldT := vm.resolveTargetEntry oldK site.selector oldM true
        let newT := vm.resolveTargetEntry k site.selector m true
        some (newT,
          if cacheFull then vm else vm.setSite caller idx (.pic [(oldK, oldT), (k, newT)]))
  | .pic pairs =>
    let newT := vm.resolveTargetEntry k site.selector m true
    let next :=
      if pairs.any (fun p => p.1 = k) then .pic (rekeyPairs k newT pairs)
      else if pairs.length < picMaxEntries then .pic (pairs ++ [(k, newT)])
      else .mega
    some (newT, if cacheFull then vm else vm.setSite caller idx next)
  | .mega => none

/-- The inner `none` is the doesNotUnderstand: stub, with the site left as it was. -/
def rtResolveSend (vm : VmState) (caller : NmethodId) (idx : Nat) (k : KlassOop)
    (cacheFull : Bool) : Option (Option CodeTarget × VmState) := do
  let site ← vm.siteAt caller idx
  match site.superKlass with
  | some superKlass =>
    match vm.lookup superKlass site.selector with
    | (none, vm) => pure (none, vm)
    | (some m, vm) =>
      let target := vm.resolveSuperTargetEntry superKlass site.selector m
      pure (some target, vm.setSite caller idx (.mono superKlass target))
  | none =>
    match vm.lookup k site.selector with
    | (none, vm) => pure (none, vm)
    | (some m, vm) => do
      let (target, vm) ← vm.relink caller idx site k m cacheFull
      pure (some target, vm)

/-- A megamorphic site looks up every time, and never patches anything. -/
def rtMegaLookup (vm : VmState) (k : KlassOop) (selector : SymbolOop) : Option CodeTarget × VmState :=
  match vm.lookup k selector with
  | (none, vm) => (none, vm)
  | (some m, vm) => (some (vm.resolveTargetEntry k selector m true), vm)

/-- The method a c2i adapter runs: an adapter has no klass guard, so its baked
method is a hint only. -/
def rtInterpretCall (vm : VmState) (site : IcSite) (k : KlassOop) (baked : MethodOop) : Ran × VmState :=
  match vm.lookup k (vm.image.selector baked) with
  | (lookedUp, vm) =>
    if lookedUp = some baked then (.method baked, vm)
    else
      match site.superKlass with
      | some superKlass =>
        match vm.lookup superKlass (vm.image.selector baked) with
        | (found, vm) => (.method (found.getD baked), vm)
      | none => (.method (lookedUp.getD baked), vm)

def rtValueTarget (vm : VmState) (rcvr : Receiver) (argc : Nat) : Option NmethodId := do
  let blk ← rcvr.block
  if vm.image.argc blk = argc then vm.codeTable.lookupBlock blk else none

/-- The stub's fallback sends the `value` selector of its arity afresh. -/
def valueDispatch (vm : VmState) (rcvr : Receiver) (argc : Nat) : Ran × VmState :=
  match vm.rtValueTarget rcvr argc with
  | some _ => (.valueBlock argc, vm)
  | none =>
    match vm.lookup rcvr.klass (vm.image.valueSelector argc) with
    | (some m, vm) => (.method m, vm)
    | (none, vm) => (.notUnderstood, vm)

def arrive (caller : NmethodId) (idx : Nat) (rcvr : Receiver) (cacheFull : Bool) :
    Nat → VmState → Landing → Option (Ran × VmState)
  | 0, _, _ => none
  | fuel + 1, vm, landing =>
    match landing with
    | .code m => some (.method m, vm)
    | .interpret baked => do
      let site ← vm.siteAt caller idx
      pure (vm.rtInterpretCall site rcvr.klass baked)
    | .value argc => some (vm.valueDispatch rcvr argc)
    | .mega => do
      let site ← vm.siteAt caller idx
      match vm.rtMegaLookup rcvr.klass site.selector with
      | (none, vm) => pure (.notUnderstood, vm)
      | (some target, vm) => do
        let landing ← vm.landTarget rcvr.klass target
        arrive caller idx rcvr cacheFull fuel vm landing
    | .resolve => do
      let (target, vm) ← vm.rtResolveSend caller idx rcvr.klass cacheFull
      match target with
      | none => pure (.notUnderstood, vm)
      | some target => do
        let landing ← vm.landTarget rcvr.klass target
        arrive caller idx rcvr cacheFull fuel vm landing

/-- One send through site `idx` of the nmethod `caller`. -/
def compiledSend (vm : VmState) (caller : NmethodId) (idx : Nat) (rcvr : Receiver)
    (cacheFull : Bool) (fuel : Nat) : Option (Ran × VmState) := do
  let site ← vm.siteAt caller idx
  let landing ← vm.landSite site rcvr.klass
  arrive caller idx rcvr cacheFull fuel vm landing

/-- Re-point the site a c2i call returned to at the compiled callee. The site is
found by return address, so it may belong to a later occupant of that address. -/
def repointSite (vm : VmState) (caller : NmethodId) (idx : Nat) (k : KlassOop) (m : MethodOop)
    (id : NmethodId) (cacheFull : Bool) : VmState :=
  match vm.siteAt caller idx with
  | none => vm
  | some site =>
    if site.superKlass = none ∧ site.selector = vm.image.selector m then
      match site.state with
      | .mono oldK _ => if oldK = k then vm.setSite caller idx (.mono k (.entry id)) else vm
      | .pic pairs =>
        match pairs.find? fun p => p.1 = k with
        | none => vm
        | some p =>
          let newT := vm.resolveTargetEntry k (vm.image.selector m) m true
          if p.2 = newT ∨ cacheFull = true then vm
          else vm.setSite caller idx (.pic (rekeyPairs k newT pairs))
      | _ => vm
    else vm

def c2iHatch (vm : VmState) (caller : NmethodId) (idx : Nat) (k : KlassOop) (m : MethodOop)
    (jit : JitOracle) (cacheFull : Bool) : VmState :=
  match vm.jitThreshold with
  | none => vm
  | some n =>
    let (bumped, vm) := vm.bumpInvocation m
    if n ≤ bumped ∧ vm.compileDisabled m = false then
      match vm.lookup k (vm.image.selector m) with
      | (truth, vm) =>
        if truth = some m then
          match vm.obtainCompiled k m jit with
          | (some id, vm) => vm.repointSite caller idx k m id cacheFull
          | (none, vm) => vm
        else vm
    else vm

end VmState

end WinArmVm
