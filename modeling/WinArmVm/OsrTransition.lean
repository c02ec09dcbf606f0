import WinArmVm.UnwindSteps
import Mathlib.Data.List.Nodup

namespace WinArmVm.Process

open List Function

/-- Where a transferred value comes from in the interpreter frame. -/
inductive OsrSource
  | receiver
  | slot (i : Nat)
  | stackSlot (i : Nat)
  | context
deriving DecidableEq

structure OsrSlot where
  src : OsrSource
  dstFrameOff : Int
deriving DecidableEq

structure OsrMap where
  osrBci : Nat
  slots : List OsrSlot
  distinct : (slots.map OsrSlot.dstFrameOff).Nodup

def osrSlots {ν : Type} (sources : List (OsrSource × ν)) (home : ν → Option Int) : List OsrSlot :=
  sources.filterMap fun s => (home s.2).map fun off => ⟨s.1, off⟩

/-- The receiver, the arguments and temps, the operands at the header and the context, each with a
virtual register of its own. -/
def osrSources (m : CompiledMethod) (entryStack : List Nat) (methodCtx : Option Nat) : List (OsrSource × Nat) :=
  (.receiver, 0) :: (List.range (m.argc + m.ntemps)).map (fun i => (.slot i, 1 + i)) ++
    (List.range entryStack.length).zipWith (fun j v => (.stackSlot j, v)) entryStack ++
      (methodCtx.map fun v => (.context, v)).toList

theorem osrSlots_distinct {ν : Type} {sources : List (OsrSource × ν)} {home : ν → Option Int}
    (hv : (sources.map Prod.snd).Nodup) (hhome : ∀ v w off, home v = some off → home w = some off → v = w) :
    ((osrSlots sources home).map OsrSlot.dstFrameOff).Nodup := by
  induction sources with
  | nil => exact nodup_nil
  | cons s sources ih =>
    obtain ⟨hnot, hrest⟩ := nodup_cons.mp hv
    unfold osrSlots at ih ⊢
    rw [filterMap_cons]
    cases hoff : home s.2 with
    | none => exact ih hrest
    | some off =>
      refine nodup_cons.mpr ⟨fun hmem => ?_, ih hrest⟩
      obtain ⟨o, ho, heq⟩ := mem_map.mp hmem
      obtain ⟨s', hs', hmap⟩ := mem_filterMap.mp ho
      obtain ⟨off', hoff', rfl⟩ := Option.map_eq_some_iff.mp hmap
      have hsame : off' = off := heq
      rw [hsame] at hoff'
      exact hnot (mem_map.mpr ⟨s', hs', hhome s'.2 s.2 off hoff' hoff⟩)

structure OsrNmethod where
  alive : Bool
  halfWarm : Bool
  map : OsrMap

inductive Eligibility
  | yes
  | noPermanent
  | noRetryLater
deriving DecidableEq

/-- `TierLink::IntoCompiled`. -/
structure TierLink where
  interpFrame : Nat
  entrySp : Nat
deriving DecidableEq

/-- The VM with the switches, tables and counters that the request reads and writes; `κ` are the
klasses, `ς` the selectors. -/
structure OsrVm (κ ς : Type) where
  vm : Vm
  jitThreshold : Bool
  jitCompileEnabled : Bool
  osrTable : κ → ς → Nat → Option OsrNmethod
  compileDisabled : CompiledMethod → Bool
  loopCounter : CompiledMethod → Nat
  tierLinks : List TierLink
  compiledDepth : Nat
  osrDeclined : Nat
  osrDeclinedElidedCtx : Nat
  osrCtxAdopted : Nat
  osrEntries : Nat

/-- The compiler around its gate, and compiled code. `invoke` runs the code behind the entry block in
a frame with these spill slots; none is an answer with the sentinel of a non-local return. -/
structure OsrWorld (κ ς : Type) where
  klassOf : OsrVm κ ς → Oop → κ
  selector : CompiledMethod → Option ς
  lookup : OsrVm κ ς → κ → ς → Option CompiledMethod
  eligibility : OsrVm κ ς → κ → CompiledMethod → Eligibility
  allElidable : OsrVm κ ς → κ → CompiledMethod → Bool
  build : OsrVm κ ς → κ → CompiledMethod → Nat → Option OsrNmethod × OsrVm κ ς
  invoke : OsrVm κ ς → OsrNmethod → (Int → Oop) → Option (Option Oop × OsrVm κ ς)

inductive OsrOutcome
  | completed (result : Oop) (entryFrame : Bool)
  | nlr (step : Call)
  | declined
deriving DecidableEq

namespace Frame

/-- A source's value in a frame of the method `m`. -/
def osrValue (f : Frame) (st : ProcessStack) (m : CompiledMethod) : OsrSource → Oop
  | .receiver => f.receiver st
  | .slot t => st.get (if t < m.argc then f.fp - m.argc + t else f.fp + FRAME_TEMPS_BASE + (t - m.argc))
  | .stackSlot i => st.get (f.fp + FRAME_TEMPS_BASE + m.ntemps + i)
  | .context => f.context st

end Frame

def osrEntryFrame (slots : List OsrSlot) (buf : List Oop) : Int → Oop :=
  (slots.zip buf).foldl (fun frame c => Function.update frame c.1.dstFrameOff c.2) fun _ => .nil

namespace OsrVm

variable {κ ς : Type} (w : OsrWorld κ ς) (s : OsrVm κ ς)

def resetLoopCounter (m : CompiledMethod) : OsrVm κ ς :=
  { s with loopCounter := fun m' => if m' = m then 0 else s.loopCounter m' }

def decline : OsrVm κ ς := { s with osrDeclined := s.osrDeclined + 1 }

/-- `compile_method_full` for a loop header: no OSR of a method whose context is elided. -/
def compileMethodOsr (k : κ) (m : CompiledMethod) (osrBci : Nat) : Option OsrNmethod × OsrVm κ ς :=
  match w.eligibility s k m with
  | .noPermanent => (none, { s with compileDisabled := fun m' => if m' = m then true else s.compileDisabled m' })
  | .noRetryLater => (none, s)
  | .yes =>
    if m.hasCtx && w.allElidable s k m then (none, { s with osrDeclinedElidedCtx := s.osrDeclinedElidedCtx + 1 })
    else w.build s k m osrBci

def aliveOsr (k : κ) (sel : ς) (osrBci : Nat) : Option OsrNmethod := (s.osrTable k sel osrBci).filter OsrNmethod.alive

def outsideEnvelope (f : Frame) (m : CompiledMethod) (savedBci : Nat) (k : κ) (targetBci : Nat) : Bool :=
  f.marker s.vm.stack ≠ .nil || BCI_RESUME_ENSURE_RET ≤ savedBci ||
    match w.selector m with
    | none => true
    | some sel => w.lookup s k sel ≠ some m || (s.aliveOsr k sel targetBci).any OsrNmethod.halfWarm || s.compileDisabled m

/-- The nmethod to enter; none declines. -/
def findOrCompile (m : CompiledMethod) (k : κ) (targetBci : Nat) : Option OsrNmethod × OsrVm κ ς :=
  match (w.selector m).bind fun sel => s.aliveOsr k sel targetBci with
  | some nm => (some nm, s)
  | none =>
    match s.compileMethodOsr w k m targetBci with
    | (some nm, s) => (some nm, s)
    | (none, s) => (none, s.decline)

def checkContext (f : Frame) (nm : OsrNmethod) : Option OsrNmethod × OsrVm κ ς :=
  if nm.map.slots.any fun o => o.src = .context then
    if f.context s.vm.stack = .nil then (none, s.decline)
    else (some nm, { s with osrCtxAdopted := s.osrCtxAdopted + 1 })
  else (some nm, s)

def offer (f : Frame) (m : CompiledMethod) (savedBci targetBci : Nat) : Option OsrNmethod × OsrVm κ ς :=
  let s := s.resetLoopCounter m
  if !s.jitThreshold || !s.jitCompileEnabled then (none, s)
  else
    let k := w.klassOf s (f.receiver s.vm.stack)
    if s.outsideEnvelope w f m savedBci k targetBci then (none, s.decline)
    else
      match s.findOrCompile w m k targetBci with
      | (some nm, s) => s.checkContext f nm
      | (none, s) => (none, s)

/-- The frame is popped and its caller restored; `none` is a caller without a method. -/
def detach (f : Frame) (m : CompiledMethod) (savedFp : Int) (savedBci : Nat) : Option (OsrVm κ ς) :=
  let stack := s.vm.stack.truncate (f.fp - m.argc - 1)
  if savedFp = ENTRY_FRAME_SENTINEL then
    some { s with vm := { s.vm with stack := stack.deactivate, history := s.vm.history.closed } }
  else
    let stack := stack.activateFrame savedFp.toNat
    match (Frame.mk savedFp.toNat).method stack with
    | none => none
    | some caller => some { s with vm :=
        { s.vm with stack := stack, history := s.vm.history.closed, method := some caller, bci := savedBci } }

def pushLink (savedFp : Int) : OsrVm κ ς :=
  { s with
    tierLinks := ⟨if savedFp = ENTRY_FRAME_SENTINEL then NO_FRAME else savedFp.toNat, s.vm.stack.sp⟩ :: s.tierLinks
    compiledDepth := s.compiledDepth + 1 }

def popLink : OsrVm κ ς :=
  { s with tierLinks := s.tierLinks.tail, compiledDepth := s.compiledDepth - 1, osrEntries := s.osrEntries + 1 }

/-- A non-local return that escaped the compiled code goes on towards its home; `none` is a missing
state or a panic of the unwind. -/
def resumeNlr : Option (OsrOutcome × OsrVm κ ς) :=
  match s.vm.nlrState with
  | none => none
  | some st =>
    match { s.vm with nlrState := none }.continueUnwind st.home st.value st.closure with
    | none => none
    | some (vm, step) => some (.nlr step, { s with vm := vm })

def deliver (savedFp : Int) (result : Oop) : Option (OsrOutcome × OsrVm κ ς) :=
  if savedFp = ENTRY_FRAME_SENTINEL then some (.completed result true, s)
  else
    match s.vm.stack.push result with
    | none => none
    | some stack => some (.completed result false, { s with vm := { s.vm with stack := stack } })

def finish (savedFp : Int) : Option Oop → Option (OsrOutcome × OsrVm κ ς)
  | none => s.resumeNlr
  | some result => s.deliver savedFp result

def enter (f : Frame) (m : CompiledMethod) (savedFp : Int) (savedBci : Nat) (nm : OsrNmethod) :
    Option (OsrOutcome × OsrVm κ ς) :=
  let buf := nm.map.slots.map fun o => f.osrValue s.vm.stack m o.src
  match buf, s.detach f m savedFp savedBci with
  | [], _ => none
  | _, none => none
  | _ :: _, some s =>
    match w.invoke (s.pushLink savedFp) nm (osrEntryFrame nm.map.slots buf) with
    | none => none
    | some (answer, s) => s.popLink.finish savedFp answer

/-- `none` is a panic, an exit, or compiled code that does not end. -/
def rtOsrRequest (fp targetBci : Nat) : Option (OsrOutcome × OsrVm κ ς) :=
  let f := Frame.mk fp
  match f.method s.vm.stack, f.savedFp s.vm.stack, f.savedBci s.vm.stack with
  | some m, some savedFp, some savedBci =>
    match s.offer w f m savedBci targetBci with
    | (none, s) => some (.declined, s)
    | (some nm, s) => s.enter w f m savedFp savedBci nm
  | _, _, _ => none

def BuildKeeps : Prop :=
  ∀ (s : OsrVm κ ς) (k : κ) (m : CompiledMethod) (osrBci : Nat), (w.build s k m osrBci).2.vm = s.vm

/-- The stack up to its top, the frame pointer and the registers, and which frames are live. -/
structure SameInterpreter (vm vm' : Vm) : Prop where
  sp : vm'.stack.sp = vm.stack.sp
  fp : vm'.stack.fp = vm.stack.fp
  hasFrame : vm'.stack.hasFrame = vm.stack.hasFrame
  slots : ∀ i < vm.stack.sp, vm'.stack.slots i = vm.stack.slots i
  method : vm'.method = vm.method
  bci : vm'.bci = vm.bci
  current : vm'.history.current = vm.history.current
  outer : vm'.history.outer = vm.history.outer

/-- Compiled code that returns leaves the interpreter's state below it as it was entered with: the
runs it starts save the activation and the registers and put them back. -/
def InvokeKeeps : Prop := ∀ (s s' : OsrVm κ ς) (nm : OsrNmethod) (frame : Int → Oop) (result : Oop),
    w.invoke s nm frame = some (some result, s') → SameInterpreter s.vm s'.vm

variable {w s} {s' : OsrVm κ ς} {nm : OsrNmethod} {f : Frame} {m : CompiledMethod} {savedFp : Int}
  {savedBci targetBci fp : Nat}

theorem compileMethodOsr_vm (hbuild : BuildKeeps w) (s : OsrVm κ ς) (k : κ) (m : CompiledMethod) (targetBci : Nat) :
    (s.compileMethodOsr w k m targetBci).2.vm = s.vm := by
  unfold compileMethodOsr
  split
  next => rfl
  next => rfl
  next =>
    split
    next => rfl
    next => exact hbuild s k m targetBci

theorem findOrCompile_vm (hbuild : BuildKeeps w) (s : OsrVm κ ς) (k : κ) (m : CompiledMethod) (targetBci : Nat) :
    (s.findOrCompile w m k targetBci).2.vm = s.vm := by
  have hkept := compileMethodOsr_vm hbuild s k m targetBci
  unfold findOrCompile
  split
  next => rfl
  next =>
    split
    next heq => rw [heq] at hkept; exact hkept
    next heq => rw [heq] at hkept; exact hkept

theorem checkContext_vm : (s.checkContext f nm).2.vm = s.vm := by
  unfold checkContext
  split
  next => split <;> rfl
  next => rfl

theorem offer_vm (hbuild : BuildKeeps w) (s : OsrVm κ ς) (f : Frame) (m : CompiledMethod) (savedBci targetBci : Nat) :
    (s.offer w f m savedBci targetBci).2.vm = s.vm := by
  unfold offer
  dsimp only
  split
  next => rfl
  next =>
    split
    next => rfl
    next =>
      have hkept := findOrCompile_vm hbuild (s.resetLoopCounter m)
        (w.klassOf (s.resetLoopCounter m) (f.receiver (s.resetLoopCounter m).vm.stack)) m targetBci
      split
      next heq =>
        rw [heq] at hkept
        exact checkContext_vm.trans hkept
      next heq =>
        rw [heq] at hkept
        exact hkept

theorem offer_bci (h : (s.offer w f m savedBci targetBci).1 = some nm) : savedBci < BCI_RESUME_ENSURE_RET := by
  by_contra hge
  have hout : (s.resetLoopCounter m).outsideEnvelope w f m savedBci
      (w.klassOf (s.resetLoopCounter m) (f.receiver (s.resetLoopCounter m).vm.stack)) targetBci = true := by
    unfold outsideEnvelope
    have hle : decide (BCI_RESUME_ENSURE_RET ≤ savedBci) = true := decide_eq_true (by omega)
    rw [hle, Bool.or_true, Bool.true_or]
  unfold offer at h
  dsimp only at h
  rw [hout] at h
  split at h
  next => cases h
  next => cases h

theorem osrEntryFrame_receives {slots : List OsrSlot} (hd : (slots.map OsrSlot.dstFrameOff).Nodup)
    (value : OsrSource → Oop) {o : OsrSlot} (ho : o ∈ slots) :
    osrEntryFrame slots (slots.map fun o => value o.src) o.dstFrameOff = value o.src := by
  have hall : ∀ (slots : List OsrSlot) (frame : Int → Oop), (slots.map OsrSlot.dstFrameOff).Nodup →
      (o ∈ slots ∨ o.dstFrameOff ∉ slots.map OsrSlot.dstFrameOff ∧ frame o.dstFrameOff = value o.src) →
      ((slots.zip (slots.map fun o => value o.src)).foldl
        (fun frame c => Function.update frame c.1.dstFrameOff c.2) frame) o.dstFrameOff = value o.src := by
    intro slots
    induction slots with
    | nil =>
      intro frame _ h
      obtain hmem | hframe := h
      · cases hmem
      · exact hframe.2
    | cons o' slots ih =>
      intro frame hnodup h
      obtain ⟨hnot, hrest⟩ := nodup_cons.mp hnodup
      refine ih (Function.update frame o'.dstFrameOff (value o'.src)) hrest ?_
      obtain hmem | ⟨hnew, hframe⟩ := h
      · obtain rfl | hmem := mem_cons.mp hmem
        · exact .inr ⟨hnot, update_self ..⟩
        · exact .inl hmem
      · obtain ⟨hne, hrest'⟩ := not_or.mp (mt mem_cons.mpr hnew)
        exact .inr ⟨hrest', (update_of_ne hne ..).trans hframe⟩
  exact hall slots _ hd (.inl ho)

def CallerBelow (vm : Vm) : Prop :=
  ∀ m v, vm.currentFrame.method vm.stack = some m → vm.currentFrame.savedFp vm.stack = some v →
    v ≠ ENTRY_FRAME_SENTINEL → v.toNat < vm.stack.fp - m.argc - 1

/-- It is so in every state of a process that runs in a frame. -/
theorem callerBelow_of_sound {vm : Vm} (h : Sound vm) {a : Activation} {below : List Activation}
    (hc : vm.history.current = a :: below) : CallerBelow vm := by
  intro m v hm hv hne
  have hfp := h.fp_current hc
  unfold Vm.currentFrame at hm hv
  rw [hfp, h.method_current hc] at hm
  rw [hfp, h.savedFp_current hc] at hv
  cases hm
  cases hv
  rw [hfp]
  cases below with
  | nil => exact absurd rfl hne
  | cons b rest =>
    have horder := h.order
    unfold History.live at horder
    rw [hc, cons_append, cons_append, pairwise_cons] at horder
    have hbelow := (horder.1 b mem_cons_self).2
    have htop := b.fixed_le_top
    exact Nat.lt_of_lt_of_le (show b.fp < b.top by omega) hbelow

/-- Compiled code starts with the frame's values in their homes and the frame off the stack: its
caller is the live one, or none is if it was an entry frame. -/
structure Entered (vm : Vm) (m : CompiledMethod) (savedFp : Int) (nm : OsrNmethod) (before : Vm)
    (frame : Int → Oop) : Prop where
  receives : ∀ o ∈ nm.map.slots, frame o.dstFrameOff = vm.currentFrame.osrValue vm.stack m o.src
  sp : before.stack.sp = vm.stack.fp - m.argc - 1
  slots : before.stack.slots = vm.stack.slots
  entry : savedFp = ENTRY_FRAME_SENTINEL → before.stack.fp = vm.stack.fp ∧ before.stack.hasFrame = false
  inner : savedFp ≠ ENTRY_FRAME_SENTINEL → before.stack.fp = savedFp.toNat ∧ before.stack.hasFrame = true

theorem detach_entry (h : savedFp = ENTRY_FRAME_SENTINEL) :
    s.detach f m savedFp savedBci = some { s with vm := { s.vm with
      stack := (s.vm.stack.truncate (f.fp - m.argc - 1)).deactivate, history := s.vm.history.closed } } := if_pos h

theorem detach_inner (h : savedFp ≠ ENTRY_FRAME_SENTINEL) (hd : s.detach f m savedFp savedBci = some s') :
    ∃ caller, (Frame.mk savedFp.toNat).method s.vm.stack = some caller ∧ s' = { s with vm := { s.vm with
      stack := (s.vm.stack.truncate (f.fp - m.argc - 1)).activateFrame savedFp.toNat
      history := s.vm.history.closed, method := some caller, bci := savedBci } } := by
  rw [detach, if_neg h] at hd
  dsimp only at hd
  split at hd
  next => cases hd
  next caller heq => exact ⟨caller, heq, (Option.some.inj hd).symm⟩

theorem detach_entered (nm : OsrNmethod) {before : OsrVm κ ς} (hd : s.detach s.vm.currentFrame m savedFp savedBci = some before) :
    Entered s.vm m savedFp nm before.vm (osrEntryFrame nm.map.slots
      (nm.map.slots.map fun o => s.vm.currentFrame.osrValue s.vm.stack m o.src)) := by
  have hreceives (o : OsrSlot) (ho : o ∈ nm.map.slots) :=
    osrEntryFrame_receives nm.map.distinct (s.vm.currentFrame.osrValue s.vm.stack m) ho
  by_cases hentry : savedFp = ENTRY_FRAME_SENTINEL
  · rw [detach_entry hentry] at hd
    cases hd
    exact ⟨hreceives, rfl, rfl, fun _ => ⟨rfl, rfl⟩, fun hne => absurd hentry hne⟩
  · obtain ⟨caller, -, rfl⟩ := detach_inner hentry hd
    exact ⟨hreceives, rfl, rfl, fun he => absurd he hentry, fun _ => ⟨rfl, rfl⟩⟩

variable {result : Oop} {outcome : OsrOutcome} {answer : Option Oop} {entryFrame : Bool} {vm : Vm}

theorem popAndDeliver_entry (hm : vm.currentFrame.method vm.stack = some m)
    (hfp : vm.currentFrame.savedFp vm.stack = some ENTRY_FRAME_SENTINEL)
    (hbci : vm.currentFrame.savedBci vm.stack = some savedBci) :
    vm.popAndDeliver result = some ({ vm with
      stack := (((vm.stack.set (vm.stack.fp - m.argc - 1) result).truncate (vm.stack.fp - m.argc - 1 + 1)).truncate
        (vm.stack.fp - m.argc - 1)).deactivate
      history := vm.history.closed }, .entryReturned result) := by
  rw [Vm.popAndDeliver]
  simp only [hm, hfp, hbci, if_true]

theorem popAndDeliver_inner {caller : CompiledMethod} (hbelow : CallerBelow vm)
    (hm : vm.currentFrame.method vm.stack = some m) (hfp : vm.currentFrame.savedFp vm.stack = some savedFp)
    (hbci : vm.currentFrame.savedBci vm.stack = some savedBci) (hne : savedFp ≠ ENTRY_FRAME_SENTINEL)
    (hlt : savedBci < BCI_RESUME_ENSURE_RET) (hcaller : (Frame.mk savedFp.toNat).method vm.stack = some caller) :
    vm.popAndDeliver result = some ({ vm with
      stack := ((vm.stack.set (vm.stack.fp - m.argc - 1) result).truncate (vm.stack.fp - m.argc - 1 + 1)).activateFrame
        savedFp.toNat
      history := vm.history.closed, method := some caller, bci := savedBci }, .dispatch) := by
  have hslot := hbelow m savedFp hm hfp hne
  have hread : (Frame.mk savedFp.toNat).method
      (((vm.stack.set (vm.stack.fp - m.argc - 1) result).truncate (vm.stack.fp - m.argc - 1 + 1)).activateFrame
        savedFp.toNat) = some caller := by
    rw [← hcaller]
    have hne' : savedFp.toNat + FRAME_METHOD ≠ vm.stack.fp - m.argc - 1 := by
      have hzero : FRAME_METHOD = 0 := rfl
      omega
    exact congrArg Oop.methodOop (update_of_ne hne' _ _)
  have hsentinels : savedBci ≠ BCI_RESUME_ENSURE_RET ∧ savedBci ≠ BCI_RESUME_UNWIND ∧
      savedBci ≠ BCI_RESUME_CANNOT_RETURN := by
    have hret : BCI_RESUME_ENSURE_RET = 0x7FFF0001 := rfl
    have hunwind : BCI_RESUME_UNWIND = 0x7FFF0002 := rfl
    have hcannot : BCI_RESUME_CANNOT_RETURN = 0x7FFF0003 := rfl
    omega
  rw [Vm.popAndDeliver]
  simp only [hm, hfp, hbci, if_neg hne]
  rw [Vm.resumeAt, if_neg hsentinels.1, if_neg hsentinels.2.1, if_neg hsentinels.2.2]
  simp only [Vm.currentFrame, ProcessStack.activateFrame] at hread ⊢
  rw [hread]

theorem enter_parts (h : s.enter w f m savedFp savedBci nm = some (outcome, s')) :
    ∃ before answer after, s.detach f m savedFp savedBci = some before ∧
      w.invoke (before.pushLink savedFp) nm (osrEntryFrame nm.map.slots
        (nm.map.slots.map fun o => f.osrValue s.vm.stack m o.src)) = some (answer, after) ∧
      after.popLink.finish savedFp answer = some (outcome, s') := by
  unfold enter at h
  dsimp only at h
  split at h
  next => cases h
  next => cases h
  next before hbuf hdetach =>
    split at h
    next => cases h
    next answer after hinvoke => exact ⟨before, answer, after, hdetach, hinvoke, h⟩

theorem resumeNlr_outcome (h : s.resumeNlr = some (outcome, s')) : ∃ step, outcome = .nlr step := by
  unfold resumeNlr at h
  split at h
  next => cases h
  next =>
    split at h
    next => cases h
    next step _ =>
      cases h
      exact ⟨step, rfl⟩

theorem deliver_outcome (h : s.deliver savedFp result = some (outcome, s')) :
    savedFp = ENTRY_FRAME_SENTINEL ∧ outcome = .completed result true ∧ s' = s ∨
      savedFp ≠ ENTRY_FRAME_SENTINEL ∧ outcome = .completed result false ∧
        ∃ stack, s.vm.stack.push result = some stack ∧ s' = { s with vm := { s.vm with stack := stack } } := by
  unfold deliver at h
  split at h
  next hentry =>
    cases h
    exact .inl ⟨hentry, rfl, rfl⟩
  next hinner =>
    split at h
    next => cases h
    next stack hpush =>
      cases h
      exact .inr ⟨hinner, rfl, stack, hpush, rfl⟩

theorem finish_declined : s.finish savedFp answer ≠ some (.declined, s') := by
  intro h
  cases answer with
  | none =>
    obtain ⟨step, hc⟩ := resumeNlr_outcome h
    cases hc
  | some result =>
    obtain ⟨-, hc, -⟩ | ⟨-, hc, -⟩ := deliver_outcome h
    · cases hc
    · cases hc

theorem finish_completed (h : s.finish savedFp answer = some (.completed result entryFrame, s')) : answer = some result ∧
      (savedFp = ENTRY_FRAME_SENTINEL ∧ entryFrame = true ∧ s' = s ∨
        savedFp ≠ ENTRY_FRAME_SENTINEL ∧ entryFrame = false ∧
          ∃ stack, s.vm.stack.push result = some stack ∧ s' = { s with vm := { s.vm with stack := stack } }) := by
  cases answer with
  | none =>
    obtain ⟨step, hc⟩ := resumeNlr_outcome h
    cases hc
  | some r =>
    obtain ⟨hentry, hc, hs⟩ | ⟨hinner, hc, hs⟩ := deliver_outcome h
    · cases hc
      exact ⟨rfl, .inl ⟨hentry, rfl, hs⟩⟩
    · cases hc
      exact ⟨rfl, .inr ⟨hinner, rfl, hs⟩⟩

theorem enter_returns (hinvoke : InvokeKeeps w) (hbelow : CallerBelow s.vm) (hlt : savedBci < BCI_RESUME_ENSURE_RET)
    (hm : s.vm.currentFrame.method s.vm.stack = some m) (hfp : s.vm.currentFrame.savedFp s.vm.stack = some savedFp)
    (hbci : s.vm.currentFrame.savedBci s.vm.stack = some savedBci)
    (h : s.enter w s.vm.currentFrame m savedFp savedBci nm = some (.completed result entryFrame, s')) :
    ∃ vm' step, s.vm.popAndDeliver result = some (vm', step) ∧ SameInterpreter vm' s'.vm ∧
      step = if entryFrame then .entryReturned result else .dispatch := by
  obtain ⟨before, answer, after, hdetach, hcode, hfinish⟩ := enter_parts h
  obtain ⟨rfl, hend⟩ := finish_completed hfinish
  have hkept := hinvoke _ _ _ _ _ hcode
  have hframe : s.vm.currentFrame.fp = s.vm.stack.fp := rfl
  obtain ⟨rfl, rfl, rfl⟩ | ⟨hinner, rfl, stack, hpush, rfl⟩ := hend
  · refine ⟨_, _, popAndDeliver_entry hm hfp hbci, ?_, rfl⟩
    rw [detach_entry rfl] at hdetach
    cases hdetach
    refine ⟨hkept.sp, hkept.fp, hkept.hasFrame, fun i hi => ?_, hkept.method, hkept.bci, hkept.current, hkept.outer⟩
    have hlt : i < s.vm.stack.fp - m.argc - 1 := hi
    have hslot := hkept.slots i hlt
    have hne : i ≠ s.vm.stack.fp - m.argc - 1 := by omega
    exact hslot.trans (update_of_ne hne _ _).symm
  · obtain ⟨caller, hcaller, rfl⟩ := detach_inner hinner hdetach
    refine ⟨_, _, popAndDeliver_inner hbelow hm hfp hbci hinner hlt hcaller, ?_, rfl⟩
    obtain ⟨hroom, rfl⟩ := ProcessStack.push_eq hpush
    have hsp : after.popLink.vm.stack.sp = s.vm.stack.fp - m.argc - 1 := hkept.sp
    refine ⟨congrArg (· + 1) hsp, hkept.fp, hkept.hasFrame, fun i hi => ?_, hkept.method, hkept.bci, hkept.current,
      hkept.outer⟩
    show Function.update after.popLink.vm.stack.slots after.popLink.vm.stack.sp result i =
      Function.update s.vm.stack.slots (s.vm.stack.fp - m.argc - 1) result i
    have hi' : i < s.vm.stack.fp - m.argc - 1 + 1 := hi
    rw [hsp]
    by_cases heq : i = s.vm.stack.fp - m.argc - 1
    · rw [heq, update_self, update_self]
    · rw [update_of_ne heq, update_of_ne heq]
      exact hkept.slots i (by show i < s.vm.stack.fp - m.argc - 1; omega)

/-- A decline leaves the interpreter as it was; a transition starts compiled code with the frame's
values and without the frame, and when the code completes, leaves what a normal return leaves. -/
theorem osr_keeps_activation (hbuild : BuildKeeps w) (hinvoke : InvokeKeeps w) (hbelow : CallerBelow s.vm)
    {outcome : OsrOutcome} (h : s.rtOsrRequest w s.vm.stack.fp targetBci = some (outcome, s')) :
    (outcome = .declined → s'.vm = s.vm) ∧
    (outcome ≠ .declined → ∃ m savedFp nm before frame answer after,
      s.vm.currentFrame.method s.vm.stack = some m ∧ s.vm.currentFrame.savedFp s.vm.stack = some savedFp ∧
      w.invoke before nm frame = some (answer, after) ∧ Entered s.vm m savedFp nm before.vm frame) ∧
    ∀ result entryFrame, outcome = .completed result entryFrame → ∃ vm' step,
      s.vm.popAndDeliver result = some (vm', step) ∧ SameInterpreter vm' s'.vm ∧
      step = if entryFrame then .entryReturned result else .dispatch := by
  unfold rtOsrRequest at h
  dsimp only at h
  split at h
  next m savedFp savedBci hm hfp hbci =>
    have hvm := offer_vm hbuild s (Frame.mk s.vm.stack.fp) m savedBci targetBci
    split at h
    next t heq =>
      rw [heq] at hvm
      cases h
      exact ⟨fun _ => hvm, fun hne => absurd rfl hne, fun _ _ hc => by cases hc⟩
    next nm t heq =>
      have hoffer : (s.offer w (Frame.mk s.vm.stack.fp) m savedBci targetBci).1 = some nm := by rw [heq]
      have hlt := offer_bci hoffer
      rw [heq] at hvm
      have hvm' : t.vm = s.vm := hvm
      rw [← hvm'] at hbelow hm hfp hbci h ⊢
      obtain ⟨before, answer, after, hdetach, hcode, hfinish⟩ := enter_parts h
      refine ⟨fun hd => ?_, fun _ => ?_, fun result entryFrame hc => ?_⟩
      · rw [hd] at hfinish
        exact absurd hfinish finish_declined
      · have hentered := detach_entered nm hdetach
        exact ⟨m, savedFp, nm, before.pushLink savedFp, _, answer, after, hm, hfp, hcode, hentered⟩
      · rw [hc] at h
        exact enter_returns hinvoke hbelow hlt hm hfp hbci h
  next => cases h

def loopMethod : CompiledMethod := ⟨1, 1, false, false, false⟩

def loopSlots : List Oop :=
  [.object 0, .method ⟨0, 0, false, false, false⟩, .smi (-1), .smi 0, .nil, .object 0, .smi 0, .nil,
    .object 1, .smi 5, .method loopMethod, .smi 1, .smi 33, .nil, .object 1, .smi 1, .nil, .smi 10]

def loopVm : Vm where
  stack := ⟨fun i => loopSlots.getD i .nil, 18, 10, true⟩
  method := some loopMethod
  bci := 7
  nextFrameSerial := 2
  closures := []
  arrays := []
  nextObject := 2
  nlrState := none
  suspended := []
  cannotReturnMethod := none
  history := ⟨2, [⟨1, 10, loopMethod, 33⟩, ⟨0, 1, ⟨0, 0, false, false, false⟩, 0⟩], [], []⟩

def loopOsr : OsrVm Unit Unit := ⟨loopVm, true, true, fun _ _ _ => none, fun _ => false, fun _ => 0, [], 0, 0, 0, 0, 0⟩

def loopMap : OsrMap where
  osrBci := 7
  slots := osrSlots (osrSources loopMethod [] none) fun v => some (-8 * (v + 1))
  distinct := osrSlots_distinct (by decide) fun v w off hv hw => by
    have hoff := Option.some.inj (hv.trans hw.symm)
    omega

def loopWorld : OsrWorld Unit Unit where
  klassOf _ _ := ()
  selector _ := some ()
  lookup _ _ _ := some loopMethod
  eligibility _ _ _ := .yes
  allElidable _ _ _ := false
  build s _ _ _ := (some ⟨true, false, loopMap⟩, s)
  invoke s _ frame := some (some (frame (-24)), s)

theorem osr_keeps_activation_loop :
    ∃ s' vm' step, loopOsr.rtOsrRequest loopWorld 10 7 = some (.completed (.smi 10) false, s') ∧
      loopOsr.vm.popAndDeliver (.smi 10) = some (vm', step) ∧ SameInterpreter vm' s'.vm ∧ step = .dispatch := by
  have hbelow : CallerBelow loopOsr.vm := by
    intro m v hm hv _
    cases hm
    cases hv
    decide
  have hrun : ∃ s', loopOsr.rtOsrRequest loopWorld loopOsr.vm.stack.fp 7 = some (.completed (.smi 10) false, s') :=
    ⟨_, rfl⟩
  obtain ⟨s', hs'⟩ := hrun
  have hinvoke : InvokeKeeps loopWorld := by
    intro s s' nm frame result h
    cases h
    exact ⟨rfl, rfl, rfl, fun _ _ => rfl, rfl, rfl, rfl, rfl⟩
  have hbuild : BuildKeeps loopWorld := fun _ _ _ _ => rfl
  obtain ⟨-, -, hreturns⟩ := osr_keeps_activation hbuild hinvoke hbelow hs'
  obtain ⟨vm', step, hpop, hsame, hstep⟩ := hreturns _ _ rfl
  exact ⟨s', vm', step, hs', hpop, hsame, hstep⟩

end OsrVm

end WinArmVm.Process
