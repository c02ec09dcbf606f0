import Mathlib.Data.List.Basic

namespace WinArmVm.Supervision

inductive Restart
  | permanent
  | temporary
deriving DecidableEq

inductive Strategy
  | oneForOne
  | oneForAll
  | restForOne
deriving DecidableEq

inductive SupervisorState
  | idle
  | running
  | givenUp
deriving DecidableEq

structure Worker where
  serial : Nat
  id : Nat
deriving DecidableEq

structure WorkerSpec where
  name : Nat
  restart : Restart
  supervisorChild : Option Nat
  /-- It has an `afterRestart:` hook. -/
  afterRestart : Bool

structure WorkerSupervisor where
  strategy : Strategy
  children : List Nat
  maxRestarts : Nat
  perSeconds : Nat
  parent : Option Nat

/-- Supervisors and specs are objects, named by numbers. A spec is a child of one supervisor, a
supervisor of one spec, and every chain of supervisors ends. -/
structure Tree where
  supervisor : Nat → WorkerSupervisor
  spec : Nat → WorkerSpec
  height : Nat → Nat
  nodup : ∀ p, (supervisor p).children.Nodup
  owner : ∀ p q c, c ∈ (supervisor p).children → c ∈ (supervisor q).children → p = q
  lower : ∀ p c q, c ∈ (supervisor p).children → (spec c).supervisorChild = some q → height q < height p
  infrastructure : ∀ c, (spec c).supervisorChild.isSome → (spec c).restart = .permanent

/-- What one spawn meets: the id it is given, none where it fails, and whether the hook of the spec
then raises. -/
structure Answer where
  id : Option Nat
  hookRaises : Bool
deriving DecidableEq

/-- `alive` is the fleet's own table of the ids in use. `spawned` are the workers that supervisors
spawned and nobody terminated. -/
structure State where
  worker : Nat → Option Worker
  startedAt : Nat → Option Int
  state : Nat → SupervisorState
  restartTimes : Nat → List Int
  names : Nat → Option Worker
  owners : Nat → Option (Nat × Nat)
  alive : Nat → Bool
  /-- The readings of the clock that are to come. -/
  clock : Nat → Int
  answers : List Answer
  serial : Nat
  spawned : List Worker

/-- An error unwinds the whole doit; a computation that is out of fuel or of answers says nothing. -/
inductive Halt
  | error
  | stuck
deriving DecidableEq

abbrev Guest (α : Type) := EStateM Halt State α

namespace State

def setWorker (s : State) (c : Nat) (w : Option Worker) : State :=
  { s with worker := fun n => if n = c then w else s.worker n }

def setStartedAt (s : State) (c : Nat) (now : Int) : State :=
  { s with startedAt := fun n => if n = c then some now else s.startedAt n }

def setState (s : State) (p : Nat) (x : SupervisorState) : State :=
  { s with state := fun n => if n = p then x else s.state n }

def setRestartTimes (s : State) (p : Nat) (times : List Int) : State :=
  { s with restartTimes := fun n => if n = p then times else s.restartTimes n }

def setName (s : State) (name : Nat) (w : Option Worker) : State :=
  { s with names := fun n => if n = name then w else s.names n }

def setOwner (s : State) (id : Nat) (entry : Option (Nat × Nat)) : State :=
  { s with owners := fun n => if n = id then entry else s.owners n }

def setAlive (s : State) (id : Nat) (b : Bool) : State := { s with alive := fun n => if n = id then b else s.alive n }

end State

def clockNow : Guest Int := do
  let s ← get
  set { s with clock := fun n => s.clock (n + 1) }
  pure (s.clock 0)

def spawnWorker : Guest Worker := do
  let s ← get
  match s.answers with
  | [] => throw .stuck
  | ⟨none, _⟩ :: _ => throw .error
  | ⟨some id, _⟩ :: _ =>
    if s.alive id then throw .stuck
    else
      let w := ⟨s.serial, id⟩
      set { s.setAlive id true with serial := s.serial + 1, spawned := w :: s.spawned }
      pure w

def terminate (w : Worker) : Guest Unit := modify fun s =>
  { s.setAlive w.id false with spawned := s.spawned.filter fun x => x.id ≠ w.id }

def runHook (hook : Bool) : Guest Unit := do
  let s ← get
  match s.answers with
  | [] => throw .stuck
  | answer :: answers =>
    set { s with answers := answers }
    if hook ∧ answer.hookRaises then throw .error

namespace WorkerNames

/-- A name that is bound to another handle is an error. -/
def bind (name : Nat) (w : Worker) : Guest Unit := do
  match (← get).names name with
  | none => modify (·.setName name (some w))
  | some existing => if existing ≠ w then throw .error else modify (·.setName name (some w))

def unbind (name : Nat) : Guest Unit := modify (·.setName name none)

end WorkerNames

namespace SupervisorRegistry

def register (id p c : Nat) : Guest Unit := modify (·.setOwner id (some (p, c)))

def unregister (id : Nat) : Guest Unit := modify (·.setOwner id none)

end SupervisorRegistry

namespace WorkerSupervisor

variable (T : Tree)

/-- `start` is that of the supervisors below. -/
def startChild (start : Nat → Guest Unit) (p c : Nat) : Guest Unit := do
  match (T.spec c).supervisorChild with
  | some q => do
    start q
    let now ← clockNow
    modify (·.setStartedAt c now)
  | none => do
    let w ← spawnWorker
    modify (·.setWorker c (some w))
    let now ← clockNow
    modify (·.setStartedAt c now)
    WorkerNames.bind (T.spec c).name w
    SupervisorRegistry.register w.id p c
    runHook (T.spec c).afterRestart

def stopChild (stop : Nat → Guest Unit) (c : Nat) : Guest Unit := do
  match (T.spec c).supervisorChild with
  | some q => stop q
  | none =>
    match (← get).worker c with
    | none => pure ()
    | some w => do
      SupervisorRegistry.unregister w.id
      WorkerNames.unbind (T.spec c).name
      terminate w
      modify (·.setWorker c none)

/-- The number is the fuel of the recursion into the tree. -/
def start : Nat → Nat → Guest Unit
  | 0, _ => throw .stuck
  | n + 1, p => do
    if (← get).state p = .running then pure ()
    else do
      modify (·.setState p .running)
      modify (·.setRestartTimes p [])
      (T.supervisor p).children.forM (startChild T (start n) p)

def stop : Nat → Nat → Guest Unit
  | 0, _ => throw .stuck
  | n + 1, p => do
    modify (·.setState p .idle)
    (T.supervisor p).children.reverse.forM (stopChild T (stop n))

def restartAllFrom (n p startIndex : Nat) : Guest Unit := do
  ((T.supervisor p).children.drop startIndex).reverse.forM (stopChild T (stop T n))
  (((T.supervisor p).children.drop startIndex).filter fun c => (T.spec c).restart ≠ .temporary).forM
    (startChild T (start T n) p)

def applyStrategyFor (n p c : Nat) : Guest Unit :=
  match (T.supervisor p).strategy with
  | .oneForOne => startChild T (start T n) p c
  | .oneForAll => restartAllFrom T n p 0
  | .restForOne => restartAllFrom T n p ((T.supervisor p).children.idxOf c)

def pruneRestartsBefore (cutoff : Int) (times : List Int) : List Int := times.dropWhile (· < cutoff)

/-- `restart` is `restartOrGiveUp:` of the parent. -/
def childSupervisorGaveUp (restart : Nat → Nat → Guest Unit) (p q : Nat) : Guest Unit := do
  match (T.supervisor p).children.find? fun c => (T.spec c).supervisorChild = some q with
  | none => pure ()
  | some c => if (← get).state p = .running then restart p c else pure ()

def giveUp (restart : Nat → Nat → Guest Unit) (n p : Nat) : Guest Unit := do
  modify (·.setState p .givenUp)
  (T.supervisor p).children.reverse.forM (stopChild T (stop T n))
  match (T.supervisor p).parent with
  | none => pure ()
  | some q => childSupervisorGaveUp T restart q p

/-- The number is the fuel of the escalation. -/
def restartOrGiveUp : Nat → Nat → Nat → Guest Unit
  | 0, _, _ => throw .stuck
  | n + 1, p, c => do
    let now ← clockNow
    let s ← get
    let times := pruneRestartsBefore (now - (T.supervisor p).perSeconds * 1000) (s.restartTimes p)
    if (T.supervisor p).maxRestarts ≤ times.length then do
      set (s.setRestartTimes p times)
      giveUp T (restartOrGiveUp n) n p
    else do
      set (s.setRestartTimes p (times ++ [now]))
      applyStrategyFor T n p c

def terminateWorker (c : Nat) : Guest Unit := do
  match (← get).worker c with
  | none => pure ()
  | some w => terminate w

def childDied (n p c : Nat) : Guest Unit := do
  terminateWorker c
  modify (·.setWorker c none)
  WorkerNames.unbind (T.spec c).name
  if (← get).state p ≠ .running then pure ()
  else if (T.spec c).restart = .temporary then pure ()
  else restartOrGiveUp T n p c

end WorkerSupervisor

def SupervisorRegistry.workerDied (T : Tree) (n id : Nat) : Guest Unit := do
  match (← get).owners id with
  | none => pure ()
  | some (p, c) => do
    modify (·.setOwner id none)
    WorkerSupervisor.childDied T n p c

/-- A notice can be about any id, at any time. The last three are the fleet's: a send to a dead
worker fails and frees its id, and workers outside the tree come and go. -/
inductive Event
  | start (p : Nat) (answers : List Answer)
  | stop (p : Nat)
  | workerDied (id : Nat) (answers : List Answer)
  | sendFails (id : Nat)
  | spawn (id : Nat)
  | terminate (id : Nat)

namespace State

variable (T : Tree) (n : Nat)

/-- What an event does, `answers` being the spawns in the course of it. -/
def handle (s : State) (answers : List Answer) (act : Guest Unit) : Option State :=
  match act { s with answers := answers } with
  | .ok _ t => some t
  | .error .error t => some t
  | .error .stuck _ => none

def exec (s : State) : Event → Option State
  | .start p answers => s.handle answers (WorkerSupervisor.start T n p)
  | .stop p => s.handle [] (WorkerSupervisor.stop T n p)
  | .workerDied id answers => s.handle answers (SupervisorRegistry.workerDied T n id)
  | .sendFails id => some (s.setAlive id false)
  | .spawn id => if s.alive id then none else some (s.setAlive id true)
  | .terminate id => s.handle [] (Supervision.terminate ⟨0, id⟩)

def run (s : State) : List Event → Option State
  | [] => some s
  | e :: es => (s.exec T n e).bind fun t => t.run es

structure Initial (s : State) : Prop where
  state : ∀ p, s.state p = .idle
  worker : ∀ c, s.worker c = none
  owners : ∀ id, s.owners id = none
  names : ∀ c, s.names (T.spec c).name = none
  spawned : s.spawned = []

/-- A running supervisor has its permanent workers, bound and routed; every spawned worker has one
spec; a supervisor that does not run has no worker. -/
structure Supervised (s : State) : Prop where
  running : ∀ p, s.state p = .running → ∀ c ∈ (T.supervisor p).children, (T.spec c).restart = .permanent →
    (T.spec c).supervisorChild = none →
    ∃ w, s.worker c = some w ∧ s.names (T.spec c).name = some w ∧ s.owners w.id = some (p, c)
  spawned : ∀ w ∈ s.spawned, ∃! c, s.worker c = some w
  down : ∀ p, s.state p ≠ .running → ∀ c ∈ (T.supervisor p).children, s.worker c = none

end State

end WinArmVm.Supervision
