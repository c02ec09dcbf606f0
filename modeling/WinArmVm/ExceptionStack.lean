import Mathlib.Data.List.Nodup

namespace WinArmVm.Exceptions

inductive Value
  | nil
  | object (o : Nat)
  | retryToken
deriving DecidableEq, Repr

/-- The activation a `^` returns from. The library's own blocks have theirs in
`protect:handler:` and in `signal`. -/
inductive Home
  | method (id : Nat)
  | protect (id : Nat)
  | signal (id : Nat)
deriving DecidableEq, Repr

/-- A handler-stack entry; of its return and retry blocks, the activation they return from. -/
structure Entry where
  exceptionClass : Nat
  handlerBlock : Nat
  returnBlock : Nat
  retryBlock : Nat
deriving DecidableEq, Repr

structure ExceptionObject where
  cls : Nat
  handlerReturn : Option Nat
  handlerRetry : Option Nat
  handlerResume : Option (Nat × List Entry)
deriving DecidableEq, Repr

inductive MarkerKind
  | ensure
  | ifCurtailed
deriving DecidableEq, Repr

/-- A protected block's marker. No step reads the `abandoned` of a token: it keeps the
activations whose handlers were left by the return that the token suspends. -/
inductive Marker
  | nil
  | handler (block : Nat) (kind : MarkerKind)
  | token (home : Home) (value : Value) (abandoned : List Nat)
deriving DecidableEq, Repr

/-- What a block's activation returns to: bytecode, or one of the resume sentinels (the first
with the result parked below the activation). -/
inductive SavedBci
  | bytecode
  | resumeEnsureRet (result : Value)
  | resumeUnwind
deriving DecidableEq, Repr

inductive Frame
  | method (id : Nat)
  | block (body : Nat) (marker : Marker) (saved : SavedBci)
  | onDo (receiver exceptionClass handlerBlock : Nat)
  | protect (id receiver exceptionClass handlerBlock depth : Nat)
  | signal (id exception : Nat) (entry : Entry) (popped : List Entry)
  | pass (mine : Nat)
  /-- The entry frame over a computation that an error has ended: its cleanup blocks run
  above, the frames below are still to be searched for more, and `gone` have been. -/
  | curtailment (gone : List Home) (abandoned : List Nat)
deriving DecidableEq, Repr

inductive Mode /-- The top frame runs, after the answer of its last send. -/
  | run (answer : Option Value)
  /-- The top frame returns. -/
  | returning (value : Value)
  | unwinding (home : Home) (value : Value) (abandoned : List Nat)
  | curtailing (gone : List Home) (abandoned : List Nat)
  | stopped
deriving DecidableEq, Repr

structure State where
  frames : List Frame
  mode : Mode
  handlers : List Entry
  exceptions : List ExceptionObject
  next : Nat
deriving DecidableEq, Repr

/-- The exception classes: `carriesOn` are those whose `unhandled` answers nil. -/
structure Hierarchy where
  isKindOf : Nat → Nat → Bool
  isResumable : Nat → Bool
  carriesOn : Nat → Bool
  error : Nat

def popHandlerTo (handlers : List Entry) (depth : Nat) : List Entry := handlers.take depth

/-- From the element at `index`, counted from one. -/
def handlersFrom (handlers : List Entry) (index : Nat) : List Entry := handlers.drop (index - 1)

def restoreHandlers (handlers popped : List Entry) : List Entry := handlers ++ popped

/-- The innermost of the first `i` handlers that takes the class, with its index. -/
def findHandlerFor (w : Hierarchy) (handlers : List Entry) (cls : Nat) : Nat → Option (Nat × Entry)
  | 0 => none
  | i + 1 =>
    match handlers[i]? with
    | none => none
    | some entry =>
      if w.isKindOf cls entry.exceptionClass then some (i + 1, entry)
      else findHandlerFor w handlers cls i

def Frame.isHome (home : Home) : Frame → Bool
  | method id => home = .method id
  | protect id .. => home = .protect id
  | signal id .. => home = .signal id
  | _ => false

def Frame.holds (home : Home) : Frame → Bool
  | curtailment gone _ => home ∈ gone
  | f => f.isHome home

def Frame.isUser : Frame → Bool
  | method _ => true
  | block .. => true
  | _ => false

def Frame.isCurtailment : Frame → Bool
  | curtailment .. => true
  | _ => false

namespace State

def start : State := ⟨[.method 0], .run none, [], [], 1⟩

def userRuns (s : State) : Bool :=
  match s.mode, s.frames with
  | .run _, f :: _ => f.isUser
  | _, _ => false

def activate (s : State) (f : Frame) : State := { s with frames := f :: s.frames, mode := .run none }

def homeIsLive (s : State) (home : Home) : Bool := s.frames.any (Frame.holds home)

/-- An error in a cleanup block ends the cleanup. -/
def primError (s : State) : State :=
  if s.frames.any Frame.isCurtailment then { s with frames := [], mode := .stopped }
  else { s with mode := .curtailing [] [] }

/-- A dead home is an error: `cannotReturn:` is not understood. -/
def continueUnwind (s : State) (home : Home) (value : Value) (abandoned : List Nat) : State :=
  if s.homeIsLive home then { s with mode := .unwinding home value abandoned } else s.primError

/-- One armed attempt: `protect:handler:` pushes the handler and runs the receiver. -/
def protect (s : State) (receiver cls handler : Nat) : State :=
  { s with
    frames := .block receiver .nil .bytecode :: .protect s.next receiver cls handler s.handlers.length :: s.frames
    mode := .run none
    handlers := s.handlers ++ [⟨cls, handler, s.next, s.next⟩]
    next := s.next + 1 }

def onDo (s : State) (receiver cls handler : Nat) : State :=
  protect { s with frames := .onDo receiver cls handler :: s.frames } receiver cls handler

def signal (w : Hierarchy) (s : State) (e : Nat) : Option State :=
  match s.exceptions[e]? with
  | none => none
  | some x =>
    match findHandlerFor w s.handlers x.cls s.handlers.length with
    | none => if w.carriesOn x.cls then some { s with mode := .run (some .nil) } else some s.primError
    | some (index, entry) =>
      let depth := index - 1
      let popped := handlersFrom s.handlers (depth + 1)
      some { s with
        frames := .block entry.handlerBlock .nil .bytecode :: .signal s.next e entry popped :: s.frames
        mode := .run none
        handlers := popHandlerTo s.handlers depth
        exceptions := s.exceptions.set e ⟨x.cls, some entry.returnBlock, some entry.retryBlock, some (s.next, popped)⟩
        next := s.next + 1 }

def new (s : State) (cls : Nat) : State := { s with exceptions := s.exceptions ++ [⟨cls, none, none, none⟩] }

/-- `Error signal: aString`, what a verb answers with outside a handler. -/
def signalError (w : Hierarchy) (s : State) : Option State := (s.new w.error).signal w s.exceptions.length

def returnWith (w : Hierarchy) (s : State) (e : Nat) (v : Value) : Option State :=
  match s.exceptions[e]? with
  | none => none
  | some x =>
    match x.handlerReturn with
    | none => s.signalError w
    | some home => some (s.continueUnwind (.protect home) v [])

def retry (w : Hierarchy) (s : State) (e : Nat) : Option State :=
  match s.exceptions[e]? with
  | none => none
  | some x =>
    match x.handlerRetry with
    | none => s.signalError w
    | some home => some (s.continueUnwind (.protect home) .retryToken [])

def pass (w : Hierarchy) (s : State) (e : Nat) : Option State :=
  match s.exceptions[e]? with
  | none => none
  | some x =>
    match x.handlerReturn with
    | none => s.signalError w
    | some mine => signal w { s with frames := .pass mine :: s.frames } e

def outer (w : Hierarchy) (s : State) (e : Nat) : Option State := s.signal w e

def resume (w : Hierarchy) (s : State) (e : Nat) (v : Value) : Option State :=
  match s.exceptions[e]? with
  | none => none
  | some x =>
    if !w.isResumable x.cls then s.signalError w
    else
      match x.handlerResume with
      | none => s.signalError w
      | some (home, popped) =>
        some (continueUnwind { s with handlers := restoreHandlers s.handlers popped } (.signal home) v [])

/-- The activation on top goes on with the answer `v`. -/
def deliver (w : Hierarchy) (s : State) (v : Value) : Option State :=
  match s.frames with
  | .onDo receiver cls handler :: below =>
    if v = .retryToken then some (s.protect receiver cls handler)
    else some { s with frames := below, mode := .run (some v) }
  | .protect _ _ _ _ depth :: below =>
    some { s with frames := below, handlers := popHandlerTo s.handlers depth }
  | .signal _ e _ _ :: _ => s.returnWith w e v
  | .pass mine :: _ => some (s.continueUnwind (.protect mine) v [])
  | .curtailment gone abandoned :: below => some { s with frames := below, mode := .curtailing gone abandoned }
  | _ => none

/-- The single choke point of the returns. -/
def doReturn (s : State) (v : Value) : Option State :=
  match s.frames with
  | .method _ :: [] => some { s with frames := [], mode := .stopped }
  | .method _ :: below => some { s with frames := below, mode := .run (some v) }
  | .block body (.handler h .ensure) saved :: below =>
    some { s with
      frames := .block h .nil (.resumeEnsureRet v) :: .block body .nil saved :: below
      mode := .run none }
  | .block body (.handler _ .ifCurtailed) saved :: below =>
    some { s with frames := .block body .nil saved :: below }
  | .block _ .nil .bytecode :: below => some { s with frames := below, mode := .run (some v) }
  | .block _ .nil (.resumeEnsureRet result) :: below =>
    some { s with frames := below, mode := .returning result }
  | .block _ .nil .resumeUnwind :: .block body (.token home value abandoned) saved :: below =>
    some (continueUnwind { s with frames := .block body .nil saved :: below } home value abandoned)
  | _ => none

def unwind (s : State) (home : Home) (v : Value) (abandoned : List Nat) : Option State :=
  match s.frames with
  | [] => none
  | .method id :: below =>
    if home = .method id then some { s with mode := .returning v } else some { s with frames := below }
  | .block body (.handler h _) saved :: below =>
    some { s with
      frames := .block h .nil .resumeUnwind :: .block body (.token home v abandoned) saved :: below
      mode := .run none }
  | .block _ (.token _ _ left) _ :: below =>
    some { s with frames := below, mode := .unwinding home v (left ++ abandoned) }
  | .block _ .nil _ :: below => some { s with frames := below }
  | .onDo .. :: below => some { s with frames := below }
  | .protect id _ _ _ depth :: below =>
    let s := { s with frames := below, handlers := popHandlerTo s.handlers depth }
    if home = .protect id then some { s with mode := .run (some v) } else some s
  | .signal id _ entry _ :: below =>
    if home = .signal id then some { s with frames := below, mode := .run (some v) }
    else some { s with frames := below, mode := .unwinding home v (entry.returnBlock :: abandoned) }
  | .pass _ :: below => some { s with frames := below }
  | .curtailment gone left :: below =>
    some { s with frames := below, mode := .curtailing gone (left ++ abandoned) }

/-- One frame of the cleanup after an error. -/
def curtail (s : State) (gone : List Home) (abandoned : List Nat) : Option State :=
  match s.frames with
  | [] => some { s with mode := .stopped }
  | .method id :: below =>
    some { s with frames := below, mode := .curtailing (.method id :: gone) abandoned }
  | .block _ (.handler h _) _ :: below =>
    some { s with
      frames := .block h .nil .bytecode :: .curtailment gone abandoned :: below
      mode := .run none }
  | .block _ (.token _ _ left) _ :: below =>
    some { s with frames := below, mode := .curtailing gone (left ++ abandoned) }
  | .block _ .nil _ :: below => some { s with frames := below }
  | .onDo .. :: below => some { s with frames := below }
  | .protect id _ _ _ depth :: below =>
    some { s with
      frames := below
      mode := .curtailing (.protect id :: gone) abandoned
      handlers := popHandlerTo s.handlers depth }
  | .signal id _ entry _ :: below =>
    some { s with
      frames := below
      mode := .curtailing (.signal id :: gone) (entry.returnBlock :: abandoned) }
  | .pass _ :: below => some { s with frames := below }
  | .curtailment .. :: _ => none

end State

/-- What user code does next; `library` is the next step of the library or the machine. -/
inductive Action
  | library
  | send
  | value (body : Nat)
  | ensure (body handler : Nat)
  | ifCurtailed (body handler : Nat)
  | answer (v : Value)
  | nonLocalReturn (id : Nat) (v : Value)
  | onDo (receiver cls handler : Nat)
  | new (cls : Nat)
  | signal (e : Nat)
  | returnWith (e : Nat) (v : Value)
  | retry (e : Nat)
  | pass (e : Nat)
  | outer (e : Nat)
  | resume (e : Nat) (v : Value)
deriving DecidableEq, Repr

namespace State

def libraryStep (w : Hierarchy) (s : State) : Option State :=
  match s.mode with
  | .run answer => s.deliver w (answer.getD .nil)
  | .returning v => s.doReturn v
  | .unwinding home v abandoned => s.unwind home v abandoned
  | .curtailing gone abandoned => s.curtail gone abandoned
  | .stopped => none

/-- The retry token never leaves the library. -/
def userStep (w : Hierarchy) (s : State) : Action → Option State
  | .library => none
  | .send => some { s.activate (.method s.next) with next := s.next + 1 }
  | .value body => some (s.activate (.block body .nil .bytecode))
  | .ensure body h => some (s.activate (.block body (.handler h .ensure) .bytecode))
  | .ifCurtailed body h => some (s.activate (.block body (.handler h .ifCurtailed) .bytecode))
  | .answer v => if v = .retryToken then none else some { s with mode := .returning v }
  | .nonLocalReturn id v =>
    if v = .retryToken then none else some (s.continueUnwind (.method id) v [])
  | .onDo receiver cls h => some (s.onDo receiver cls h)
  | .new cls => some (s.new cls)
  | .signal e => s.signal w e
  | .returnWith e v => if v = .retryToken then none else s.returnWith w e v
  | .retry e => s.retry w e
  | .pass e => s.pass w e
  | .outer e => s.outer w e
  | .resume e v => if v = .retryToken then none else s.resume w e v

def step (w : Hierarchy) (s : State) : Action → Option State
  | .library => if s.userRuns then none else s.libraryStep w
  | a => if s.userRuns then s.userStep w a else none

def steps (w : Hierarchy) (s : State) : List Action → Option State
  | [] => some s
  | a :: as => (s.step w a).bind fun t => t.steps w as

end State

/-- The runs whose steps all meet `ok`, by the states they reach. -/
inductive Run (w : Hierarchy) (ok : State → Action → Prop) : State → Prop
  | start : Run w ok State.start
  | step {s t : State} (a : Action) (h : Run w ok s) (hok : ok s a) (hstep : s.step w a = some t) : Run w ok t

end WinArmVm.Exceptions
