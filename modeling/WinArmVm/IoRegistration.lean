import WinArmVm.IoWorker

namespace WinArmVm

/-- The three ways to watch a descriptor. -/
inductive IoKind
  | read
  | accept
  | datagram
deriving DecidableEq

/-- What the primary sends the worker. -/
inductive IoRequest
  | watch (kind : IoKind) (fd : Nat)
  | unwatch (kind : IoKind) (fd : Nat)
  | pump
deriving DecidableEq

/-- What the peers of a descriptor do. -/
inductive Arrival (β : Type)
  | bytes (bytes : List β)
  | hangUp
  | connection
  | packet (packet : List β × List Nat × Nat)

def Io.kind {β : Type} : Io β → IoKind
  | .data .. => .read
  | .accept .. => .accept
  | .datagram .. => .datagram

def Io.fd {β : Type} : Io β → Nat
  | .data fd .. => fd
  | .accept listener _ => listener
  | .datagram fd .. => fd

namespace Socket

variable {β : Type}

def arrive (s : Socket β) : Arrival β → Socket β
  | .bytes bytes => { s with unread := s.unread ++ bytes }
  | .hangUp => { s with closed := true }
  | .connection => { s with backlog := s.backlog + 1 }
  | .packet packet => { s with packets := s.packets ++ [packet] }

def use (s : Socket β) : Nat × Bool := (s.opening, s.watched)

theorem arrive_use (s : Socket β) (a : Arrival β) : (s.arrive a).use = s.use := by
  cases a <;> rfl

end Socket

namespace Kernel

variable {β : Type}

def use (k : Kernel β) (fd : Nat) : Option (Nat × Bool) := (k.sockets fd).map Socket.use

def opening (k : Kernel β) (fd : Nat) : Option Nat := (k.use fd).map Prod.fst

def onOpen (k : Kernel β) (fd : Nat) (f : Socket β → Socket β) : Kernel β :=
  match k.sockets fd with
  | none => k
  | some s => k.set fd (some (f s))

def watchRead (k : Kernel β) (fd : Nat) : Kernel β := k.onOpen fd fun s => { s with watched := true }

def unwatchRead (k : Kernel β) (fd : Nat) : Kernel β := k.onOpen fd fun s => { s with watched := false }

def arrive (k : Kernel β) (fd : Nat) (a : Arrival β) : Kernel β := k.onOpen fd fun s => s.arrive a

def close (k : Kernel β) (fd : Nat) : Kernel β := k.set fd none

end Kernel

namespace IoServer

variable {β : Type}

/-- Only listeners and datagram sockets are marked. -/
def mark (w : IoServer) (kind : IoKind) (fd : Nat) (b : Bool) : IoServer :=
  match kind with
  | .read => w
  | .accept => { w with accepting := fun n => if n = fd then b else w.accepting n }
  | .datagram => { w with datagrams := fun n => if n = fd then b else w.datagrams n }

def watchReadFd (w : IoServer) (k : Kernel β) (fd : Nat) : IoServer × Kernel β := (w.mark .read fd true, k.watchRead fd)

def unwatchReadFd (w : IoServer) (k : Kernel β) (fd : Nat) : IoServer × Kernel β :=
  (w.mark .read fd false, k.unwatchRead fd)

def watchAcceptFd (w : IoServer) (k : Kernel β) (fd : Nat) : IoServer × Kernel β :=
  (w.mark .accept fd true, k.watchRead fd)

def unwatchAcceptFd (w : IoServer) (k : Kernel β) (fd : Nat) : IoServer × Kernel β :=
  (w.mark .accept fd false, k.unwatchRead fd)

def watchDatagramFd (w : IoServer) (k : Kernel β) (fd : Nat) : IoServer × Kernel β :=
  (w.mark .datagram fd true, k.watchRead fd)

def unwatchDatagramFd (w : IoServer) (k : Kernel β) (fd : Nat) : IoServer × Kernel β :=
  (w.mark .datagram fd false, k.unwatchRead fd)

/-- `handle:` of a request other than a pump. -/
def handle (w : IoServer) (k : Kernel β) : IoRequest → IoServer × Kernel β
  | .watch .read fd => w.watchReadFd k fd
  | .watch .accept fd => w.watchAcceptFd k fd
  | .watch .datagram fd => w.watchDatagramFd k fd
  | .unwatch .read fd => w.unwatchReadFd k fd
  | .unwatch .accept fd => w.unwatchAcceptFd k fd
  | .unwatch .datagram fd => w.unwatchDatagramFd k fd
  | .pump => (w, k)

end IoServer

structure Tuple (β : Type) where
  io : Io β
  source : Option Nat
deriving DecidableEq

structure Registration where
  block : Nat
  opening : Option Nat
deriving DecidableEq

structure Firing (β : Type) where
  registration : Registration
  tuple : Tuple β
deriving DecidableEq

/-- The primary, its I/O worker and the operating system under both. A request in the inbox comes
with the opening its number denoted when it was sent. `draining` is what is left of the events of a
poll, and the results so far; `marked`, `drained`, `fired` and `accepts` only record. -/
structure IoSystem (β : Type) where
  kernel : Kernel β
  server : IoServer
  inbox : List (IoRequest × Option Nat)
  draining : Option (List KEvent × List (Tuple β))
  replies : List (List (Tuple β))
  /-- The rest of the batch that is being delivered. -/
  batch : List (Tuple β)
  handlers : IoKind → Nat → Option Registration
  /-- The opening for which a number was marked as a listener. -/
  marked : Nat → Option Nat
  drained : List (Tuple β)
  fired : List (Firing β)
  /-- Each call of accept: the opening that was marked, and the one it was made on. -/
  accepts : List (Option Nat × Option Nat)

/-- `ready` is what the poll of a pump finds. -/
inductive IoStep (β : Type)
  | watch (kind : IoKind) (fd block : Nat)
  | unwatch (kind : IoKind) (fd : Nat)
  | pumpOnce
  | openFd (listening : Bool)
  | close (fd : Nat)
  | arrive (fd : Nat) (a : Arrival β)
  | handle (ready : List Nat)
  | drain
  | receive
  | deliver

namespace IoSystem

variable {β : Type}

def register (s : IoSystem β) (kind : IoKind) (fd : Nat) (r : Option Registration) (req : IoRequest) : IoSystem β :=
  { s with
    handlers := fun κ n => if κ = kind ∧ n = fd then r else s.handlers κ n
    inbox := s.inbox ++ [(req, s.kernel.opening fd)] }

/-- `watchRead:onData:`, `watchAccept:onConnection:` and `watchDatagram:onPacket:`. -/
def watch (s : IoSystem β) (kind : IoKind) (fd block : Nat) : IoSystem β :=
  s.register kind fd (some ⟨block, s.kernel.opening fd⟩) (.watch kind fd)

def unwatch (s : IoSystem β) (kind : IoKind) (fd : Nat) : IoSystem β := s.register kind fd none (.unwatch kind fd)

/-- The worker dispatches a request that was sent when the number denoted `o`. -/
def handle (s : IoSystem β) (ready : List Nat) (o : Option Nat) : IoRequest → IoSystem β
  | .pump => { s with draining := some (s.kernel.poll ready, []) }
  | .watch .accept fd => { s with
      server := (s.server.handle s.kernel (.watch .accept fd)).1
      kernel := (s.server.handle s.kernel (.watch .accept fd)).2
      marked := fun n => if n = fd then o else s.marked n }
  | req => { s with
      server := (s.server.handle s.kernel req).1
      kernel := (s.server.handle s.kernel req).2 }

def yield (s : IoSystem β) (es : List KEvent) (results : List (Tuple β)) (t : Tuple β) (k : Kernel β) : IoSystem β :=
  { s with kernel := k, draining := some (es, results ++ [t]), drained := s.drained ++ [t] }

/-- One accept of `drainAccepts:into:`, with `n` to come after it. -/
def acceptOnce (s : IoSystem β) (e : KEvent) (n : Nat) (es : List KEvent) (results : List (Tuple β)) : IoSystem β :=
  let s := { s with accepts := s.accepts ++ [(s.marked e.ident, s.kernel.opening e.ident)] }
  match s.kernel.acceptOn e.ident with
  | (some newFd, k) =>
    s.yield ({ e with data := n } :: es) results ⟨.accept e.ident newFd, s.kernel.opening e.ident⟩ k
  | (none, k) => { s with kernel := k, draining := some ({ e with data := n } :: es, results) }

/-- The next event of `drain:`; a loop of accepts is taken one by one. -/
def drainEvent (s : IoSystem β) (e : KEvent) (es : List KEvent) (results : List (Tuple β)) : IoSystem β :=
  if e.filter ≠ EVFILT_READ then { s with draining := some (es, results) }
  else if s.server.accepting e.ident then
    match e.data with
    | 0 => { s with draining := some (es, results) }
    | n + 1 => s.acceptOnce e n es results
  else if s.server.datagrams e.ident then
    s.yield es results ⟨(IoServer.drainDatagram e s.kernel).1, s.kernel.opening e.ident⟩ (IoServer.drainDatagram e s.kernel).2
  else
    s.yield es results ⟨(IoServer.drainData e s.kernel).1, s.kernel.opening e.ident⟩ (IoServer.drainData e s.kernel).2

/-- `deliver:` for one tuple. -/
def dispatch (s : IoSystem β) (t : Tuple β) : IoSystem β :=
  match s.handlers t.io.kind t.io.fd with
  | none => s
  | some r => { s with fired := s.fired ++ [⟨r, t⟩] }

/-- None where the step cannot happen. -/
def exec (s : IoSystem β) : IoStep β → Option (IoSystem β)
  | .watch kind fd block => some (s.watch kind fd block)
  | .unwatch kind fd => some (s.unwatch kind fd)
  | .pumpOnce => some { s with inbox := s.inbox ++ [(.pump, none)] }
  | .openFd listening => (s.kernel.handOut listening).map fun r => { s with kernel := r.2 }
  | .close fd => some { s with kernel := s.kernel.close fd }
  | .arrive fd a => some { s with kernel := s.kernel.arrive fd a }
  | .handle ready =>
    match s.draining, s.inbox with
    | none, (req, o) :: inbox => some ({ s with inbox := inbox }.handle ready o req)
    | _, _ => none
  | .drain =>
    match s.draining with
    | none => none
    | some ([], results) => some { s with draining := none, replies := s.replies ++ [results] }
    | some (e :: es, results) => some (s.drainEvent e es results)
  | .receive =>
    match s.batch, s.replies with
    | [], batch :: replies => some { s with batch := batch, replies := replies }
    | _, _ => none
  | .deliver =>
    match s.batch with
    | [] => none
    | t :: batch => some ({ s with batch := batch }.dispatch t)

def run (s : IoSystem β) : List (IoStep β) → Option (IoSystem β)
  | [] => some s
  | e :: es => (s.exec e).bind fun t => t.run es

structure Initial (s : IoSystem β) : Prop where
  inbox : s.inbox = []
  draining : s.draining = none
  replies : s.replies = []
  batch : s.batch = []
  handlers : ∀ kind n, s.handlers kind n = none
  accepting : ∀ n, s.server.accepting n = false
  fired : s.fired = []
  accepts : s.accepts = []

def readFrom (s : IoSystem β) (o : Nat) : List (Io β) :=
  (s.drained.filter fun t => t.io.kind = .read ∧ t.source = some o).map Tuple.io

def handed (s : IoSystem β) (o : Nat) : List (Io β) :=
  (((s.fired.map Firing.tuple).filter fun t => t.io.kind = .read ∧ t.source = some o)).map Tuple.io

/-- What is read from an opening goes to continuations of that opening, in order and at most once,
and no opening is taken for a listener that was watched under the same number before. -/
structure Owned (s : IoSystem β) : Prop where
  own : ∀ f ∈ s.fired, f.tuple.io.kind = .read → ∀ o, f.tuple.source = some o → f.registration.opening = some o
  order : ∀ o, (s.handed o).Sublist (s.readFrom o)
  listener : ∀ a ∈ s.accepts, ∀ o, a.2 = some o → a.1 = some o

def events (s : IoSystem β) : List KEvent := (s.draining.map Prod.fst).getD []

def inFlight (s : IoSystem β) : List (Tuple β) := s.batch ++ s.replies.flatten ++ (s.draining.map Prod.snd).getD []

end IoSystem

end WinArmVm
