import Mathlib.Data.List.Basic

namespace WinArmVm

/-- A descriptor number in use; `opening` tells the uses of one number apart. -/
structure Socket (β : Type) where
  opening : Nat
  listening : Bool
  /-- Its read event is registered with the kqueue, until it is closed. -/
  watched : Bool
  unread : List β
  /-- The peer will write no more. -/
  closed : Bool
  backlog : Nat
  packets : List (List β × List Nat × Nat)
deriving DecidableEq

/-- `numbers` are the descriptor numbers the operating system gives out next. -/
structure Kernel (β : Type) where
  sockets : Nat → Option (Socket β)
  numbers : List Nat
  openings : Nat

structure KEvent where
  ident : Nat
  filter : Int
  data : Nat
  flags : Nat
deriving DecidableEq

/-- What a batch carries. -/
inductive Io (β : Type)
  | data (fd : Nat) (bytes : List β) (eof : Bool)
  | accept (listener newFd : Nat)
  | datagram (fd : Nat) (bytes : List β) (octets : List Nat) (port : Nat)
deriving DecidableEq

def EVFILT_READ : Int := -1

def EV_EOF : Nat := 32768

def PAGE : Nat := 4096

namespace Socket

variable {β : Type}

def fresh (opening : Nat) (listening : Bool) : Socket β := ⟨opening, listening, false, [], false, 0, []⟩

def event (s : Socket β) (fd : Nat) : Option KEvent :=
  if s.listening then if s.backlog = 0 then none else some ⟨fd, EVFILT_READ, s.backlog, 0⟩
  else if s.packets ≠ [] then some ⟨fd, EVFILT_READ, (s.packets.headD ([], [], 0)).1.length, 0⟩
  else if s.unread = [] ∧ s.closed = false then none
  else some ⟨fd, EVFILT_READ, s.unread.length, if s.closed then EV_EOF else 0⟩

end Socket

namespace Kernel

variable {β : Type}

def set (k : Kernel β) (fd : Nat) (s : Option (Socket β)) : Kernel β :=
  { k with sockets := fun n => if n = fd then s else k.sockets n }

@[simp] theorem set_self (k : Kernel β) (fd : Nat) (s : Option (Socket β)) : (k.set fd s).sockets fd = s := if_pos rfl

theorem set_ne (k : Kernel β) {fd n : Nat} (s : Option (Socket β)) (h : n ≠ fd) :
    (k.set fd s).sockets n = k.sockets n :=
  if_neg h

/-- `read`, none being a negative return. -/
def read (k : Kernel β) (fd n : Nat) : Option (List β) × Kernel β :=
  match k.sockets fd with
  | none => (none, k)
  | some s =>
    if s.listening then (none, k)
    else (some (s.unread.take n), k.set fd (some { s with unread := s.unread.drop n }))

def handOut (k : Kernel β) (listening : Bool) : Option (Nat × Kernel β) :=
  match k.numbers with
  | [] => none
  | n :: ns =>
    if (k.sockets n).isSome then none
    else some (n, { k.set n (some (Socket.fresh k.openings listening)) with numbers := ns, openings := k.openings + 1 })

def acceptOn (k : Kernel β) (listener : Nat) : Option Nat × Kernel β :=
  match k.sockets listener with
  | none => (none, k)
  | some s =>
    if s.listening && s.backlog ≠ 0 then
      match (k.set listener (some { s with backlog := s.backlog - 1 })).handOut false with
      | none => (none, k)
      | some (n, k) => (some n, k)
    else (none, k)

/-- `recvfrom` takes one datagram, cut to `n`. -/
def recvfrom (k : Kernel β) (fd n : Nat) : Option (List β × List Nat × Nat) × Kernel β :=
  match k.sockets fd with
  | none => (none, k)
  | some s =>
    match s.packets with
    | [] => (none, k)
    | (bytes, octets, port) :: rest =>
      (some (bytes.take n, octets, port), k.set fd (some { s with packets := rest }))

def poll (k : Kernel β) (ready : List Nat) : List KEvent := ready.dedup.filterMap fun fd =>
    (k.sockets fd).bind fun s => if s.watched then s.event fd else none

end Kernel

structure IoServer where
  accepting : Nat → Bool
  datagrams : Nat → Bool

namespace IoServer

variable {β : Type}

def drainData (e : KEvent) (k : Kernel β) : Io β × Kernel β :=
  let n := min e.data PAGE
  let eof := decide (EV_EOF ≤ e.flags)
  if 0 < n then
    match k.read e.ident n with
    | (some bytes, k) => (.data e.ident bytes eof, k)
    | (none, k) => (.data e.ident [] eof, k)
  else (.data e.ident [] eof, k)

def drainDatagram (e : KEvent) (k : Kernel β) : Io β × Kernel β :=
  let n := min e.data 2048
  if 0 < n then
    match k.recvfrom e.ident n with
    | (some (bytes, octets, port), k) => (.datagram e.ident bytes octets port, k)
    | (none, k) => (.datagram e.ident [] [0, 0, 0, 0] 0, k)
  else (.datagram e.ident [] [0, 0, 0, 0] 0, k)

def drainAccepts (listener : Nat) : Nat → Kernel β → List (Io β) × Kernel β
  | 0, k => ([], k)
  | n + 1, k =>
    match k.acceptOn listener with
    | (some newFd, k) => ((Io.accept listener newFd) :: (drainAccepts listener n k).1, (drainAccepts listener n k).2)
    | (none, k) => drainAccepts listener n k

def drainEvent (w : IoServer) (e : KEvent) (k : Kernel β) : List (Io β) × Kernel β :=
  if e.filter ≠ EVFILT_READ then ([], k)
  else if w.accepting e.ident then drainAccepts e.ident e.data k
  else if w.datagrams e.ident then ([(drainDatagram e k).1], (drainDatagram e k).2)
  else ([(drainData e k).1], (drainData e k).2)

def drainEvents (w : IoServer) : List KEvent → Kernel β → List (Io β) × Kernel β
  | [], k => ([], k)
  | e :: es, k =>
    ((drainEvent w e k).1 ++ (drainEvents w es (drainEvent w e k).2).1, (drainEvents w es (drainEvent w e k).2).2)

def drain (w : IoServer) (ready : List Nat) (k : Kernel β) : List (Io β) × Kernel β := drainEvents w (k.poll ready) k

end IoServer

end WinArmVm
