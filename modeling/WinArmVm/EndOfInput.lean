import Mathlib.Data.List.Dedup
import WinArmVm.IoStream
import WinArmVm.IoWorker

namespace WinArmVm

open List Option

def Io.chunk {β : Type} (fd : Nat) : Io β → Option (List β × Bool)
  | .data n bytes eof => if n = fd then some (bytes, eof) else none
  | _ => none

def chunks {β : Type} (fd : Nat) (l : List (Io β)) : List (List β × Bool) := l.filterMap (Io.chunk fd)

namespace Kernel

variable {β : Type}

variable (k : Kernel β)

theorem read_ne {fd m n : Nat} (h : m ≠ fd) : (k.read m n).2.sockets fd = k.sockets fd := by
  unfold read
  split
  next => rfl
  next =>
    split
    next => rfl
    next => exact set_ne k _ (Ne.symm h)

theorem recvfrom_ne {fd m n : Nat} (h : m ≠ fd) : (k.recvfrom m n).2.sockets fd = k.sockets fd := by
  unfold recvfrom
  split
  next => rfl
  next =>
    split
    next => rfl
    next => exact set_ne k _ (Ne.symm h)

theorem handOut_used {k k' : Kernel β} {fd n : Nat} {b : Bool} (hfd : (k.sockets fd).isSome)
    (h : k.handOut b = some (n, k')) : k'.sockets fd = k.sockets fd := by
  unfold handOut at h
  split at h
  next => cases h
  next m ns _ =>
    obtain ⟨hfree, h⟩ := ite_none_left_eq_some.mp h
    cases h
    apply set_ne
    rintro rfl
    exact hfree hfd

theorem acceptOn_ne {fd m : Nat} (h : m ≠ fd) (hfd : (k.sockets fd).isSome) :
    (k.acceptOn m).2.sockets fd = k.sockets fd := by
  unfold acceptOn
  split
  next => rfl
  next s _ =>
    split
    next =>
      have hset : (k.set m (some { s with backlog := s.backlog - 1 })).sockets fd = k.sockets fd :=
        set_ne k _ (Ne.symm h)
      split
      next => rfl
      next hout => exact (handOut_used (hset ▸ hfd) hout).trans hset
    next => rfl

end Kernel

namespace IoServer

variable {β : Type} {w : IoServer} {k : Kernel β} {fd : Nat}

theorem drainAccepts_ne {listener : Nat} (h : listener ≠ fd) : ∀ (n : Nat) {k : Kernel β}, (k.sockets fd).isSome →
    (drainAccepts listener n k).2.sockets fd = k.sockets fd ∧ chunks fd (drainAccepts listener n k).1 = [] := by
  intro n
  induction n with
  | zero => intro k _; exact ⟨rfl, rfl⟩
  | succ n ih =>
    intro k hfd
    have hacc := k.acceptOn_ne h hfd
    unfold drainAccepts
    split
    next newFd k' heq =>
      rw [heq] at hacc
      obtain ⟨hk, hc⟩ := ih (k := k') (hacc ▸ hfd)
      exact ⟨hk.trans hacc, hc⟩
    next k' heq =>
      rw [heq] at hacc
      obtain ⟨hk, hc⟩ := ih (k := k') (hacc ▸ hfd)
      exact ⟨hk.trans hacc, hc⟩

variable {e : KEvent} {s : Socket β}

theorem drainEvent_ne (h : e.ident ≠ fd) (hfd : (k.sockets fd).isSome) :
    (w.drainEvent e k).2.sockets fd = k.sockets fd ∧ chunks fd (w.drainEvent e k).1 = [] := by
  unfold drainEvent
  split
  next => exact ⟨rfl, rfl⟩
  next =>
    split
    next => exact drainAccepts_ne h _ hfd
    next =>
      split
      next =>
        unfold drainDatagram
        have hrecv := k.recvfrom_ne (n := min e.data 2048) h
        dsimp only
        split
        next =>
          split
          next heq =>
            rw [heq] at hrecv
            exact ⟨hrecv, rfl⟩
          next heq =>
            rw [heq] at hrecv
            exact ⟨hrecv, rfl⟩
        next => exact ⟨rfl, rfl⟩
      next =>
        unfold drainData
        have hread := k.read_ne (n := min e.data PAGE) h
        dsimp only
        split
        next =>
          split
          next heq =>
            rw [heq] at hread
            exact ⟨hread, by simp [chunks, Io.chunk, h]⟩
          next heq =>
            rw [heq] at hread
            exact ⟨hread, by simp [chunks, Io.chunk, h]⟩
        next => exact ⟨rfl, by simp [chunks, Io.chunk, h]⟩

theorem chunks_append (l l' : List (Io β)) : chunks fd (l ++ l') = chunks fd l ++ chunks fd l' := filterMap_append ..

theorem drainEvents_ne : ∀ (es : List KEvent) {k : Kernel β}, (∀ e ∈ es, e.ident ≠ fd) → (k.sockets fd).isSome →
    (w.drainEvents es k).2.sockets fd = k.sockets fd ∧ chunks fd (w.drainEvents es k).1 = [] := by
  intro es
  induction es with
  | nil => intro k _ _; exact ⟨rfl, rfl⟩
  | cons e es ih =>
    intro k hes hfd
    obtain ⟨hk, hc⟩ := drainEvent_ne (w := w) (hes e (mem_cons_self ..)) hfd
    obtain ⟨hk', hc'⟩ := ih (k := (w.drainEvent e k).2) (fun e' he' => hes e' (mem_cons_of_mem _ he')) (hk ▸ hfd)
    refine ⟨hk'.trans hk, ?_⟩
    show chunks fd ((w.drainEvent e k).1 ++ (w.drainEvents es (w.drainEvent e k).2).1) = []
    rw [chunks_append, hc, hc']
    rfl

theorem drainEvents_append : ∀ (es es' : List KEvent) (k : Kernel β), w.drainEvents (es ++ es') k =
      ((w.drainEvents es k).1 ++ (w.drainEvents es' (w.drainEvents es k).2).1,
        (w.drainEvents es' (w.drainEvents es k).2).2) := by
  intro es
  induction es with
  | nil => intro es' k; rfl
  | cons e es ih =>
    intro es' k
    show ((w.drainEvent e k).1 ++ (w.drainEvents (es ++ es') _).1, (w.drainEvents (es ++ es') _).2) = _
    rw [ih]
    simp [drainEvents]

theorem drainEvent_data (ha : w.accepting fd = false) (hd : w.datagrams fd = false)
    (hs : k.sockets fd = some s) (hl : s.listening = false) (hp : s.packets = []) (he : s.event fd = some e) :
    (w.drainEvent e k).2.sockets fd = some { s with unread := s.unread.drop PAGE } ∧
      chunks fd (w.drainEvent e k).1 = [(s.unread.take PAGE, s.closed)] := by
  unfold Socket.event at he
  rw [if_neg (by simp [hl]), if_neg (by simp [hp])] at he
  obtain ⟨hready, he⟩ := ite_none_left_eq_some.mp he
  cases he
  have heof : decide (EV_EOF ≤ if s.closed = true then EV_EOF else 0) = s.closed := by
    cases s.closed <;> rfl
  unfold drainEvent
  rw [if_neg (by simp), if_neg (by simp [ha]), if_neg (by simp [hd])]
  unfold drainData
  rw [heof]
  rcases Nat.eq_zero_or_pos s.unread.length with hz | hpos
  · rw [if_neg (by rw [hz]; simp)]
    have hnil : s.unread = [] := length_eq_zero_iff.mp hz
    have hsame : { s with unread := s.unread.drop PAGE } = s := by
      obtain ⟨_, _, _, unread, _, _, _⟩ := s
      cases hnil
      rfl
    exact ⟨by rw [hs, hsame], by simp [chunks, Io.chunk, hnil]⟩
  · have hmin : 0 < min s.unread.length PAGE := Nat.lt_min.mpr ⟨hpos, by decide⟩
    have htake : s.unread.take (min s.unread.length PAGE) = s.unread.take PAGE := by
      rcases Nat.le_total s.unread.length PAGE with hle | hle
      · rw [Nat.min_eq_left hle, take_length, take_of_length_le hle]
      · rw [Nat.min_eq_right hle]
    have hdrop : s.unread.drop (min s.unread.length PAGE) = s.unread.drop PAGE := by
      rcases Nat.le_total s.unread.length PAGE with hle | hle
      · rw [Nat.min_eq_left hle, drop_length, drop_of_length_le hle]
      · rw [Nat.min_eq_right hle]
    have hread : k.read fd (min s.unread.length PAGE) =
        (some (s.unread.take PAGE), k.set fd (some { s with unread := s.unread.drop PAGE })) := by
      unfold Kernel.read
      rw [hs]
      dsimp only
      rw [if_neg (by simp [hl]), htake, hdrop]
    rw [if_pos hmin, hread]
    exact ⟨Kernel.set_self .., by simp [chunks, Io.chunk]⟩

theorem ident_of_event {n : Nat} (h : s.event n = some e) : e.ident = n := by
  unfold Socket.event at h
  split at h
  next =>
    split at h
    next => cases h
    next => cases h; rfl
  next =>
    split at h
    next => cases h; rfl
    next =>
      split at h
      next => cases h
      next => cases h; rfl

def found (k : Kernel β) (n : Nat) : Option KEvent := (k.sockets n).bind fun s => if s.watched then s.event n else none

theorem ident_of_found {n : Nat} (h : found k n = some e) : e.ident = n := by
  obtain ⟨s, _, h⟩ := bind_eq_some_iff.mp h
  split at h
  next => exact ident_of_event h
  next => cases h

theorem drain_spec (ha : w.accepting fd = false) (hd : w.datagrams fd = false)
    (hs : k.sockets fd = some s) (hl : s.listening = false) (hp : s.packets = []) (hw : s.watched = true)
    (ready : List Nat) :
    (fd ∈ ready ∧ (s.event fd).isSome = true ∧
      (w.drain ready k).2.sockets fd = some { s with unread := s.unread.drop PAGE } ∧
      chunks fd (w.drain ready k).1 = [(s.unread.take PAGE, s.closed)]) ∨
    ((fd ∉ ready ∨ s.event fd = none) ∧
      (w.drain ready k).2.sockets fd = k.sockets fd ∧ chunks fd (w.drain ready k).1 = []) := by
  have hfd : (k.sockets fd).isSome := by rw [hs]; rfl
  have hpoll : k.poll ready = ready.dedup.filterMap (found k) := rfl
  have hother : ∀ l : List Nat, fd ∉ l → ∀ e ∈ l.filterMap (found k), e.ident ≠ fd := by
    intro l hl e he
    obtain ⟨n, hn, hf⟩ := mem_filterMap.mp he
    rw [ident_of_found hf]
    rintro rfl
    exact hl hn
  have hfound : found k fd = s.event fd := by
    unfold found
    rw [hs, bind_some, if_pos hw]
  by_cases hmem : fd ∈ ready
  · obtain ⟨pre, post, hsplit⟩ := append_of_mem (mem_dedup.mpr hmem)
    have hnodup := nodup_dedup ready
    rw [hsplit] at hnodup
    have hmid := nodup_middle.mp hnodup
    have hnot := (nodup_cons.mp hmid).1
    have hpre : fd ∉ pre := fun h => hnot (mem_append_left _ h)
    have hpost : fd ∉ post := fun h => hnot (mem_append_right _ h)
    unfold drain
    rw [hpoll, hsplit, filterMap_append, drainEvents_append]
    obtain ⟨hk, hc⟩ := drainEvents_ne (w := w) _ (hother pre hpre) hfd
    cases he : s.event fd with
    | none =>
      right
      rw [filterMap_cons_none (hfound.trans he)]
      obtain ⟨hk', hc'⟩ := drainEvents_ne (w := w) _ (hother post hpost) (hk ▸ hfd)
      refine ⟨.inr rfl, hk'.trans hk, ?_⟩
      rw [chunks_append, hc, hc']
      rfl
    | some e =>
      left
      rw [filterMap_cons_some (hfound.trans he)]
      obtain ⟨hk', hc'⟩ := drainEvent_data (w := w) ha hd (hk.trans hs) hl hp he
      obtain ⟨hk'', hc''⟩ := drainEvents_ne (w := w) _ (hother post hpost) (by rw [hk']; rfl)
      refine ⟨hmem, rfl, hk''.trans hk', ?_⟩
      rw [chunks_append, hc]
      show chunks fd ((w.drainEvent e _).1 ++ (w.drainEvents _ _).1) = _
      rw [chunks_append, hc', hc'']
      rfl
  · right
    unfold drain
    rw [hpoll]
    obtain ⟨hk, hc⟩ := drainEvents_ne (w := w) _ (hother ready.dedup fun h => hmem (mem_dedup.mp h)) hfd
    exact ⟨.inl hmem, hk, hc⟩

end IoServer

/-- One descriptor from its peer to the requests of its stream. `wire` holds the tuples that were
drained and not dispatched yet, `written` all that the peer wrote. -/
structure Feed (σ : Type) where
  kernel : Kernel UInt8
  server : IoServer
  wire : List (Io UInt8)
  delivered : List (Io UInt8)
  reader : Reader σ
  written : List UInt8

/-- `elsewhere` is whatever happens to the other descriptors. -/
inductive FeedEvent
  | write (bytes : List UInt8)
  | close
  | elsewhere (kernel : Kernel UInt8) (server : IoServer)
  | drain (ready : List Nat)
  | deliver (fuel : Nat)
  | request (req : Request) (fuel : Nat)

namespace Feed

variable {σ : Type} (code : UserCode σ) (fd : Nat)

/-- None where the event cannot happen, or a block keeps the service loop going beyond its fuel. -/
def exec (s : Feed σ) : FeedEvent → Option (Feed σ)
  | .write bytes =>
    match s.kernel.sockets fd with
    | none => none
    | some sock =>
      if sock.closed then none
      else some { s with
        kernel := s.kernel.set fd (some { sock with unread := sock.unread ++ bytes })
        written := s.written ++ bytes }
  | .close =>
    match s.kernel.sockets fd with
    | none => none
    | some sock => some { s with kernel := s.kernel.set fd (some { sock with closed := true }) }
  | .elsewhere kernel server =>
    if kernel.sockets fd = s.kernel.sockets fd ∧ server.accepting fd = s.server.accepting fd ∧
      server.datagrams fd = s.server.datagrams fd then some { s with kernel := kernel, server := server }
    else none
  | .drain ready =>
    some { s with
      kernel := (s.server.drain ready s.kernel).2
      wire := s.wire ++ (s.server.drain ready s.kernel).1 }
  | .deliver fuel =>
    match s.wire with
    | [] => none
    | io :: wire =>
      match io.chunk fd with
      | none => some { s with wire := wire, delivered := s.delivered ++ [io] }
      | some (bytes, eof) =>
        (s.reader.deliverData code fuel bytes eof).map fun r =>
          { s with wire := wire, delivered := s.delivered ++ [io], reader := r }
  | .request req fuel => (s.reader.enqueue code fuel req).map fun r => { s with reader := r }

def run (s : Feed σ) : List FeedEvent → Option (Feed σ)
  | [] => some s
  | e :: es => (s.exec code fd e).bind fun t => t.run es

/-- The descriptor was just opened and is watched for data; nothing is known of the others. -/
structure Start (s : Feed σ) : Prop where
  socket : ∃ o, s.kernel.sockets fd = some { Socket.fresh o false with watched := true }
  accepting : s.server.accepting fd = false
  datagrams : s.server.datagrams fd = false
  wire : s.wire = []
  delivered : s.delivered = []
  stream : s.reader.stream = IoStream.new
  fired : s.reader.fired = []
  written : s.written = []

def drained (s : Feed σ) : List (List UInt8 × Bool) := chunks fd (s.delivered ++ s.wire)

/-- The peer has closed after writing just `bytes`. -/
def Whole (s : Feed σ) (bytes : List UInt8) : Prop :=
  bytes = s.written ∧ ∃ sock, s.kernel.sockets fd = some sock ∧ sock.closed = true

/-- The chunks up to the first one flagged eof are the whole input; every request got what it asked
for at its place, and one that fell short took the input to its end. -/
structure EndLast (s : Feed σ) : Prop where
  chunks : ∀ pre bytes post, s.drained fd = pre ++ (bytes, true) :: post → (∀ c ∈ pre, c.2 = false) →
    s.Whole fd ((pre.map Prod.fst).flatten ++ bytes)
  fired : ∀ pre f post, s.reader.fired = pre ++ f :: post →
    f.Answers ∧ f.before = (pre.map Fired.taken).flatten ∧ (f.Short → s.Whole fd (f.before ++ f.taken))

def Meets (s : Feed σ) : FeedEvent → Prop
  | .drain ready => fd ∈ ready → ∀ sock, s.kernel.sockets fd = some sock → sock.closed = true →
      sock.unread.length ≤ PAGE
  | _ => True

def RunMeets (s : Feed σ) : List FeedEvent → Prop
  | [] => True
  | e :: es => s.Meets fd e ∧ ∀ t, s.exec code fd e = some t → t.RunMeets es

variable {code fd} {s t : Feed σ} {sock : Socket UInt8} {e : FeedEvent}

structure Watched (fd : Nat) (s : Feed σ) (sock : Socket UInt8) : Prop where
  socket : s.kernel.sockets fd = some sock
  listening : sock.listening = false
  packets : sock.packets = []
  watched : sock.watched = true
  accepting : s.server.accepting fd = false
  datagrams : s.server.datagrams fd = false

structure Moves (fd : Nat) (s t : Feed σ) (sock sock' : Socket UInt8) (more : List (List UInt8 × Bool))
    (bytes : List UInt8) : Prop where
  watched : Watched fd t sock'
  drained : t.drained fd = s.drained fd ++ more
  written : t.written = s.written ++ bytes
  kept : (more.map Prod.fst).flatten ++ sock'.unread = sock.unread ++ bytes
  closed : sock.closed = true → sock'.closed = true ∧ bytes = []
  single : more = [] ∨ more = [(sock.unread.take PAGE, sock.closed)] ∧ sock' = { sock with unread := sock.unread.drop PAGE }

theorem moves (h : Watched fd s sock) (hx : s.exec code fd e = some t) :
    ∃ sock' more bytes, Moves fd s t sock sock' more bytes ∧
      (more ≠ [] ↔ ∃ ready, e = .drain ready ∧ fd ∈ ready ∧ (sock.event fd).isSome = true) := by
  obtain ⟨hs, hl, hp, hw, ha, hd⟩ := h
  cases e with
  | write bytes =>
    simp only [exec, hs] at hx
    obtain ⟨hc, hx⟩ := ite_none_left_eq_some.mp hx
    cases hx
    refine ⟨{ sock with unread := sock.unread ++ bytes }, [], bytes, ⟨⟨Kernel.set_self .., hl, hp, hw, ha, hd⟩,
      (append_nil _).symm, rfl, rfl, fun h => absurd h hc, .inl rfl⟩, by simp⟩
  | close =>
    simp only [exec, hs] at hx
    cases some.inj hx
    exact ⟨{ sock with closed := true }, [], [], ⟨⟨Kernel.set_self .., hl, hp, hw, ha, hd⟩,
      (append_nil _).symm, (append_nil _).symm, (append_nil _).symm, fun _ => ⟨rfl, rfl⟩,
      .inl rfl⟩, by simp⟩
  | elsewhere kernel server =>
    simp only [exec] at hx
    obtain ⟨hsame, hx⟩ := ite_none_right_eq_some.mp hx
    cases hx
    exact ⟨sock, [], [], ⟨⟨hsame.1.trans hs, hl, hp, hw, hsame.2.1.trans ha, hsame.2.2.trans hd⟩,
      (append_nil _).symm, (append_nil _).symm, (append_nil _).symm, fun h => ⟨h, rfl⟩,
      .inl rfl⟩, by simp⟩
  | drain ready =>
    cases hx
    have hdrained : ∀ k server wire, ({ s with kernel := k, server := server, wire := s.wire ++ wire } : Feed σ).drained fd =
        s.drained fd ++ chunks fd wire := by
      intro k server wire
      show chunks fd (s.delivered ++ (s.wire ++ wire)) = _
      rw [← append_assoc, IoServer.chunks_append]
      rfl
    rcases IoServer.drain_spec ha hd hs hl hp hw ready with ⟨hmem, hev, hk, hc⟩ | ⟨hno, hk, hc⟩
    · refine ⟨{ sock with unread := sock.unread.drop PAGE }, [(sock.unread.take PAGE, sock.closed)], [],
        ⟨⟨hk, hl, hp, hw, ha, hd⟩, ?_, (append_nil _).symm, ?_, fun h => ⟨h, rfl⟩, .inr ⟨rfl, rfl⟩⟩,
        iff_of_true (cons_ne_nil _ _) ⟨ready, rfl, hmem, hev⟩⟩
      · rw [hdrained, hc]
      · simp
    · refine ⟨sock, [], [], ⟨⟨hk.trans hs, hl, hp, hw, ha, hd⟩, ?_, (append_nil _).symm,
        (append_nil _).symm, fun h => ⟨h, rfl⟩, .inl rfl⟩, iff_of_false (fun h => h rfl) ?_⟩
      · rw [hdrained, hc]
      · rintro ⟨_, heq, hmem, hev⟩
        cases heq
        rcases hno with hno | hno
        · exact hno hmem
        · rw [hno] at hev
          cases hev
  | deliver fuel =>
    simp only [exec] at hx
    split at hx
    next => cases hx
    next io wire hwire =>
      have hdrained : ∀ reader, ({ s with wire := wire, delivered := s.delivered ++ [io], reader := reader } : Feed σ).drained fd =
          s.drained fd ++ [] := by
        intro reader
        show chunks fd (s.delivered ++ [io] ++ wire) = chunks fd (s.delivered ++ s.wire) ++ []
        rw [hwire, append_assoc, append_nil]
        rfl
      split at hx
      next =>
        cases hx
        exact ⟨sock, [], [], ⟨⟨hs, hl, hp, hw, ha, hd⟩, hdrained s.reader, (append_nil _).symm,
          (append_nil _).symm, fun h => ⟨h, rfl⟩, .inl rfl⟩, by simp⟩
      next =>
        obtain ⟨r, _, rfl⟩ := map_eq_some_iff.mp hx
        exact ⟨sock, [], [], ⟨⟨hs, hl, hp, hw, ha, hd⟩, hdrained r, (append_nil _).symm,
          (append_nil _).symm, fun h => ⟨h, rfl⟩, .inl rfl⟩, by simp⟩
  | request req fuel =>
    obtain ⟨r, _, rfl⟩ := map_eq_some_iff.mp hx
    exact ⟨sock, [], [], ⟨⟨hs, hl, hp, hw, ha, hd⟩, (append_nil _).symm, (append_nil _).symm,
      (append_nil _).symm, fun h => ⟨h, rfl⟩, .inl rfl⟩, by simp⟩

variable {more : List (List UInt8 × Bool)} {sock' : Socket UInt8} {bytes : List UInt8}

theorem Moves.whole (h : Moves fd s t sock sock' more bytes) (hs : s.kernel.sockets fd = some sock) {bs : List UInt8}
    (hb : s.Whole fd bs) : t.Whole fd bs := by
  obtain ⟨rfl, sock₀, hs₀, hc⟩ := hb
  cases (hs.symm.trans hs₀)
  obtain ⟨hc', rfl⟩ := h.closed hc
  exact ⟨by rw [h.written, append_nil], sock', h.watched.socket, hc'⟩

structure Flows (fd : Nat) (s : Feed σ) (sock : Socket UInt8) : Prop where
  watched : Watched fd s sock
  split : ((s.drained fd).map Prod.fst).flatten ++ sock.unread = s.written
  flagged : ∀ pre c post, s.drained fd = pre ++ c :: post → c.2 = true →
    sock.closed = true ∧ sock.unread = [] ∧ (post.map Prod.fst).flatten = []

theorem Flows.after (h : Flows fd s sock) (hm : Moves fd s t sock sock' more bytes)
    (hmeets : more ≠ [] → sock.closed = true → sock.unread.length ≤ PAGE) : Flows fd t sock' := by
  refine ⟨hm.watched, ?_, ?_⟩
  · rw [hm.drained, map_append, flatten_append, append_assoc, hm.kept, ← append_assoc, h.split, hm.written]
  · intro pre c post heq hc
    rw [hm.drained] at heq
    rcases hm.single with hnil | ⟨hmore, hsock⟩
    · rw [hnil, append_nil] at heq
      obtain ⟨hclosed, hunread, hpost⟩ := h.flagged pre c post heq hc
      obtain ⟨hclosed', rfl⟩ := hm.closed hclosed
      have hkept := hm.kept
      rw [hnil, hunread] at hkept
      exact ⟨hclosed', hkept, hpost⟩
    · rw [hmore] at heq
      rcases append_concat_split heq with ⟨rfl, rfl, rfl⟩ | ⟨post', hpost'⟩
      · have hle := hmeets (by rw [hmore]; exact cons_ne_nil _ _) hc
        refine ⟨(hm.closed hc).1, ?_, rfl⟩
        rw [hsock]
        exact drop_of_length_le hle
      · obtain ⟨hclosed, hunread, hflat⟩ := h.flagged pre c post' hpost' hc
        have hpost : post = post' ++ [(sock.unread.take PAGE, sock.closed)] := by
          rw [hpost', append_assoc, cons_append] at heq
          exact (List.cons.inj (append_cancel_left heq)).2.symm
        refine ⟨(hm.closed hclosed).1, by rw [hsock, hunread]; rfl, ?_⟩
        rw [hpost, map_append, flatten_append, hflat, hunread]
        rfl

theorem Flows.whole (h : Flows fd s sock) {l l' : List (List UInt8 × Bool)} (heq : s.drained fd = l ++ l')
    {c : List UInt8 × Bool} (hc : c ∈ l) (hf : c.2 = true) : s.Whole fd ((l.map Prod.fst).flatten) := by
  obtain ⟨pre, post, rfl⟩ := append_of_mem hc
  rw [append_assoc, cons_append] at heq
  obtain ⟨hclosed, hunread, hpost⟩ := h.flagged pre c (post ++ l') heq hf
  rw [map_append, flatten_append] at hpost
  have hl' := (append_eq_nil_iff.mp hpost).2
  refine ⟨?_, sock, h.watched.socket, hclosed⟩
  have hwritten := h.split
  rw [heq, hunread, append_nil, ← cons_append, ← append_assoc, map_append, flatten_append, hl', append_nil] at hwritten
  exact hwritten

structure Reads (fd : Nat) (s : Feed σ) (sock : Socket UInt8) : Prop where
  flows : Flows fd s sock
  served : Reader.Served (s.Whole fd) s.reader ((chunks fd s.delivered).map Prod.fst).flatten
  eof : s.reader.stream.eof = true → ∃ c ∈ chunks fd s.delivered, c.2 = true

theorem Reads.whole (h : Reads fd s sock) (he : s.reader.stream.eof = true) :
    s.Whole fd ((chunks fd s.delivered).map Prod.fst).flatten := by
  obtain ⟨c, hc, hf⟩ := h.eof he
  exact h.flows.whole (IoServer.chunks_append _ _) hc hf

theorem Reads.exec (h : Reads fd s sock) (hx : s.exec code fd e = some t) (hmeets : s.Meets fd e) :
    ∃ sock', Reads fd t sock' := by
  obtain ⟨sock', more, bytes, hm, hmore⟩ := moves h.flows.watched hx
  have hsocket := h.flows.watched.socket
  have hwhole : ∀ bs, s.Whole fd bs → t.Whole fd bs := fun bs hb => hm.whole hsocket hb
  have hmono := h.served.mono hwhole
  have heof := fun he => hwhole _ (h.whole he)
  have hflows : Flows fd t sock' := by
    apply h.flows.after hm
    intro hne hc
    obtain ⟨ready, rfl, hmem, _⟩ := hmore.mp hne
    exact hmeets hmem sock hsocket hc
  suffices hr : Reader.Served (t.Whole fd) t.reader ((chunks fd t.delivered).map Prod.fst).flatten ∧
      (t.reader.stream.eof = true → ∃ c ∈ chunks fd t.delivered, c.2 = true) from ⟨sock', hflows, hr.1, hr.2⟩
  cases e with
  | write bytes =>
    simp only [exec] at hx
    split at hx
    next => cases hx
    next =>
      obtain ⟨-, hx⟩ := ite_none_left_eq_some.mp hx
      cases hx
      exact ⟨hmono, h.eof⟩
  | close =>
    simp only [exec] at hx
    split at hx
    next => cases hx
    next =>
      cases hx
      exact ⟨hmono, h.eof⟩
  | elsewhere kernel server =>
    simp only [exec] at hx
    split at hx
    next =>
      cases hx
      exact ⟨hmono, h.eof⟩
    next => cases hx
  | drain ready =>
    cases hx
    exact ⟨hmono, h.eof⟩
  | deliver fuel =>
    simp only [exec] at hx
    split at hx
    next => cases hx
    next io wire hwire =>
      have hchunks : chunks fd (s.delivered ++ [io]) = chunks fd s.delivered ++ chunks fd [io] :=
        IoServer.chunks_append _ _
      split at hx
      next hio =>
        cases hx
        have hsame : chunks fd (s.delivered ++ [io]) = chunks fd s.delivered := by
          rw [hchunks]
          simp [chunks, hio]
        refine ⟨?_, ?_⟩
        · rw [hsame]
          exact hmono
        · rw [hsame]
          exact h.eof
      next bytes eof hio =>
        obtain ⟨r, hr, rfl⟩ := map_eq_some_iff.mp hx
        have hlast : chunks fd (s.delivered ++ [io]) = chunks fd s.delivered ++ [(bytes, eof)] := by
          rw [hchunks]
          simp [chunks, hio]
        have harrived : ((chunks fd (s.delivered ++ [io])).map Prod.fst).flatten =
            ((chunks fd s.delivered).map Prod.fst).flatten ++ bytes := by
          rw [hlast]
          simp
        have hflag : (s.reader.stream.eof || eof) = true → ∃ c ∈ chunks fd (s.delivered ++ [io]), c.2 = true := by
          intro he
          rw [hlast]
          rcases Bool.or_eq_true_iff.mp he with he | he
          · obtain ⟨c, hc, hf⟩ := h.eof he
            exact ⟨c, mem_append_left _ hc, hf⟩
          · exact ⟨(bytes, eof), mem_append_right _ (mem_singleton_self _), he⟩
        have hserve := Reader.deliverData_served hmono (fun he => by
          obtain ⟨c, hc, hf⟩ := hflag he
          have hw := hflows.whole (IoServer.chunks_append _ _) hc hf
          rwa [harrived] at hw) hr
        refine ⟨?_, fun he => hflag (hserve.2 ▸ he)⟩
        rw [harrived]
        exact hserve.1
  | request req fuel =>
    obtain ⟨r, hr, rfl⟩ := map_eq_some_iff.mp hx
    have hserve := Reader.enqueue_served hmono heof hr
    exact ⟨hserve.1, fun he => h.eof (hserve.2 ▸ he)⟩

def Cut (fd : Nat) (s : Feed σ) (sock : Socket UInt8) : Prop :=
  sock.closed = true ∧ ∃ pre bytes post, s.drained fd = pre ++ (bytes, true) :: post ∧
    (∀ c ∈ pre, c.2 = false) ∧ (pre.map Prod.fst).flatten ++ bytes ≠ s.written

theorem Cut.after (h : Cut fd s sock) (hm : Moves fd s t sock sock' more bytes) : Cut fd t sock' := by
  obtain ⟨hc, pre, chunk, post, heq, hpre, hne⟩ := h
  obtain ⟨hc', rfl⟩ := hm.closed hc
  refine ⟨hc', pre, chunk, post ++ more, ?_, hpre, ?_⟩
  · rw [hm.drained, heq, append_assoc, cons_append]
  · rw [hm.written, append_nil]
    exact hne

theorem Cut.run : ∀ (es : List FeedEvent) {s : Feed σ} {sock : Socket UInt8}, Cut fd s sock → Watched fd s sock →
    s.run code fd es = some t → ∃ sock', Cut fd t sock' := by
  intro es
  induction es with
  | nil =>
    intro s sock h _ hrun
    cases hrun
    exact ⟨sock, h⟩
  | cons e es ih =>
    intro s sock h hw hrun
    obtain ⟨u, hx, hrun⟩ := bind_eq_some_iff.mp hrun
    obtain ⟨sock', more, bytes, hm, _⟩ := moves hw hx
    exact ih (h.after hm) hm.watched hrun

theorem Cut.not_endLast (h : Cut fd s sock) : ¬ s.EndLast fd := by
  obtain ⟨_, pre, bytes, post, heq, hpre, hne⟩ := h
  intro hlast
  exact hne (hlast.chunks pre bytes post heq hpre).1

theorem Reads.cut (h : Reads fd s sock) (hx : s.exec code fd e = some t) (hnot : ¬ s.Meets fd e) :
    ∃ sock', Cut fd t sock' ∧ Watched fd t sock' := by
  obtain ⟨sock', more, bytes, hm, hmore⟩ := moves h.flows.watched hx
  obtain ⟨hs, hl, hp, _, _, _⟩ := h.flows.watched
  refine ⟨sock', ?_, hm.watched⟩
  cases e with
  | drain ready =>
    have hbad : ∃ sock, s.kernel.sockets fd = some sock ∧ fd ∈ ready ∧ sock.closed = true ∧ PAGE < sock.unread.length := by
      by_contra hno
      exact hnot fun hmem sock hs hc => Nat.le_of_not_lt fun hlt => hno ⟨sock, hs, hmem, hc, hlt⟩
    obtain ⟨sock₀, hs₀, hmem, hc, hlong⟩ := hbad
    cases (hs.symm.trans hs₀)
    have hunread : sock.unread ≠ [] := by
      intro hnil
      rw [hnil] at hlong
      cases hlong
    have hevent : (sock.event fd).isSome = true := by
      unfold Socket.event
      rw [if_neg (by simp [hl]), if_neg (by simp [hp]), if_neg (fun hx => hunread hx.1)]
      rfl
    have hne := hmore.mpr ⟨ready, rfl, hmem, hevent⟩
    rcases hm.single with hnil | ⟨hone, _⟩
    · exact absurd hnil hne
    · refine ⟨(hm.closed hc).1, s.drained fd, sock.unread.take PAGE, [], ?_, ?_, ?_⟩
      · rw [hm.drained, hone, hc]
      · intro c hin
        cases hf : c.2 with
        | false => rfl
        | true =>
          obtain ⟨pre, post, hsplit⟩ := append_of_mem hin
          exact absurd (h.flows.flagged pre c post hsplit hf).2.1 hunread
      · rw [hm.written, (hm.closed hc).2, append_nil, ← h.flows.split]
        intro heq
        have hlen := congrArg List.length (append_cancel_left heq)
        rw [length_take] at hlen
        omega
  | _ => exact absurd trivial hnot

theorem Reads.endLast (h : Reads fd s sock) : s.EndLast fd := by
  refine ⟨fun pre bytes post heq _ => ?_, h.served.fired⟩
  have hsplit : s.drained fd = (pre ++ [(bytes, true)]) ++ post := by
    rw [heq, append_assoc]
    rfl
  have hw := h.flows.whole hsplit (mem_append_right _ (mem_singleton_self _)) rfl
  simpa using hw

theorem endLast_iff : ∀ (es : List FeedEvent) {s : Feed σ} {sock : Socket UInt8}, Reads fd s sock →
    s.run code fd es = some t → (t.EndLast fd ↔ s.RunMeets code fd es) := by
  intro es
  induction es with
  | nil =>
    intro s sock h hrun
    cases hrun
    exact iff_of_true h.endLast trivial
  | cons e es ih =>
    intro s sock h hrun
    obtain ⟨u, hx, hrun⟩ := bind_eq_some_iff.mp hrun
    by_cases hmeets : s.Meets fd e
    · obtain ⟨sock', hreads⟩ := h.exec hx hmeets
      rw [ih hreads hrun]
      constructor
      · intro hall
        refine ⟨hmeets, fun u' hx' => ?_⟩
        cases (hx.symm.trans hx')
        exact hall
      · intro hall
        exact hall.2 u hx
    · obtain ⟨sock', hcut, hw⟩ := h.cut hx hmeets
      obtain ⟨sock'', hend⟩ := hcut.run es hw hrun
      exact iff_of_false hend.not_endLast fun hall => hmeets hall.1

theorem Start.reads (h : s.Start fd) : ∃ sock, Reads fd s sock := by
  obtain ⟨o, hs⟩ := h.socket
  have hdrained : s.drained fd = [] := by
    unfold drained
    rw [h.delivered, h.wire]
    rfl
  refine ⟨{ Socket.fresh o false with watched := true },
    ⟨⟨hs, rfl, rfl, rfl, h.accepting, h.datagrams⟩, ?_, ?_⟩, ⟨?_, ?_⟩, ?_⟩
  · rw [hdrained, h.written]
    rfl
  · intro pre c post heq
    rw [hdrained] at heq
    simp at heq
  · rw [h.delivered, Reader.consumed, h.fired, h.stream]
    rfl
  · intro pre f post heq
    rw [h.fired] at heq
    simp at heq
  · rw [h.stream]
    intro he
    cases he

/-- The end of input comes last in a run just when no drain finds more than a page behind the
peer's close. -/
theorem endLast_iff_runMeets {es : List FeedEvent} (h : s.Start fd) (hrun : s.run code fd es = some t) :
    t.EndLast fd ↔ s.RunMeets code fd es := by
  obtain ⟨sock, hreads⟩ := h.reads
  exact endLast_iff es hreads hrun

def quiet : Feed Unit where
  kernel := { sockets := fun n => if n = 3 then some { Socket.fresh 0 false with watched := true } else none
              numbers := [], openings := 1 }
  server := ⟨fun _ => false, fun _ => false⟩
  wire := []
  delivered := []
  reader := ⟨IoStream.new, (), []⟩
  written := []

def silent : UserCode Unit := ⟨fun _ _ _ => ((), [], false)⟩

theorem quiet_start : quiet.Start 3 := ⟨⟨0, rfl⟩, rfl, rfl, rfl, rfl, rfl, rfl, rfl⟩

theorem endLast_iff_runMeets_small : ∃ t, quiet.run silent 3
    [.request ⟨0, .all⟩ 5, .write [104, 105], .close, .drain [3], .deliver 5] = some t ∧ t.EndLast 3 := by
  obtain ⟨t, ht⟩ : ∃ t, quiet.run silent 3
    [.request ⟨0, .all⟩ 5, .write [104, 105], .close, .drain [3], .deliver 5] = some t := ⟨_, rfl⟩
  refine ⟨t, ht, (endLast_iff_runMeets quiet_start ht).mpr ?_⟩
  refine ⟨trivial, fun t ht => ?_⟩
  cases ht
  refine ⟨trivial, fun t ht => ?_⟩
  cases ht
  refine ⟨trivial, fun t ht => ?_⟩
  cases ht
  refine ⟨fun _ sock hs _ => ?_, fun t ht => ?_⟩
  · cases hs
    decide
  · cases ht
    exact ⟨trivial, fun _ _ => trivial⟩

/-- A page and one byte are there when the peer's close is seen: the page is flagged. -/
theorem endLast_after_long_close : ∃ t, quiet.run silent 3
    [.write (List.replicate 4097 0), .close, .drain [3]] = some t ∧ ¬ t.EndLast 3 := by
  obtain ⟨sock, hreads⟩ := quiet_start.reads
  obtain ⟨t, ht⟩ : ∃ t, quiet.run silent 3 [.write (List.replicate 4097 0), .close, .drain [3]] = some t := ⟨_, rfl⟩
  refine ⟨t, ht, fun hlast => ?_⟩
  have hmeets := (endLast_iff _ hreads ht).mp hlast
  have hle := ((hmeets.2 _ rfl).2 _ rfl).1 (by decide) _ rfl rfl
  have hlen : (List.replicate 4097 (0 : UInt8)).length ≤ PAGE := hle
  rw [length_replicate] at hlen
  exact absurd hlen (by decide)

end Feed

end WinArmVm
