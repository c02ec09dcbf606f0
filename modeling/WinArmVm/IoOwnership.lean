import WinArmVm.IoRegistration

namespace WinArmVm

open List Option Kernel IoServer IoSystem IoRequest

def IoRequest.watches (n : Nat) : IoRequest → Bool
  | .watch _ fd => fd = n
  | _ => false

def unmarks (n : Nat) : List (IoRequest × Option Nat) → Bool
  | [] => false
  | q :: inbox => q.1 = .unwatch .accept n || (!q.1.watches n && unmarks n inbox)

theorem unmarks_append {n : Nat} {l : List (IoRequest × Option Nat)} (l' : List (IoRequest × Option Nat))
    (h : unmarks n l = true) : unmarks n (l ++ l') = true := by
  induction l with
  | nil => cases h
  | cons q l ih =>
    simp only [unmarks, cons_append, Bool.or_eq_true, Bool.and_eq_true] at h ⊢
    rcases h with h | ⟨hq, h⟩
    · exact .inl h
    · exact .inr ⟨hq, ih h⟩

namespace Kernel

variable {β : Type} {k k' : Kernel β}

theorem use_set (k : Kernel β) (fd n : Nat) (s : Option (Socket β)) :
    (k.set fd s).use n = if n = fd then s.map Socket.use else k.use n := by
  unfold use set
  dsimp only
  split <;> rfl

theorem use_onOpen (k : Kernel β) (fd n : Nat) (f : Socket β → Socket β) :
    (k.onOpen fd f).use n = if n = fd then (k.sockets fd).map fun s => (f s).use else k.use n := by
  unfold onOpen
  split
  next h =>
    split
    next he => rw [he, use, h]; rfl
    next => rfl
  next s h => rw [use_set, h]; rfl

theorem use_onOpen_same {f : Socket β → Socket β} (hf : ∀ s, (f s).use = s.use) (k : Kernel β) (fd n : Nat) :
    (k.onOpen fd f).use n = k.use n := by
  rw [use_onOpen]
  split
  next he => rw [he, use]; simp only [hf]
  next => rfl

theorem use_arrive (k : Kernel β) (fd n : Nat) (a : Arrival β) : (k.arrive fd a).use n = k.use n :=
  use_onOpen_same (fun s => s.arrive_use a) k fd n

theorem use_read (k : Kernel β) (fd c n : Nat) : (k.read fd c).2.use n = k.use n := by
  unfold read
  split
  next => rfl
  next s h =>
    split
    next => rfl
    next =>
      rw [use_set]
      split
      next he => rw [he, use, h]; rfl
      next => rfl

theorem use_recvfrom (k : Kernel β) (fd c n : Nat) : (k.recvfrom fd c).2.use n = k.use n := by
  unfold recvfrom
  split
  next => rfl
  next s h =>
    split
    next => rfl
    next =>
      rw [use_set]
      split
      next he => rw [he, use, h]; rfl
      next => rfl

theorem use_handOut {b : Bool} {n : Nat} (h : k.handOut b = some (n, k')) (m : Nat) :
    k'.use m = if m = n then some (k.openings, false) else k.use m := by
  unfold handOut at h
  split at h
  next => cases h
  next =>
    split at h
    next => cases h
    next =>
      cases h
      exact use_set k n m _

theorem use_acceptOn (k : Kernel β) (l m : Nat) :
    (k.acceptOn l).2.use m = k.use m ∨ ∃ o, (k.acceptOn l).1 = some m ∧ (k.acceptOn l).2.use m = some (o, false) := by
  unfold acceptOn
  split
  next => exact .inl rfl
  next s h =>
    split
    next =>
      split
      next => exact .inl rfl
      next n k' hout =>
        have huse := use_handOut hout m
        rw [use_set] at huse
        split at huse
        next he =>
          subst he
          exact .inr ⟨_, rfl, huse⟩
        next =>
          left
          rw [huse]
          split
          next he => rw [he, use, h]; rfl
          next => rfl
    next => exact .inl rfl

end Kernel

namespace IoServer

variable {β : Type}

theorem drainData_io (e : KEvent) (k : Kernel β) :
    (drainData e k).1.kind = .read ∧ (drainData e k).1.fd = e.ident ∧ ∀ n, (drainData e k).2.use n = k.use n := by
  unfold drainData
  dsimp only
  split
  next =>
    have huse := k.use_read e.ident (min e.data PAGE)
    split
    next heq =>
      rw [heq] at huse
      exact ⟨rfl, rfl, huse⟩
    next heq =>
      rw [heq] at huse
      exact ⟨rfl, rfl, huse⟩
  next => exact ⟨rfl, rfl, fun _ => rfl⟩

theorem drainDatagram_io (e : KEvent) (k : Kernel β) :
    (drainDatagram e k).1.kind = .datagram ∧ ∀ n, (drainDatagram e k).2.use n = k.use n := by
  unfold drainDatagram
  dsimp only
  split
  next =>
    have huse := k.use_recvfrom e.ident (min e.data 2048)
    split
    next heq =>
      rw [heq] at huse
      exact ⟨rfl, huse⟩
    next heq =>
      rw [heq] at huse
      exact ⟨rfl, huse⟩
  next => exact ⟨rfl, fun _ => rfl⟩

end IoServer

namespace IoServer

variable {β : Type} {w : IoServer} {k : Kernel β} {kind : IoKind} {fd : Nat}

theorem mark_accepting (b : Bool) (n : Nat) :
    (w.mark kind fd b).accepting n = if kind = .accept ∧ n = fd then b else w.accepting n := by
  cases kind <;> simp [mark]

theorem mark_datagrams (b : Bool) (n : Nat) :
    (w.mark kind fd b).datagrams n = if kind = .datagram ∧ n = fd then b else w.datagrams n := by
  cases kind <;> simp [mark]

end IoServer

theorem Kernel.use_registered {β : Type} {k : Kernel β} {fd n : Nat} {b : Bool} {u : Nat × Bool}
    (h : (k.onOpen fd fun s => { s with watched := b }).use n = some u) :
    ∃ v, k.use n = some v ∧ u.1 = v.1 ∧ u.2 = if n = fd then b else v.2 := by
  rw [use_onOpen] at h
  split at h
  next he =>
    obtain ⟨sock, hsock, hu⟩ := map_eq_some_iff.mp h
    cases hu
    refine ⟨sock.use, ?_, rfl, ?_⟩
    · rw [he, Kernel.use, hsock]; rfl
    · rw [if_pos he]
      rfl
  next hne => exact ⟨u, h, rfl, by rw [if_neg hne]⟩

namespace IoSystem

variable {β : Type} {s t : IoSystem β}

/-- Nothing of an earlier use of a number can reach the next one: no #data tuple of it is in flight,
no watchAccept: of it waits, a mark is taken off before the number is watched again, and where a
continuation is still registered for its data no watchRead: waits; and then no event of it is left to
drain. -/
structure Retired (s : IoSystem β) (n : Nat) : Prop where
  tuples : ∀ t ∈ s.inFlight, t.io.kind = .read → t.io.fd ≠ n
  asked : ∀ q ∈ s.inbox, q.1 ≠ .watch .accept n
  marked : s.server.accepting n = true → unmarks n s.inbox = true ∧ ∀ e ∈ s.events, e.ident ≠ n
  handler : (s.handlers .read n).isSome → (∀ q ∈ s.inbox, q.1 ≠ .watch .read n) ∧ ∀ e ∈ s.events, e.ident ≠ n

def handsOut (s : IoSystem β) : IoStep β → Option Nat
  | .openFd listening => (s.kernel.handOut listening).map Prod.fst
  | .drain =>
    match s.events with
    | [] => none
    | e :: _ =>
      if e.filter = EVFILT_READ ∧ s.server.accepting e.ident ∧ e.data ≠ 0 then (s.kernel.acceptOn e.ident).1 else none
  | _ => none

def readsFrom : IoStep β → Option Nat
  | .watch .read fd _ => some fd
  | _ => none

/-- A number is opened again only when it is retired, and a continuation registered for the data of
a number that is not open finds no tuple of it in flight. -/
def Meets (s : IoSystem β) (e : IoStep β) : Prop := (∀ n ∈ s.handsOut e, s.Retired n) ∧
    ∀ fd ∈ readsFrom e, (s.kernel.opening fd).isSome ∨ ∀ t ∈ s.inFlight, t.io.kind = .read → t.io.fd ≠ fd

def RunMeets (s : IoSystem β) : List (IoStep β) → Prop
  | [] => True
  | e :: es => s.Meets e ∧ ∀ t ∈ s.exec e, t.RunMeets es

instance (s : IoSystem β) (n : Nat) : Decidable (s.Retired n) :=
  decidable_of_iff ((∀ t ∈ s.inFlight, t.io.kind = .read → t.io.fd ≠ n) ∧ (∀ q ∈ s.inbox, q.1 ≠ .watch .accept n) ∧
      (s.server.accepting n = true → unmarks n s.inbox = true ∧ ∀ e ∈ s.events, e.ident ≠ n) ∧
      ((s.handlers .read n).isSome → (∀ q ∈ s.inbox, q.1 ≠ .watch .read n) ∧ ∀ e ∈ s.events, e.ident ≠ n))
    ⟨fun h => ⟨h.1, h.2.1, h.2.2.1, h.2.2.2⟩, fun h => ⟨h.tuples, h.asked, h.marked, h.handler⟩⟩

instance (s : IoSystem β) (e : IoStep β) : Decidable (s.Meets e) := inferInstanceAs (Decidable (_ ∧ _))

instance RunMeets.decidable : ∀ (es : List (IoStep β)) (s : IoSystem β), Decidable (s.RunMeets es)
  | [], _ => inferInstanceAs (Decidable True)
  | e :: es, s =>
    have : ∀ t : IoSystem β, Decidable (t.RunMeets es) := RunMeets.decidable es
    inferInstanceAs (Decidable (s.Meets e ∧ ∀ t ∈ s.exec e, t.RunMeets es))

structure Routed (s : IoSystem β) : Prop where
  tuples : ∀ t ∈ s.inFlight, t.io.kind = .read → ∀ o, t.source = some o →
    (∀ u, s.kernel.use t.io.fd = some u → u.1 = o) ∧ ∀ r, s.handlers .read t.io.fd = some r → r.opening = some o
  stale : ∀ n u r, s.kernel.use n = some u → s.handlers .read n = some r → r.opening ≠ some u.1 →
    (∀ q ∈ s.inbox, q.1 ≠ .watch .read n) ∧
      (u.2 = true ∨ (∃ e ∈ s.events, e.ident = n) → s.server.accepting n = true ∨ s.server.datagrams n = true)
  marks : ∀ n u, s.kernel.use n = some u → s.server.accepting n = true → s.marked n = some u.1 ∨
    (unmarks n s.inbox = true ∧ u.2 = false ∧ ∀ e ∈ s.events, e.ident ≠ n)
  asked : ∀ n u, s.kernel.use n = some u → ∀ q ∈ s.inbox, q.1 = .watch .accept n → q.2 = some u.1
  own : ∀ f ∈ s.fired, f.tuple.io.kind = .read → ∀ o, f.tuple.source = some o → f.registration.opening = some o
  listener : ∀ a ∈ s.accepts, ∀ o, a.2 = some o → a.1 = some o
  order : (s.fired.map Firing.tuple ++ s.inFlight).Sublist s.drained

theorem Routed.reopen (h : Routed s) {k : Kernel β}
    (hk : ∀ n u, k.use n = some u → s.kernel.use n = some u ∨ u.2 = false ∧ s.Retired n) :
    Routed { s with kernel := k } := by
  refine ⟨?_, ?_, ?_, ?_, h.own, h.listener, h.order⟩
  · intro t ht hkind o hsource
    refine ⟨fun u hu => ?_, (h.tuples t ht hkind o hsource).2⟩
    rcases hk _ u hu with hu | ⟨-, hret⟩
    · exact (h.tuples t ht hkind o hsource).1 u hu
    · exact absurd rfl (hret.tuples t ht hkind)
  · intro n u r hu hr hne
    rcases hk n u hu with hu | ⟨hfresh, hret⟩
    · exact h.stale n u r hu hr hne
    · have hhandler : (s.handlers .read n).isSome := isSome_iff_exists.mpr ⟨r, hr⟩
      obtain ⟨hask, hevent⟩ := hret.handler hhandler
      refine ⟨hask, fun hor => ?_⟩
      rcases hor with hw | ⟨e, he, hid⟩
      · rw [hfresh] at hw; cases hw
      · exact absurd hid (hevent e he)
  · intro n u hu ha
    rcases hk n u hu with hu | ⟨hfresh, hret⟩
    · exact h.marks n u hu ha
    · obtain ⟨hun, hevent⟩ := hret.marked ha
      exact .inr ⟨hun, hfresh, hevent⟩
  · intro n u hu q hq hask
    rcases hk n u hu with hu | ⟨-, hret⟩
    · exact h.asked n u hu q hq hask
    · exact absurd hask (hret.asked q hq)

theorem Routed.send (h : Routed s) {req : IoRequest} {o : Option Nat}
    (ho : ∀ n, req.watches n = true → o = s.kernel.opening n)
    (hread : ∀ n u r, req = .watch .read n → s.kernel.use n = some u → s.handlers .read n = some r → r.opening = some u.1) :
    Routed { s with inbox := s.inbox ++ [(req, o)] } := by
  refine ⟨h.tuples, ?_, ?_, ?_, h.own, h.listener, h.order⟩
  · intro n u r hu hr hne
    obtain ⟨hask, hrest⟩ := h.stale n u r hu hr hne
    refine ⟨fun q hq hw => ?_, hrest⟩
    rcases mem_append.mp hq with hq | hq
    · exact hask q hq hw
    · cases mem_singleton.mp hq
      exact hne (hread n u r hw hu hr)
  · intro n u hu ha
    rcases h.marks n u hu ha with hm | ⟨hun, hrest⟩
    · exact .inl hm
    · exact .inr ⟨unmarks_append _ hun, hrest⟩
  · intro n u hu q hq hw
    rcases mem_append.mp hq with hq | hq
    · exact h.asked n u hu q hq hw
    · cases mem_singleton.mp hq
      have hreq : req = .watch .accept n := hw
      have hsame := ho n (by rw [hreq]; simp [watches])
      rw [hsame, opening, hu]
      rfl

variable {results : List (Tuple β)} {inbox : List (IoRequest × Option Nat)} {es : List KEvent} {o : Option Nat} {e : KEvent}

theorem watched_of_poll {k : Kernel β} {ready : List Nat} (h : e ∈ k.poll ready) :
    ∃ o, k.use e.ident = some (o, true) := by
  obtain ⟨n, -, hn⟩ := mem_filterMap.mp h
  obtain ⟨sock, hsock, hev⟩ := bind_eq_some_iff.mp hn
  obtain ⟨hw, hev⟩ := ite_none_right_eq_some.mp hev
  have hid : e.ident = n := by
    unfold Socket.event at hev
    split at hev
    next =>
      split at hev
      next => cases hev
      next => cases hev; rfl
    next =>
      split at hev
      next => cases hev; rfl
      next =>
        split at hev
        next => cases hev
        next => cases hev; rfl
  refine ⟨sock.opening, ?_⟩
  rw [hid, Kernel.use, hsock]
  show some (sock.opening, sock.watched) = _
  rw [hw]

section

variable (h : Routed s)

include h

theorem Routed.poll (hd : s.draining = none) (ready : List Nat) (hi : s.inbox = (.pump, o) :: inbox) :
    Routed { s with inbox := inbox, draining := some (s.kernel.poll ready, []) } := by
  have hflight : ({ s with inbox := inbox, draining := some (s.kernel.poll ready, []) } : IoSystem β).inFlight =
      s.inFlight := by
    simp [inFlight, hd]
  have hin : ∀ q ∈ inbox, q ∈ s.inbox := fun q hq => hi ▸ mem_cons_of_mem _ hq
  refine ⟨?_, ?_, ?_, ?_, h.own, h.listener, ?_⟩
  · rw [hflight]; exact h.tuples
  · intro n u r hu hr hne
    obtain ⟨hask, hrest⟩ := h.stale n u r hu hr hne
    refine ⟨fun q hq => hask q (hin q hq), fun hor => hrest (.inl ?_)⟩
    rcases hor with hw | ⟨e, he, hid⟩
    · exact hw
    · obtain ⟨o', ho'⟩ := watched_of_poll he
      rw [hid, hu] at ho'
      cases ho'
      rfl
  · intro n u hu ha
    rcases h.marks n u hu ha with hm | ⟨hun, hw, -⟩
    · exact .inl hm
    · refine .inr ⟨?_, hw, ?_⟩
      · rw [hi] at hun
        simpa [unmarks, watches] using hun
      · intro e he hid
        obtain ⟨o', ho'⟩ := watched_of_poll he
        rw [hid, hu] at ho'
        cases ho'
        cases hw
  · intro n u hu q hq hw
    exact h.asked n u hu q (hin q hq) hw
  · rw [hflight]; exact h.order

variable {batch : List (Tuple β)} {req : IoRequest}

theorem Routed.registers (hd : s.draining = none)
    (hi : s.inbox = (req, o) :: inbox) {kind : IoKind} {fd : Nat} {b : Bool}
    (hreq : b = true ∧ req = .watch kind fd ∨ b = false ∧ req = .unwatch kind fd) (marked : Nat → Option Nat)
    (hmarked : ∀ n, marked n = if req = .watch .accept n then o else s.marked n) :
    Routed { s with
      inbox := inbox
      server := s.server.mark kind fd b
      kernel := s.kernel.onOpen fd fun sock => { sock with watched := b }
      marked := marked } := by
  have hin : ∀ q ∈ inbox, q ∈ s.inbox := fun q hq => hi ▸ mem_cons_of_mem _ hq
  have hhead : (req, o) ∈ s.inbox := hi ▸ mem_cons_self
  have hevents : s.events = [] := by simp [events, hd]
  refine ⟨?_, ?_, ?_, ?_, h.own, h.listener, h.order⟩
  · intro t ht hkind o hsource
    obtain ⟨huse, hhandler⟩ := h.tuples t ht hkind o hsource
    refine ⟨fun u hu => ?_, hhandler⟩
    obtain ⟨v, hv, hfst, -⟩ := use_registered hu
    rw [hfst]
    exact huse v hv
  · intro n u r hu hr hne
    obtain ⟨v, hv, hfst, hsnd⟩ := use_registered hu
    obtain ⟨hask, hrest⟩ := h.stale n v r hv hr (hfst ▸ hne)
    refine ⟨fun q hq => hask q (hin q hq), fun hor => ?_⟩
    show (s.server.mark kind fd b).accepting n = true ∨ (s.server.mark kind fd b).datagrams n = true
    rw [mark_accepting, mark_datagrams]
    have hw : u.2 = true := by
      rcases hor with hw | ⟨e, he, -⟩
      · exact hw
      · have he : e ∈ s.events := he
        rw [hevents] at he
        cases he
    by_cases hn : n = fd
    · rw [hsnd, if_pos hn] at hw
      rcases hreq with ⟨-, rfl⟩ | ⟨hb, -⟩
      · have hkind : kind ≠ .read := by
          rintro rfl
          exact hask _ hhead (by rw [hn])
        cases kind with
        | read => exact absurd rfl hkind
        | accept => left; simp [hn, hw]
        | datagram => right; simp [hn, hw]
      · rw [hb] at hw; cases hw
    · rw [hsnd, if_neg hn] at hw
      simpa [hn] using hrest (.inl hw)
  · intro n u hu ha
    obtain ⟨v, hv, hfst, hsnd⟩ := use_registered hu
    have ha : (s.server.mark kind fd b).accepting n = true := ha
    rw [mark_accepting] at ha
    show marked n = some u.1 ∨ _
    rw [hmarked, hfst]
    rcases hreq with ⟨hb, rfl⟩ | ⟨hb, rfl⟩
    · by_cases hthis : IoRequest.watch kind fd = .watch .accept n
      · left
        rw [if_pos hthis]
        exact h.asked n v hv _ hhead hthis
      · have hold : ¬ (kind = .accept ∧ n = fd) := fun hx => hthis (by rw [hx.1, hx.2])
        rw [if_neg hold] at ha
        rw [if_neg hthis]
        rcases h.marks n v hv ha with hm | ⟨hun, hw, -⟩
        · exact .inl hm
        · rw [hi, unmarks] at hun
          have hn : n ≠ fd := by
            rintro rfl
            simp [IoRequest.watches] at hun
          have hun : unmarks n inbox = true := by
            simpa [IoRequest.watches, hn.symm] using hun
          refine .inr ⟨hun, ?_, ?_⟩
          · rw [hsnd, if_neg hn, hw]
          · intro e he
            have he : e ∈ s.events := he
            rw [hevents] at he
            cases he
    · rw [if_neg (by simp)]
      split at ha
      next => rw [hb] at ha; cases ha
      next hold =>
        rcases h.marks n v hv ha with hm | ⟨hun, hw, -⟩
        · exact .inl hm
        · rw [hi, unmarks] at hun
          have hun : unmarks n inbox = true := by
            have hne : IoRequest.unwatch kind fd ≠ .unwatch .accept n := by
              rintro hx
              cases hx
              exact hold ⟨rfl, rfl⟩
            simpa [IoRequest.watches, hne] using hun
          refine .inr ⟨hun, ?_, ?_⟩
          · rw [hsnd]
            split
            next => exact hb
            next => exact hw
          · intro e he
            have he : e ∈ s.events := he
            rw [hevents] at he
            cases he
  · intro n u hu q hq hw
    obtain ⟨v, hv, hfst, -⟩ := use_registered hu
    rw [hfst]
    exact h.asked n v hv q (hin q hq) hw

theorem Routed.registered (kind : IoKind) (fd : Nat) {r : Option Registration}
    (hr : ∀ x, r = some x → kind = .read → x.opening = s.kernel.opening fd ∧
      ∀ t ∈ s.inFlight, t.io.kind = .read → t.io.fd = fd → (s.kernel.opening fd).isSome) :
    Routed { s with handlers := fun κ n => if κ = kind ∧ n = fd then r else s.handlers κ n } := by
  refine ⟨?_, ?_, h.marks, h.asked, h.own, h.listener, h.order⟩
  · intro t ht hkind o hsource
    obtain ⟨huse, hhandler⟩ := h.tuples t ht hkind o hsource
    refine ⟨huse, fun x hx => ?_⟩
    have hx : (if IoKind.read = kind ∧ t.io.fd = fd then r else s.handlers .read t.io.fd) = some x := hx
    split at hx
    next hthis =>
      obtain ⟨hopen, hflight⟩ := hr x hx hthis.1.symm
      obtain ⟨o', ho'⟩ := isSome_iff_exists.mp (hflight t ht hkind hthis.2)
      obtain ⟨u, hu, rfl⟩ := map_eq_some_iff.mp ho'
      rw [hopen, ho', huse u (hthis.2 ▸ hu)]
    next => exact hhandler x hx
  · intro n u x hu hx hne
    have hx : (if IoKind.read = kind ∧ n = fd then r else s.handlers .read n) = some x := hx
    split at hx
    next hthis =>
      obtain ⟨hopen, -⟩ := hr x hx hthis.1.symm
      rw [hopen, ← hthis.2, opening, hu] at hne
      exact absurd rfl hne
    next => exact h.stale n u x hu hx hne

theorem Routed.watch {kind : IoKind} {fd block : Nat} (hm : s.Meets (.watch kind fd block)) :
    Routed (s.watch kind fd block) := by
  have hreg := h.registered kind fd (r := some ⟨block, s.kernel.opening fd⟩) (by
    intro x hx hkind
    cases hx
    refine ⟨rfl, fun t ht hread hfd => ?_⟩
    subst hkind
    rcases hm.2 fd rfl with hopen | hflight
    · exact hopen
    · exact absurd hfd (hflight t ht hread))
  apply hreg.send
  · intro n hn
    have hfd : fd = n := by simpa [watches] using hn
    rw [hfd]
  · intro n u r hreq hu hr
    cases hreq
    simp only [and_self, if_true] at hr
    cases hr
    show s.kernel.opening fd = _
    have hu : s.kernel.use fd = some u := hu
    rw [opening, hu]
    rfl

theorem Routed.unwatch (kind : IoKind) (fd : Nat) : Routed (s.unwatch kind fd) := by
  have hreg := h.registered kind fd (r := none) (fun x hx => by cases hx)
  apply hreg.send
  · intro n hn
    cases hn
  · intro n u r hreq
    cases hreq

theorem Routed.fewer (es : List KEvent) (results : List (Tuple β)) (hd : (s.draining.map Prod.snd).getD [] = results)
    (hes : ∀ e ∈ es, ∃ e' ∈ s.events, e'.ident = e.ident) : Routed { s with draining := some (es, results) } := by
  have hflight : ({ s with draining := some (es, results) } : IoSystem β).inFlight = s.inFlight := by
    rw [inFlight, inFlight, hd]
    rfl
  refine ⟨?_, ?_, ?_, h.asked, h.own, h.listener, ?_⟩
  · rw [hflight]; exact h.tuples
  · intro n u r hu hr hne
    obtain ⟨hask, hrest⟩ := h.stale n u r hu hr hne
    refine ⟨hask, fun hor => hrest ?_⟩
    rcases hor with hw | ⟨e, he, hid⟩
    · exact .inl hw
    · obtain ⟨e', he', hid'⟩ := hes e he
      exact .inr ⟨e', he', hid'.trans hid⟩
  · intro n u hu ha
    rcases h.marks n u hu ha with hm | ⟨hun, hw, hev⟩
    · exact .inl hm
    · refine .inr ⟨hun, hw, fun e he hid => ?_⟩
      obtain ⟨e', he', hid'⟩ := hes e he
      exact hev e' he' (hid'.trans hid)
  · rw [hflight]; exact h.order

theorem Routed.yield (hd : s.draining = some (es, results))
    {t : Tuple β} (ht : t.io.kind = .read → ∀ o, t.source = some o → (∀ u, s.kernel.use t.io.fd = some u → u.1 = o) ∧
        ∀ r, s.handlers .read t.io.fd = some r → r.opening = some o) :
    Routed (s.yield es results t s.kernel) := by
  have hflight : (s.yield es results t s.kernel).inFlight = s.inFlight ++ [t] := by
    simp [inFlight, hd, IoSystem.yield]
  have hevents : (s.yield es results t s.kernel).events = s.events := by
    simp [events, hd, IoSystem.yield]
  refine ⟨?_, ?_, ?_, h.asked, h.own, h.listener, ?_⟩
  · rw [hflight]
    intro x hx
    rcases mem_append.mp hx with hx | hx
    · exact h.tuples x hx
    · cases mem_singleton.mp hx
      exact ht
  · rw [hevents]; exact h.stale
  · rw [hevents]; exact h.marks
  · rw [hflight, ← append_assoc]
    exact h.order.append (List.Sublist.refl [t])

theorem Routed.acceptOnce {n : Nat} (hd : s.draining = some (e :: es, results)) (ha : s.server.accepting e.ident = true)
    (hret : ∀ m, (s.kernel.acceptOn e.ident).1 = some m → s.Retired m) : Routed (s.acceptOnce e n es results) := by
  have hlog : Routed { s with accepts := s.accepts ++ [(s.marked e.ident, s.kernel.opening e.ident)] } := by
    refine ⟨h.tuples, h.stale, h.marks, h.asked, h.own, ?_, h.order⟩
    intro a hin o hopen
    rcases mem_append.mp hin with hin | hin
    · exact h.listener a hin o hopen
    · cases mem_singleton.mp hin
      obtain ⟨u, hu, rfl⟩ := map_eq_some_iff.mp hopen
      rcases h.marks _ u hu ha with hm | ⟨-, -, hev⟩
      · exact hm
      · have hmem : e ∈ s.events := by simp [events, hd]
        exact absurd rfl (hev e hmem)
  have hopened := hlog.reopen (k := (s.kernel.acceptOn e.ident).2) (by
    intro m u hu
    rcases s.kernel.use_acceptOn e.ident m with hsame | ⟨o, hm, hfresh⟩
    · exact .inl (hsame ▸ hu)
    · right
      rw [hfresh] at hu
      cases hu
      have hr := hret m hm
      exact ⟨rfl, hr.tuples, hr.asked, hr.marked, hr.handler⟩)
  have hless := hopened.fewer ({ e with data := n } :: es) results (by rw [hd]; rfl) (by
    intro e' he'
    rcases mem_cons.mp he' with rfl | he'
    · exact ⟨e, by simp [events, hd], rfl⟩
    · exact ⟨e', by simp [events, hd, he'], rfl⟩)
  unfold IoSystem.acceptOnce
  dsimp only
  split
  next newFd k heq =>
    rw [heq] at hless
    exact hless.yield rfl (t := ⟨.accept e.ident newFd, s.kernel.opening e.ident⟩) (fun hread => by cases hread)
  next k heq =>
    rw [heq] at hless
    exact hless

theorem Routed.drainEvent (hd : s.draining = some (e :: es, results))
    (hret : ∀ m, s.handsOut .drain = some m → s.Retired m) : Routed (s.drainEvent e es results) := by
  have hmem : e ∈ s.events := by simp [events, hd]
  have hrest : ∀ e' ∈ es, ∃ e'' ∈ s.events, e''.ident = e'.ident := fun e' he' =>
    ⟨e', by simp [events, hd, he'], rfl⟩
  have hresults : (s.draining.map Prod.snd).getD [] = results := by rw [hd]; rfl
  have hless := h.fewer es results hresults hrest
  unfold IoSystem.drainEvent
  split
  next => exact hless
  next hfilter =>
    split
    next ha =>
      split
      next => exact hless
      next n hdata =>
        apply h.acceptOnce hd ha
        intro m hm
        apply hret
        have hevents : s.events = e :: es := by simp [events, hd]
        rw [handsOut, hevents]
        dsimp only
        rw [if_pos ⟨Decidable.not_not.mp hfilter, ha, by omega⟩]
        exact hm
    next ha =>
      split
      next =>
        obtain ⟨hkind, huse⟩ := drainDatagram_io e s.kernel
        have hsame := hless.reopen (k := (drainDatagram e s.kernel).2) (fun n u hu => .inl (huse n ▸ hu))
        apply hsame.yield rfl
        intro hread
        rw [hkind] at hread
        cases hread
      next hg =>
        obtain ⟨-, hfd, huse⟩ := drainData_io e s.kernel
        have hsame := hless.reopen (k := (drainData e s.kernel).2) (fun n u hu => .inl (huse n ▸ hu))
        apply hsame.yield rfl
        intro _ o hsource
        obtain ⟨v, hv, hvo⟩ := map_eq_some_iff.mp hsource
        show (∀ u, (drainData e s.kernel).2.use (drainData e s.kernel).1.fd = some u → _) ∧
          ∀ r, s.handlers .read (drainData e s.kernel).1.fd = some r → _
        rw [hfd, huse, hv]
        refine ⟨fun u hu => ?_, fun r hr => ?_⟩
        · cases hu; exact hvo
        · by_contra hne
          -- a continuation of an earlier opening: the event would not be drained as data
          obtain ⟨-, hroute⟩ := h.stale e.ident v r hv hr (by rw [hvo]; exact hne)
          rcases hroute (.inr ⟨e, hmem, rfl⟩) with hx | hx
          · exact ha hx
          · exact hg hx

omit h in
theorem Routed.replies (h : Routed s) (hd : s.draining = some ([], results)) :
    Routed { s with draining := none, replies := s.replies ++ [results] } := by
  have hflight : ({ s with draining := none, replies := s.replies ++ [results] } : IoSystem β).inFlight = s.inFlight := by
    simp [inFlight, hd]
  have hevents : ({ s with draining := none, replies := s.replies ++ [results] } : IoSystem β).events = s.events := by
    simp [events, hd]
  refine ⟨?_, ?_, ?_, h.asked, h.own, h.listener, ?_⟩
  · rw [hflight]; exact h.tuples
  · rw [hevents]; exact h.stale
  · rw [hevents]; exact h.marks
  · rw [hflight]; exact h.order

theorem Routed.receive {replies : List (List (Tuple β))} (hb : s.batch = [])
    (hr : s.replies = batch :: replies) : Routed { s with batch := batch, replies := replies } := by
  have hflight : ({ s with batch := batch, replies := replies } : IoSystem β).inFlight = s.inFlight := by
    simp [inFlight, hb, hr]
  refine ⟨?_, h.stale, h.marks, h.asked, h.own, h.listener, ?_⟩
  · rw [hflight]; exact h.tuples
  · rw [hflight]; exact h.order

theorem Routed.deliver {t : Tuple β} (hb : s.batch = t :: batch) : Routed ({ s with batch := batch }.dispatch t) := by
  have hflight : s.inFlight = t :: ({ s with batch := batch } : IoSystem β).inFlight := by
    simp [inFlight, hb]
  have hthis : t ∈ s.inFlight := by rw [hflight]; exact mem_cons_self
  have horder := h.order
  rw [hflight] at horder
  have htuples : ∀ x ∈ ({ s with batch := batch } : IoSystem β).inFlight, x ∈ s.inFlight := by
    intro x hx
    rw [hflight]
    exact mem_cons_of_mem _ hx
  unfold dispatch
  split
  next =>
    refine ⟨fun x hx => h.tuples x (htuples x hx), h.stale, h.marks, h.asked, h.own, h.listener, ?_⟩
    exact ((sublist_cons_self t _).append_left _).trans horder
  next r hr =>
    refine ⟨fun x hx => h.tuples x (htuples x hx), h.stale, h.marks, h.asked, ?_, h.listener, ?_⟩
    · intro f hf hkind o hsource
      rcases mem_append.mp hf with hf | hf
      · exact h.own f hf hkind o hsource
      · cases mem_singleton.mp hf
        have hread : t.io.kind = .read := hkind
        rw [hread] at hr
        exact (h.tuples t hthis hread o hsource).2 r hr
    · show (List.map Firing.tuple (s.fired ++ [⟨r, t⟩]) ++ _).Sublist s.drained
      rw [map_append, append_assoc]
      exact horder

theorem Routed.handle (hd : s.draining = none) (ready : List Nat) (hi : s.inbox = (req, o) :: inbox) :
    Routed ({ s with inbox := inbox }.handle ready o req) := by
  cases req with
  | pump => exact h.poll hd ready hi
  | watch kind fd =>
    have hreg := h.registers hd hi (.inl ⟨rfl, rfl⟩)
    cases kind with
    | read => exact hreg s.marked fun n => by simp
    | accept => exact hreg (fun n => if n = fd then o else s.marked n) fun n => by simp [eq_comm]
    | datagram => exact hreg s.marked fun n => by simp
  | unwatch kind fd =>
    have hreg := h.registers hd hi (.inr ⟨rfl, rfl⟩) s.marked fun n => by simp
    cases kind <;> exact hreg

theorem Routed.exec {e : IoStep β} (hm : s.Meets e) (hx : s.exec e = some t) : Routed t := by
  cases e with
  | watch kind fd block => cases hx; exact h.watch hm
  | unwatch kind fd => cases hx; exact h.unwatch kind fd
  | pumpOnce =>
    cases hx
    apply h.send
    · intro n hn; cases hn
    · intro n u r hreq; cases hreq
  | openFd listening =>
    obtain ⟨⟨n, k⟩, hout, rfl⟩ := map_eq_some_iff.mp hx
    apply h.reopen
    intro m u hu
    rw [use_handOut hout] at hu
    split at hu
    next he =>
      cases hu
      exact .inr ⟨rfl, hm.1 m (by rw [handsOut, hout, he]; rfl)⟩
    next => exact .inl hu
  | close fd =>
    cases hx
    apply h.reopen
    intro n u hu
    rw [Kernel.close, use_set] at hu
    split at hu
    next => cases hu
    next => exact .inl hu
  | arrive fd a =>
    cases hx
    exact h.reopen fun n u hu => .inl (use_arrive s.kernel fd n a ▸ hu)
  | handle ready =>
    simp only [IoSystem.exec] at hx
    split at hx
    next req o inbox hd hi => cases hx; exact h.handle hd ready hi
    next => cases hx
  | drain =>
    simp only [IoSystem.exec] at hx
    split at hx
    next => cases hx
    next results hd => cases hx; exact h.replies hd
    next e es results hd => cases hx; exact h.drainEvent hd hm.1
  | receive =>
    simp only [IoSystem.exec] at hx
    split at hx
    next batch replies hb hr => cases hx; exact h.receive hb hr
    next => cases hx
  | deliver =>
    simp only [IoSystem.exec] at hx
    split at hx
    next => cases hx
    next t batch hb => cases hx; exact h.deliver hb

end

theorem Routed.run : ∀ {es : List (IoStep β)} {s : IoSystem β}, Routed s → s.RunMeets es → s.run es = some t → Routed t := by
  intro es
  induction es with
  | nil => intro s h _ hrun; cases hrun; exact h
  | cons e es ih =>
    intro s h hm hrun
    obtain ⟨u, hx, hrun⟩ := bind_eq_some_iff.mp hrun
    exact ih (h.exec hm.1 hx) (hm.2 u hx) hrun

theorem Initial.routed (h : Initial s) : Routed s := by
  have hflight : s.inFlight = [] := by simp [inFlight, h.batch, h.replies, h.draining]
  refine ⟨?_, ?_, ?_, ?_, ?_, ?_, ?_⟩
  · rw [hflight]; intro t ht; cases ht
  · intro n u r _ hr; rw [h.handlers] at hr; cases hr
  · intro n u _ ha; rw [h.accepting] at ha; cases ha
  · rw [h.inbox]; intro n u _ q hq; cases hq
  · rw [h.fired]; intro f hf; cases hf
  · rw [h.accepts]; intro a ha; cases ha
  · rw [hflight, h.fired]; exact nil_sublist _

theorem Routed.owned (h : Routed s) : Owned s := by
  refine ⟨h.own, fun o => ?_, h.listener⟩
  have hfired := (sublist_append_left (s.fired.map Firing.tuple) s.inFlight).trans h.order
  exact (hfired.filter _).map Tuple.io

/-- In runs that open a number again only when it is retired, what is read from an opening reaches
the continuations of that opening alone. -/
theorem owned_of_runMeets {es : List (IoStep β)} (h : s.Initial) (hmeets : s.RunMeets es)
    (hrun : s.run es = some t) : t.Owned := (h.routed.run hmeets hrun).owned

/-- Nothing is open; the operating system hands out 3 whenever it is free. -/
def idle : IoSystem UInt8 where
  kernel := ⟨fun _ => none, [3, 3, 3], 0⟩
  server := ⟨fun _ => false, fun _ => false⟩
  inbox := []
  draining := none
  replies := []
  batch := []
  handlers := fun _ _ => none
  marked := fun _ => none
  drained := []
  fired := []
  accepts := []

theorem idle_initial : idle.Initial := ⟨rfl, rfl, rfl, rfl, fun _ _ => rfl, fun _ => rfl, rfl, rfl⟩

def reuse : List (IoStep UInt8) :=
  [.openFd false, .watch .read 3 1, .pumpOnce, .arrive 3 (.bytes [104]), .handle [], .handle [3], .drain, .drain,
    .receive, .deliver, .unwatch .read 3, .close 3, .openFd false, .watch .read 3 2, .pumpOnce, .arrive 3 (.bytes [105]),
    .handle [], .handle [], .handle [3], .drain, .drain, .receive, .deliver]

theorem owned_of_runMeets_reuse : ∃ t, idle.run reuse = some t ∧ t.Owned ∧ t.handed 1 = [.data 3 [105] false] := by
  obtain ⟨t, ht⟩ : ∃ t, idle.run reuse = some t := ⟨_, rfl⟩
  refine ⟨t, ht, owned_of_runMeets idle_initial (by decide +kernel) ht, ?_⟩
  have hhanded : (idle.run reuse).map (·.handed 1) = some [.data 3 [105] false] := by decide +kernel
  rw [ht] at hhanded
  exact some.inj hhanded

def lateBatch : List (IoStep UInt8) :=
  [.openFd false, .watch .read 3 1, .pumpOnce, .arrive 3 (.bytes [104]), .handle [], .handle [3], .drain, .drain,
    .unwatch .read 3, .close 3, .openFd false, .watch .read 3 2, .receive, .deliver]

/-- The next stream is given the bytes. -/
theorem lateBatch_reaches_next : ∃ t, idle.run lateBatch = some t ∧
    t.fired = [⟨⟨2, some 1⟩, ⟨.data 3 [104] false, some 0⟩⟩] ∧ ¬ t.Owned := by
  obtain ⟨t, ht⟩ : ∃ t, idle.run lateBatch = some t := ⟨_, rfl⟩
  have hfired : (idle.run lateBatch).map fired =
      some [⟨⟨2, some 1⟩, ⟨.data 3 [104] false, some 0⟩⟩] := by decide +kernel
  rw [ht] at hfired
  have hfired := some.inj hfired
  refine ⟨t, ht, hfired, fun howned => ?_⟩
  have hown := howned.own _ (by rw [hfired]; exact mem_singleton_self _) rfl 0 rfl
  cases hown

/-- A listener that is closed before the worker sees it leaves its mark on the next descriptor. -/
example : (idle.run [.openFd true, .watch .accept 3 1, .pumpOnce, .unwatch .accept 3, .close 3, .openFd false,
    .watch .read 3 2, .arrive 3 (.bytes [104]), .handle [], .handle [3], .drain]).map IoSystem.accepts =
      some [(some 0, some 1)] := by
  decide +kernel

end IoSystem

end WinArmVm
