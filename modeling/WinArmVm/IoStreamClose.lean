import WinArmVm.IoStreamChunks
import WinArmVm.StepRun

namespace WinArmVm

open List

/-- Where the primary is: in its top loop, in the loop of `service`, or inside a continuation. -/
inductive StreamPhase
  | idle
  | sweeping
  | inside
deriving DecidableEq

/-- What happens to a stream, one thing at a time: `turn` is a test of the loop of `service` with the
firing it leads to, `ret` and `raise` are the two ways out of a continuation. A request or a close
comes from the top loop or from inside a continuation. -/
inductive StreamStep
  | deliver (bytes : List UInt8) (eof : Bool)
  | ask (req : Request)
  | close
  | turn
  | ret
  | raise

/-- The stream with what happened to it: the requests made, those that fired, and what came in. -/
structure StreamState where
  stream : IoStream
  phase : StreamPhase
  made : List Request
  fired : List Fired
  inputs : List (List UInt8 × Bool)
deriving DecidableEq

namespace StreamState

def start : StreamState := ⟨IoStream.new, .idle, [], [], []⟩

def service (s : StreamState) : StreamState :=
  if s.stream.servicing then s else { s with stream := { s.stream with servicing := true }, phase := .sweeping }

def fireHead (s : StreamState) (req : Request) (rest : List Request) : StreamState :=
  let a := IoStream.take s.stream.inBuf req.framing
  { s with
    stream := { s.stream with inBuf := s.stream.inBuf.drop a.2, pending := rest }
    phase := .inside
    fired := s.fired ++ [⟨req, a.1, (s.fired.map Fired.taken).flatten, s.stream.inBuf.take a.2⟩] }

def atRest (s : StreamState) : StreamState := { s with stream := { s.stream with servicing := false }, phase := .idle }

def turn (s : StreamState) : StreamState :=
  match s.stream.pending with
  | [] => s.atRest
  | req :: rest => if s.stream.headSatisfiable req then s.fireHead req rest else s.atRest

def queued (s : StreamState) (req : Request) : StreamState :=
  { s with stream := { s.stream with pending := s.stream.pending ++ [req] }, made := s.made ++ [req] }

def delivered (s : StreamState) (bytes : List UInt8) (e : Bool) : StreamState :=
  { s with
    stream := { s.stream with servicing := false, inBuf := s.stream.inBuf ++ bytes, eof := s.stream.eof || e }
    inputs := s.inputs ++ [(bytes, e)] }

def closed (s : StreamState) : StreamState :=
  { s with stream := { s.stream with eof := true }, inputs := s.inputs ++ [([], true)] }

/-- None where the step cannot happen: data comes from the top loop only. -/
def exec (s : StreamState) : StreamStep → Option StreamState
  | .deliver bytes e => if s.phase = .idle then some (s.delivered bytes e).service else none
  | .ask req => if s.phase = .sweeping then none else some (s.queued req).service
  | .close => if s.phase = .sweeping then none else some s.closed.service
  | .turn => if s.phase = .sweeping then some s.turn else none
  | .ret => if s.phase = .inside then some { s with phase := .sweeping } else none
  | .raise => if s.phase = .inside then some { s with phase := .idle } else none

abbrev run (s : StreamState) (es : List StreamStep) : Option StreamState := StepRun.run exec s es

/-- Nothing dangles: the oldest request left is one the bytes do not satisfy, so that none is left
after a close; the requests fired once each and in their order, each with what it asked for, or at the
end of input with what was left of it. -/
structure Settled (s : StreamState) : Prop where
  waiting : s.stream.Waiting
  closed : s.stream.eof = true → s.stream.pending = []
  ordered : s.fired.map Fired.request ++ s.stream.pending = s.made
  answers : Answered (Ended s.inputs) s.fired

/-- The condition on a step: what comes from the top loop does not find the flag that a raise left set,
where it matters, and a block raises only with no other request satisfied. -/
def Meets (s : StreamState) : StreamStep → Prop
  | .ask req => s.phase = .idle → s.stream.servicing = false ∨ (s.queued req).stream.Waiting
  | .close => s.phase = .idle → s.stream.servicing = false ∨ s.stream.pending = []
  | .raise => s.stream.Waiting
  | _ => True

structure Sound (s : StreamState) : Prop where
  guarded : s.phase ≠ .idle → s.stream.servicing = true
  ordered : s.fired.map Fired.request ++ s.stream.pending = s.made
  split : (s.fired.map Fired.taken).flatten ++ s.stream.inBuf = (s.inputs.map Prod.fst).flatten
  told : s.stream.eof = true → ∃ c ∈ s.inputs, c.2 = true
  answers : Answered (Ended s.inputs) s.fired

theorem start_sound : Sound start where
  guarded h := absurd rfl h
  ordered := rfl
  split := rfl
  told he := by cases he
  answers pre f post h := by simp [start] at h

variable {s : StreamState} {σ : Type} {req : Request}

section

variable (h : Sound s)

include h

theorem Sound.service : Sound s.service := by
  unfold StreamState.service
  split
  next => exact h
  next => exact ⟨fun _ => rfl, h.ordered, h.split, h.told, h.answers⟩

theorem Sound.queued (req : Request) : Sound (s.queued req) where
  guarded := h.guarded
  ordered := by
    show s.fired.map Fired.request ++ (s.stream.pending ++ [req]) = s.made ++ [req]
    rw [← append_assoc, h.ordered]
  split := h.split
  told := h.told
  answers := h.answers

theorem Sound.delivered (bytes : List UInt8) (e : Bool) (hidle : s.phase = .idle) : Sound (s.delivered bytes e) where
  guarded hne := absurd hidle hne
  ordered := h.ordered
  split := by
    show (s.fired.map Fired.taken).flatten ++ (s.stream.inBuf ++ bytes) = ((s.inputs ++ [(bytes, e)]).map Prod.fst).flatten
    rw [← append_assoc, h.split]
    simp
  told he := by
    rcases Bool.or_eq_true_iff.mp he with he | he
    · obtain ⟨c, hc, htrue⟩ := h.told he
      exact ⟨c, mem_append_left _ hc, htrue⟩
    · exact ⟨(bytes, e), mem_append_right _ (mem_singleton_self _), he⟩
  answers := h.answers.mono fun _ hbs => hbs.mono _

theorem Sound.closed : Sound s.closed where
  guarded := h.guarded
  ordered := h.ordered
  split := by
    show _ = ((s.inputs ++ [([], true)]).map Prod.fst).flatten
    rw [map_append, flatten_append, ← h.split]
    exact (append_nil _).symm
  told _ := ⟨([], true), mem_append_right _ (mem_singleton_self _), rfl⟩
  answers := h.answers.mono fun _ hbs => hbs.mono _

theorem Sound.fireHead (hs : s.stream.servicing = true)
    {rest : List Request} (hp : s.stream.pending = req :: rest) (hsat : s.stream.headSatisfiable req = true) :
    Sound (s.fireHead req rest) where
  guarded _ := hs
  ordered := by
    show (s.fired ++ [_]).map Fired.request ++ rest = s.made
    rw [map_append, append_assoc, ← h.ordered, hp]
    rfl
  split := by
    show ((s.fired ++ [_]).map Fired.taken).flatten ++ s.stream.inBuf.drop _ = (s.inputs.map Prod.fst).flatten
    rw [← h.split, map_append, flatten_append, append_assoc]
    simp
  told := h.told
  answers := IoStream.fired_answered h.answers hsat fun he => ⟨s.inputs, prefix_rfl, h.told he, h.split⟩

theorem Sound.atRest : Sound s.atRest := ⟨fun hne => absurd rfl hne, h.ordered, h.split, h.told, h.answers⟩

theorem Sound.turn (hphase : s.phase = .sweeping) : Sound s.turn := by
  unfold StreamState.turn
  split
  next => exact h.atRest
  next req rest hp =>
    split
    next hsat => exact h.fireHead (h.guarded (by rw [hphase]; decide)) hp hsat
    next => exact h.atRest

end

theorem Sound.step {s t : StreamState} (h : Sound s) {e : StreamStep} (hx : s.exec e = some t) : Sound t := by
  cases e with
  | deliver bytes e =>
    obtain ⟨hidle, rfl⟩ := StepRun.guarded hx
    exact (h.delivered bytes e hidle).service
  | ask req =>
    obtain ⟨-, rfl⟩ := StepRun.guarded_not hx
    exact (h.queued req).service
  | close =>
    obtain ⟨-, rfl⟩ := StepRun.guarded_not hx
    exact h.closed.service
  | turn =>
    obtain ⟨hphase, rfl⟩ := StepRun.guarded hx
    exact h.turn hphase
  | ret =>
    obtain ⟨hphase, rfl⟩ := StepRun.guarded hx
    exact ⟨fun _ => h.guarded (by rw [hphase]; decide), h.ordered, h.split, h.told, h.answers⟩
  | raise =>
    obtain ⟨-, rfl⟩ := StepRun.guarded hx
    exact ⟨fun hne => absurd rfl hne, h.ordered, h.split, h.told, h.answers⟩

theorem waiting_closed {s : IoStream} (he : s.eof = true) : s.Waiting ↔ s.pending = [] := by
  constructor
  · intro hw
    cases hp : s.pending with
    | nil => rfl
    | cons req rest =>
      have hsat := hw req rest hp
      rw [IoStream.headSatisfiable, he] at hsat
      cases hsat
  · intro hp req rest hcons
    rw [hp] at hcons
    cases hcons

theorem Sound.settled (h : Sound s) (hw : s.stream.Waiting) : Settled s :=
  ⟨hw, fun he => (waiting_closed he).mp hw, h.ordered, h.answers⟩

theorem service_waiting (h : s.phase = .idle) :
    (s.service.phase = .idle → s.service.stream.Waiting) ↔ s.stream.servicing = false ∨ s.stream.Waiting := by
  unfold service
  split
  next hflag =>
    constructor
    · intro hw
      exact .inr (hw h)
    · rintro (hclear | hw)
      · rw [hflag] at hclear
        cases hclear
      · exact fun _ => hw
  next hflag =>
    constructor
    · intro
      exact .inl (Bool.not_eq_true _ ▸ hflag)
    · intro _ hidle
      cases hidle

theorem service_inside (h : Sound s) (hphase : s.phase ≠ .idle) : s.service = s := if_pos (h.guarded hphase)

theorem turn_waiting (h : s.turn.phase = .idle) : s.turn.stream.Waiting := by
  have hcases : s.turn = s.atRest ∧ s.stream.Waiting ∨ s.turn.phase = .inside := by
    unfold turn
    split
    next hp =>
      refine .inl ⟨rfl, fun req rest hcons => ?_⟩
      rw [hp] at hcons
      cases hcons
    next req rest hp =>
      by_cases hsat : s.stream.headSatisfiable req = true
      · rw [if_pos hsat]
        exact .inr rfl
      · rw [if_neg hsat]
        refine .inl ⟨rfl, fun req' rest' hcons => ?_⟩
        rw [hp] at hcons
        obtain ⟨rfl, rfl⟩ := List.cons.inj hcons
        exact Bool.not_eq_true _ ▸ hsat
  obtain ⟨hrest, hw⟩ | hinside := hcases
  · rw [hrest]
    exact hw
  · rw [hinside] at h
    cases h

theorem step_meets {s t : StreamState} (h : Sound s) {e : StreamStep} (hx : s.exec e = some t) :
    (t.phase = .idle → t.stream.Waiting) ↔ s.Meets e := by
  cases e with
  | deliver bytes e =>
    obtain ⟨hidle, rfl⟩ := StepRun.guarded hx
    exact iff_true_intro ((service_waiting (s := s.delivered bytes e) hidle).mpr (.inl rfl))
  | ask req =>
    obtain ⟨hne, rfl⟩ := StepRun.guarded_not hx
    by_cases hidle : s.phase = .idle
    · exact (service_waiting (s := s.queued req) hidle).trans ⟨fun hw _ => hw, fun hw => hw hidle⟩
    · rw [service_inside (h.queued req) hidle]
      exact ⟨fun _ hi => absurd hi hidle, fun _ hi => absurd hi hidle⟩
  | close =>
    obtain ⟨hne, rfl⟩ := StepRun.guarded_not hx
    by_cases hidle : s.phase = .idle
    · refine (service_waiting (s := s.closed) hidle).trans ?_
      rw [waiting_closed (s := s.closed.stream) rfl]
      exact ⟨fun hw _ => hw, fun hw => hw hidle⟩
    · rw [service_inside h.closed hidle]
      exact ⟨fun _ hi => absurd hi hidle, fun _ hi => absurd hi hidle⟩
  | turn =>
    obtain ⟨-, rfl⟩ := StepRun.guarded hx
    exact iff_true_intro turn_waiting
  | ret =>
    obtain ⟨-, rfl⟩ := StepRun.guarded hx
    refine iff_true_intro fun hidle => ?_
    cases hidle
  | raise =>
    obtain ⟨-, rfl⟩ := StepRun.guarded hx
    exact ⟨fun hw => hw rfl, fun hw _ => hw⟩

/-- In every run nothing dangles whenever the primary is back in its top loop, exactly when every
step of the run meets the condition. -/
theorem settled_iff_meets {t : StreamState} {es : List StreamStep} (h : start.run es = some t) :
    StepRun.Always exec start es (fun u => u.phase = .idle → u.Settled) ↔ StepRun.Stepwise exec start es Meets := by
  refine StepRun.always_iff_stepwise (fun _ _ _ hs hx => hs.step hx) (fun _ _ _ hs _ hx => ?_) start_sound (fun _ => ?_) h
  · refine Iff.trans ?_ (step_meets hs hx)
    exact forall_congr' fun _ => ⟨Settled.waiting, (hs.step hx).settled⟩
  · exact start_sound.settled fun req rest hp => by cases hp

def dangling : List StreamStep :=
  [.ask ⟨1, .line⟩, .turn, .deliver [10] false, .turn, .raise, .ask ⟨2, .count 1⟩, .close]

/-- The close fires nothing, although the stream is closed and a request is pending. -/
theorem close_leaves_dangling :
    ∃ s, start.run dangling = some s ∧ s.phase = .idle ∧ s.stream.eof = true ∧ s.stream.pending = [⟨2, .count 1⟩] ∧
      s.fired.map Fired.request = [⟨1, .line⟩] :=
  ⟨_, rfl, rfl, rfl, rfl, rfl⟩

def healed : List StreamStep :=
  [.ask ⟨1, .line⟩, .turn, .deliver [10] false, .turn, .raise, .deliver [98] false, .turn, .ask ⟨2, .count 2⟩, .turn,
    .ask ⟨3, .line⟩, .turn, .close, .turn, .ret, .turn, .ret, .turn]

theorem settled_iff_meets_healed : ∃ s, start.run healed = some s ∧ s.phase = .idle ∧ s.stream.eof = true ∧
      (StepRun.Always exec start healed (fun u => u.phase = .idle → u.Settled) ↔
        StepRun.Stepwise exec start healed Meets) :=
  ⟨_, rfl, rfl, rfl, settled_iff_meets rfl⟩

variable (code : UserCode σ) (inputs : List (List UInt8 × Bool))

variable (made : List Request)

def Takes (r t : Reader σ) : StreamOp → Prop
  | .deliver bytes e => ∃ fuel, r.deliverData code fuel bytes e = some t
  | .ask req => ∃ fuel, r.enqueue code fuel req = some t

end StreamState

end WinArmVm
