import WinArmVm.StepRun

namespace WinArmVm

open List

/-- Where a sender is inside `InboxSender::send`. -/
inductive SendPhase
  | idle
  | enqueued
  | calling
deriving DecidableEq

/-- Where the receiver is: not draining, about to clear the flag, or about to take. -/
inductive DrainPhase
  | idle
  | polling
  | cleared
deriving DecidableEq

/-- The channel and the flag of a primary's or a hosted worker's inbox, with senders `ι`. `fired`
says whether the hook was called since the last drain began; `delivered` is what was taken. -/
structure Inbox (ι β : Type) where
  queue : List (ι × β)
  wakePending : Bool
  phase : ι → SendPhase
  drain : DrainPhase
  fired : Bool
  delivered : List (ι × β)

inductive InboxStep (ι β : Type)
  | enqueue (i : ι) (b : β)
  | swap (i : ι)
  | hook (i : ι)
  | startDrain
  | clear
  | take

namespace InboxStep

variable {ι β : Type}

def sent : InboxStep ι β → Option (ι × β)
  | .enqueue i b => some (i, b)
  | _ => none

def sentBy [DecidableEq ι] (i : ι) : InboxStep ι β → Option β
  | .enqueue j b => if j = i then some b else none
  | _ => none

end InboxStep

namespace Inbox

variable {ι β : Type} [DecidableEq ι]

def start : Inbox ι β := ⟨[], false, fun _ => .idle, .idle, false, []⟩

def setPhase (s : Inbox ι β) (i : ι) (p : SendPhase) : Inbox ι β :=
  { s with phase := fun j => if j = i then p else s.phase j }

/-- `wake_pending.swap(true)`; the one who finds it clear goes on to the hook. -/
def swap (s : Inbox ι β) (i : ι) : Inbox ι β :=
  if s.wakePending then s.setPhase i .idle else { s with wakePending := true }.setPhase i .calling

def clear (s : Inbox ι β) : Inbox ι β := { s with wakePending := false, drain := .cleared }

/-- `try_recv`; the drain is over when there is nothing. -/
def take (s : Inbox ι β) : Inbox ι β :=
  match s.queue with
  | [] => { s with drain := .idle }
  | e :: queue => { s with queue := queue, drain := .polling, delivered := s.delivered ++ [e] }

/-- None where the step cannot happen. -/
def exec (s : Inbox ι β) : InboxStep ι β → Option (Inbox ι β)
  | .enqueue i b => if s.phase i = .idle then some ({ s with queue := s.queue ++ [(i, b)] }.setPhase i .enqueued) else none
  | .swap i => if s.phase i = .enqueued then some (s.swap i) else none
  | .hook i => if s.phase i = .calling then some ({ s with fired := true }.setPhase i .idle) else none
  | .startDrain => if s.drain = .idle then some { s with drain := .polling, fired := false } else none
  | .clear => if s.drain = .polling then some s.clear else none
  | .take => if s.drain = .cleared then some s.take else none

abbrev run (s : Inbox ι β) (es : List (InboxStep ι β)) : Option (Inbox ι β) := StepRun.run exec s es

@[simp] theorem setPhase_same (s : Inbox ι β) (i : ι) (p : SendPhase) : (s.setPhase i p).phase i = p := if_pos rfl

theorem setPhase_other (s : Inbox ι β) {i j : ι} (h : j ≠ i) (p : SendPhase) : (s.setPhase i p).phase j = s.phase j :=
  if_neg h

variable {s : Inbox ι β}

theorem phase_kept {i j : ι} {p q : SendPhase} (hj : s.phase j = q) (hi : s.phase i ≠ q) :
    (s.setPhase i p).phase j = q := by
  have hne : j ≠ i := fun hij => hi (hij ▸ hj)
  rw [setPhase_other s hne, hj]

/-- The flag is set only while the hook was called since the last clear or its call is due; a
receiver at rest leaves no envelope whose sender has not yet to look at the flag. -/
structure Woken (s : Inbox ι β) : Prop where
  flag : s.drain ≠ .polling → s.wakePending = true → s.fired = true ∨ ∃ i, s.phase i = .calling
  queue : s.drain = .idle → s.wakePending = false → s.queue ≠ [] → ∃ i, s.phase i = .enqueued

omit [DecidableEq ι] in
theorem start_woken : Woken (start : Inbox ι β) where
  flag _ h := by cases h
  queue _ _ h := absurd rfl h

theorem Woken.enqueue (h : Woken s) {i : ι} (b : β) (hi : s.phase i = .idle) :
    Woken ({ s with queue := s.queue ++ [(i, b)] }.setPhase i .enqueued) where
  flag hd hw := by
    obtain hf | ⟨j, hj⟩ := h.flag hd hw
    · exact .inl hf
    · exact .inr ⟨j, phase_kept hj (by rw [hi]; decide)⟩
  queue _ _ _ := ⟨i, setPhase_same _ i _⟩

theorem Woken.swap (h : Woken s) {i : ι} (hi : s.phase i = .enqueued) : Woken (s.swap i) := by
  unfold Inbox.swap
  split
  next hw =>
    refine ⟨fun hd _ => ?_, fun _ hclear => ?_⟩
    · obtain hf | ⟨j, hj⟩ := h.flag hd hw
      · exact .inl hf
      · exact .inr ⟨j, phase_kept hj (by rw [hi]; decide)⟩
    · -- The flag stays set, so there is nothing to show for a clear one.
      have hset : s.wakePending = false := hclear
      rw [hw] at hset
      cases hset
  next =>
    refine ⟨fun _ _ => .inr ⟨i, setPhase_same _ i _⟩, fun _ hclear => ?_⟩
    cases hclear

theorem Woken.hook (h : Woken s) {i : ι} (hi : s.phase i = .calling) :
    Woken ({ s with fired := true }.setPhase i .idle) where
  flag _ _ := .inl rfl
  queue hd hw hq := by
    obtain ⟨j, hj⟩ := h.queue hd hw hq
    exact ⟨j, phase_kept hj (by rw [hi]; decide)⟩

omit [DecidableEq ι] in
theorem Woken.startDrain (s : Inbox ι β) : Woken { s with drain := .polling, fired := false } where
  flag hd := absurd rfl hd
  queue hd := by cases hd

omit [DecidableEq ι] in
theorem Woken.clear (s : Inbox ι β) : Woken s.clear where
  flag _ hw := by cases hw
  queue hd := by cases hd

omit [DecidableEq ι] in
theorem Woken.take {s : Inbox ι β} (h : Woken s) (hd : s.drain = .cleared) : Woken s.take := by
  unfold Inbox.take
  split
  next hq =>
    refine ⟨fun _ hw => ?_, fun _ _ hne => absurd hq hne⟩
    have hcleared : s.drain ≠ .polling := by rw [hd]; decide
    exact h.flag hcleared hw
  next =>
    refine ⟨fun hne => absurd rfl hne, fun hidle => ?_⟩
    cases hidle

theorem Woken.step {s t : Inbox ι β} (h : Woken s) {e : InboxStep ι β} (hx : s.exec e = some t) : Woken t := by
  cases e with
  | enqueue i b =>
    obtain ⟨hi, rfl⟩ := StepRun.guarded hx
    exact h.enqueue b hi
  | swap i =>
    obtain ⟨hi, rfl⟩ := StepRun.guarded hx
    exact h.swap hi
  | hook i =>
    obtain ⟨hi, rfl⟩ := StepRun.guarded hx
    exact h.hook hi
  | startDrain =>
    obtain ⟨-, rfl⟩ := StepRun.guarded hx
    exact Woken.startDrain s
  | clear =>
    obtain ⟨-, rfl⟩ := StepRun.guarded hx
    exact Woken.clear s
  | take =>
    obtain ⟨hd, rfl⟩ := StepRun.guarded hx
    exact h.take hd

def passed (s : Inbox ι β) : List (ι × β) := s.delivered ++ s.queue

theorem passed_swap (s : Inbox ι β) (i : ι) : (s.swap i).passed = s.passed := by
  unfold swap
  split <;> rfl

omit [DecidableEq ι] in
theorem passed_take (s : Inbox ι β) : s.take.passed = s.passed := by
  unfold take
  split
  next => rfl
  next e queue hq =>
    show (s.delivered ++ [e]) ++ queue = s.delivered ++ s.queue
    rw [hq, append_assoc, singleton_append]

theorem passed_step {s t : Inbox ι β} {e : InboxStep ι β} (hx : s.exec e = some t) :
    t.passed = s.passed ++ e.sent.toList := by
  cases e with
  | enqueue i b =>
    obtain ⟨-, rfl⟩ := StepRun.guarded hx
    exact (append_assoc ..).symm
  | swap i =>
    obtain ⟨-, rfl⟩ := StepRun.guarded hx
    exact (passed_swap s i).trans (append_nil _).symm
  | take =>
    obtain ⟨-, rfl⟩ := StepRun.guarded hx
    exact (passed_take s).trans (append_nil _).symm
  | _ =>
    obtain ⟨-, rfl⟩ := StepRun.guarded hx
    exact (append_nil _).symm

theorem passed_run {s t : Inbox ι β} {es : List (InboxStep ι β)} (hx : s.run es = some t) :
    t.passed = s.passed ++ es.filterMap InboxStep.sent := by
  induction es generalizing s with
  | nil =>
    cases hx
    exact (append_nil _).symm
  | cons e es ih =>
    obtain ⟨u, hu, hrest⟩ := Option.bind_eq_some_iff.mp hx
    rw [ih hrest, passed_step hu, append_assoc]
    congr 1
    rw [filterMap_cons]
    cases e.sent <;> rfl

def sentBy (i : ι) (es : List (ι × β)) : List β := es.filterMap fun e => if e.1 = i then some e.2 else none

theorem sentBy_sent (i : ι) (es : List (InboxStep ι β)) :
    sentBy i (es.filterMap InboxStep.sent) = es.filterMap (InboxStep.sentBy i) := by
  rw [sentBy, filterMap_filterMap]
  congr 1
  funext e
  cases e <;> rfl

/-- A receiver at rest with a queue that is not empty has been woken, once nobody is inside
`send`; what was taken and what waits is what was sent, in its order, for each sender too. -/
theorem no_lost_wakeup {s : Inbox ι β} {es : List (InboxStep ι β)} (h : start.run es = some s) :
    (s.drain = .idle → (∀ i, s.phase i = .idle) → s.queue ≠ [] → s.fired = true) ∧
      s.delivered ++ s.queue = es.filterMap InboxStep.sent ∧
      ∀ i, sentBy i s.delivered ++ sentBy i s.queue = es.filterMap (InboxStep.sentBy i) := by
  have hwoken := StepRun.run_keeps (fun _ _ _ hs hx => hs.step hx) start_woken h
  have hpassed : s.delivered ++ s.queue = es.filterMap InboxStep.sent := passed_run h
  refine ⟨fun hd hidle hq => ?_, hpassed, fun i => ?_⟩
  · cases hflag : s.wakePending with
    | true =>
      obtain hf | ⟨i, hi⟩ := hwoken.flag (by rw [hd]; decide) hflag
      · exact hf
      · rw [hidle i] at hi
        cases hi
    | false =>
      obtain ⟨i, hi⟩ := hwoken.queue hd hflag hq
      rw [hidle i] at hi
      cases hi
  · rw [← sentBy_sent, ← hpassed, sentBy, sentBy, sentBy, filterMap_append]

/-- Two senders while a drain is about to finish. -/
def racing : List (InboxStep Bool Nat) :=
  [.enqueue true 1, .swap true, .enqueue false 2, .hook true, .startDrain, .clear, .take, .swap false, .clear, .take,
    .hook false, .clear, .take, .enqueue true 3, .swap true, .hook true]

theorem no_lost_wakeup_racing :
    ∃ s, start.run racing = some s ∧ s.drain = .idle ∧ s.queue = [(true, 3)] ∧ s.fired = true ∧
      s.delivered = [(true, 1), (false, 2)] ∧ sentBy true s.delivered ++ sentBy true s.queue = [1, 3] := by
  have hrun : start.run racing = some _ := rfl
  obtain ⟨hwoken, -, hsent⟩ := no_lost_wakeup hrun
  refine ⟨_, rfl, rfl, rfl, ?_, rfl, hsent true⟩
  refine hwoken rfl (fun i => ?_) (by decide)
  cases i <;> rfl

end Inbox

end WinArmVm
