import WinArmVm.StepRun

namespace WinArmVm

/-- The polling side of an `IoWorker`: the worker it is bound to, which workers the registry calls
alive, how many #pump requests of each are not answered yet, and whether the callback of one runs. -/
structure IoPump where
  worker : Nat
  alive : Nat → Bool
  pumping : Bool
  outstanding : Nat → Nat
  inside : Bool

/-- `arrive` is a reply of a worker, whose callback delivers and then, at `rearm`, tests whether to go
on; a continuation may send the other messages while it delivers, or raise out of the callback. A
worker dies as far as the registry learns of it. -/
inductive PumpStep
  | startPumping
  | stopPumping
  | rebindAfterRestart (w : Nat)
  | terminate
  | die (w : Nat)
  | arrive (w : Nat)
  | rearm
  | raise

namespace IoPump

def start (w : Nat) : IoPump := ⟨w, fun _ => true, false, fun _ => 0, false⟩

def isAlive (s : IoPump) : Bool := s.alive s.worker

def pumpOnce (s : IoPump) : IoPump :=
  if s.isAlive then { s with outstanding := fun w => if w = s.worker then s.outstanding w + 1 else s.outstanding w }
  else { s with inside := false }

def startPumping (s : IoPump) : IoPump := if s.pumping then s else { s with pumping := true }.pumpOnce

def stopPumping (s : IoPump) : IoPump := { s with pumping := false }

def rebindAfterRestart (s : IoPump) (w : Nat) : IoPump := { s with worker := w, pumping := false }.startPumping

def die (s : IoPump) (w : Nat) : IoPump := { s with alive := fun n => if n = w then false else s.alive n }

def terminate (s : IoPump) : IoPump := s.stopPumping.die s.worker

def rearm (s : IoPump) : IoPump :=
  if s.pumping && s.isAlive then { s with inside := false }.pumpOnce else { s with inside := false }

/-- None where the step cannot happen: replies are handled one after another. -/
def exec (s : IoPump) : PumpStep → Option IoPump
  | .startPumping => some s.startPumping
  | .stopPumping => some s.stopPumping
  | .rebindAfterRestart w => some (s.rebindAfterRestart w)
  | .terminate => some s.terminate
  | .die w => some (s.die w)
  | .arrive w =>
    if s.inside = false ∧ 0 < s.outstanding w then
      some { s with inside := true, outstanding := fun n => if n = w then s.outstanding n - 1 else s.outstanding n }
    else none
  | .rearm => if s.inside then some s.rearm else none
  | .raise => if s.inside then some { s with inside := false } else none

/-- No live worker has two requests; while pumping is on and the worker alive, and no callback runs,
it has one. -/
structure OnePump (s : IoPump) : Prop where
  most : ∀ w, s.alive w = true → s.outstanding w ≤ 1
  one : s.inside = false → s.pumping = true → s.isAlive = true → s.outstanding s.worker = 1

/-- The condition on a step: a request is sent only where its worker has none that is not answered,
and a continuation that raises leaves no chain to keep up. -/
def Meets (s : IoPump) : PumpStep → Prop
  | .startPumping => s.pumping = false → s.isAlive = true → s.outstanding s.worker = 0
  | .rebindAfterRestart w => s.alive w = true → s.outstanding w = 0
  | .rearm => s.pumping = true → s.isAlive = true → s.outstanding s.worker = 0
  | .raise => s.pumping = true → s.isAlive = true → s.outstanding s.worker = 1
  | _ => True

theorem start_onePump (w : Nat) : OnePump (start w) where
  most _ _ := Nat.zero_le 1
  one _ hp := by cases hp

variable {s : IoPump}

section

variable (hmost : ∀ w, s.alive w = true → s.outstanding w ≤ 1)

include hmost

theorem pumpOnce_onePump (ha : s.isAlive = true) : s.pumpOnce.OnePump ↔ s.outstanding s.worker = 0 := by
  have hsent : s.pumpOnce.outstanding s.worker = s.outstanding s.worker + 1 := by
    rw [pumpOnce, if_pos ha]
    exact if_pos rfl
  have halive : s.pumpOnce.alive = s.alive := by rw [pumpOnce, if_pos ha]
  have hworker : s.pumpOnce.worker = s.worker := by rw [pumpOnce, if_pos ha]
  constructor
  · intro h
    have hle := h.most s.worker (by rw [halive]; exact ha)
    omega
  · intro h
    refine ⟨fun w hw => ?_, fun _ _ _ => by rw [hworker, hsent, h]⟩
    by_cases heq : w = s.worker
    · rw [heq]
      exact Nat.le_of_eq (by rw [hsent, h])
    · have hother : s.pumpOnce.outstanding w = s.outstanding w := by
        rw [pumpOnce, if_pos ha]
        exact if_neg heq
      rw [hother]
      exact hmost w (halive ▸ hw)

theorem pumpOnce_dead (ha : s.isAlive = false) : s.pumpOnce.OnePump := by
  have hdead : s.pumpOnce = { s with inside := false } := by
    rw [pumpOnce, if_neg (by rw [ha]; decide)]
  rw [hdead]
  refine ⟨hmost, fun _ _ hal => ?_⟩
  have halive : s.isAlive = true := hal
  rw [ha] at halive
  cases halive

theorem startPumping_onePump (hp : s.pumping = false) :
    s.startPumping.OnePump ↔ (s.isAlive = true → s.outstanding s.worker = 0) := by
  rw [startPumping, if_neg (by rw [hp]; decide)]
  cases ha : s.isAlive with
  | true => exact (pumpOnce_onePump (s := { s with pumping := true }) hmost ha).trans ⟨fun h _ => h, fun h => h rfl⟩
  | false => exact iff_of_true (pumpOnce_dead (s := { s with pumping := true }) hmost ha) fun h => by cases h

end

theorem die_onePump (h : s.OnePump) (w : Nat) : (s.die w).OnePump := by
  have hle (n : Nat) (hn : (s.die w).alive n = true) : s.alive n = true := by
    have hn' : (if n = w then false else s.alive n) = true := hn
    split at hn'
    next => cases hn'
    next => exact hn'
  exact ⟨fun n hn => h.most n (hle n hn), fun hi hp ha => h.one hi hp (hle _ ha)⟩

theorem stopPumping_onePump (h : s.OnePump) : s.stopPumping.OnePump := by
  refine ⟨h.most, fun _ hp => ?_⟩
  cases hp

theorem step_onePump {s t : IoPump} (h : s.OnePump) {e : PumpStep} (hx : s.exec e = some t) :
    t.OnePump ↔ s.Meets e := by
  cases e with
  | startPumping =>
    cases hx
    cases hp : s.pumping with
    | true =>
      have hsame : s.startPumping = s := if_pos hp
      rw [hsame]
      exact iff_of_true h fun hoff => by rw [hp] at hoff; cases hoff
    | false => exact (startPumping_onePump h.most hp).trans ⟨fun ha _ => ha, fun ha => ha hp⟩
  | stopPumping =>
    cases hx
    exact iff_of_true (stopPumping_onePump h) trivial
  | rebindAfterRestart w =>
    cases hx
    exact startPumping_onePump (s := { s with worker := w, pumping := false }) h.most rfl
  | terminate =>
    cases hx
    exact iff_of_true (die_onePump (stopPumping_onePump h) _) trivial
  | die w =>
    cases hx
    exact iff_of_true (die_onePump h w) trivial
  | arrive w =>
    obtain ⟨-, rfl⟩ := StepRun.guarded hx
    refine iff_of_true ⟨fun n hn => ?_, fun hi => by cases hi⟩ trivial
    have hle := h.most n hn
    show (if n = w then s.outstanding n - 1 else s.outstanding n) ≤ 1
    split <;> omega
  | rearm =>
    obtain ⟨-, rfl⟩ := StepRun.guarded hx
    by_cases hon : (s.pumping && s.isAlive) = true
    · obtain ⟨hp, ha⟩ := Bool.and_eq_true_iff.mp hon
      rw [rearm, if_pos hon]
      refine (pumpOnce_onePump (s := { s with inside := false }) h.most ha).trans ?_
      exact ⟨fun hz _ _ => hz, fun hz => hz hp ha⟩
    · rw [rearm, if_neg hon]
      have hoff : s.pumping = true → s.isAlive = true → False := fun hp ha => hon (Bool.and_eq_true_iff.mpr ⟨hp, ha⟩)
      exact iff_of_true ⟨h.most, fun _ hp ha => (hoff hp ha).elim⟩ fun hp ha => (hoff hp ha).elim
  | raise =>
    obtain ⟨-, rfl⟩ := StepRun.guarded hx
    exact ⟨fun hone => hone.one rfl, fun hone => ⟨h.most, fun _ => hone⟩⟩

/-- In every run there is one pump at a time exactly when every step of the run meets the condition. -/
theorem onePump_iff_meets {w : Nat} {t : IoPump} {es : List PumpStep} (h : StepRun.run exec (start w) es = some t) :
    StepRun.Always exec (start w) es OnePump ↔ StepRun.Stepwise exec (start w) es Meets :=
  StepRun.always_iff_stepwise (I := fun _ => True) (fun _ _ _ _ _ => trivial)
    (fun _ _ _ _ hone hx => step_onePump hone hx) trivial (start_onePump w) h

def restarted : List PumpStep := [.startPumping, .stopPumping, .startPumping]

theorem two_pumps :
    ∃ t, StepRun.run exec (start 1) restarted = some t ∧ t.isAlive = true ∧ t.pumping = true ∧ t.inside = false ∧
      t.outstanding t.worker = 2 :=
  ⟨_, rfl, rfl, rfl, rfl, rfl⟩

/-- The pump goes on with a second worker after the death of the first. -/
def awaited : List PumpStep :=
  [.startPumping, .arrive 1, .rearm, .stopPumping, .arrive 1, .rearm, .startPumping, .die 1, .rebindAfterRestart 2,
    .arrive 2, .rearm]

theorem onePump_iff_meets_awaited : ∃ t, StepRun.run exec (start 1) awaited = some t ∧ t.outstanding t.worker = 1 ∧
      (StepRun.Always exec (start 1) awaited OnePump ↔ StepRun.Stepwise exec (start 1) awaited Meets) :=
  ⟨_, rfl, rfl, onePump_iff_meets rfl⟩

end IoPump

end WinArmVm
