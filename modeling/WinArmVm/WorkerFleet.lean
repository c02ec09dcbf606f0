import WinArmVm.StepRun
import Mathlib.Data.List.Nodup

namespace WinArmVm

open List Option

def MAX_WORKERS : Nat := 16

/-- Where the thread of a worker is: in its boot or init, in `recv`, in a dispatch, past its death
report, or gone with its receiver. -/
inductive WorkerPhase
  | booting
  | serving
  | dispatching
  | reported
  | gone
deriving DecidableEq

inductive EnvelopeKind
  | workerDied
  | reply
deriving DecidableEq

/-- `sender` is the id that an envelope carries; the incarnation is the one that replied or that died. -/
structure WorkerEnvelope where
  sender : Nat
  kind : EnvelopeKind
  incarnation : Nat
deriving DecidableEq

structure WorkerLink where
  incarnation : Nat
  alive : Bool
deriving DecidableEq

/-- `closed` says that the primary's end of the channel is dropped; `terminated` only records. -/
structure WorkerThread where
  id : Nat
  hosted : Bool
  phase : WorkerPhase
  queued : Nat
  closed : Bool
  terminated : Bool
deriving DecidableEq

def WorkerThread.cutOff (t : WorkerThread) (deliberate : Bool) : WorkerThread :=
  { t with closed := true, terminated := t.terminated || deliberate }

/-- An envelope the primary took, and the incarnation that was registered under its id then. -/
structure Delivery where
  envelope : WorkerEnvelope
  registered : Option Nat
deriving DecidableEq

/-- The primary's registry, the threads of all incarnations so far, and the primary's inbox. -/
structure WorkerFleet where
  links : List WorkerLink
  spawned : Nat
  threads : Nat → WorkerThread
  inbox : List WorkerEnvelope
  delivered : List Delivery

/-- The last ones are steps of an incarnation's thread: `fail` is a death in boot or init, `vanish` one
that reports nothing, `exit` the end of a channel that is closed. -/
inductive FleetStep
  | spawn
  | registerHosted
  | terminate (id : Nat)
  | send (id : Nat)
  | deliver
  | boot (k : Nat)
  | fail (k : Nat)
  | take (k : Nat)
  | reply (k : Nat)
  | done (k : Nat)
  | crash (k : Nat)
  | exit (k : Nat)
  | drop (k : Nat)
  | vanish (k : Nat)

namespace WorkerFleet

def start : WorkerFleet := ⟨[], 0, fun _ => ⟨0, false, .gone, 0, true, false⟩, [], []⟩

def link (s : WorkerFleet) (id : Nat) : Option WorkerLink := if id = 0 then none else s.links[id - 1]?

def registered (s : WorkerFleet) (id : Nat) : Option Nat := (s.link id).map WorkerLink.incarnation

def sent (s : WorkerFleet) : List WorkerEnvelope := s.delivered.map Delivery.envelope ++ s.inbox

def reports (s : WorkerFleet) (k : Nat) : Nat := s.sent.countP fun e => e.kind = .workerDied ∧ e.incarnation = k

def onThread (s : WorkerFleet) (k : Nat) (f : WorkerThread → WorkerThread) : WorkerFleet :=
  { s with threads := fun n => if n = k then f (s.threads n) else s.threads n }

def setLink (s : WorkerFleet) (id : Nat) (l : WorkerLink) : WorkerFleet := { s with links := s.links.set (id - 1) l }

def post (s : WorkerFleet) (e : WorkerEnvelope) : WorkerFleet := { s with inbox := s.inbox ++ [e] }

def launch (s : WorkerFleet) (id : Nat) (hosted : Bool) : WorkerFleet :=
  { s with
    spawned := s.spawned + 1
    threads := fun n =>
      if n = s.spawned then ⟨id, hosted, if hosted then .serving else .booting, 0, false, false⟩ else s.threads n }

def push (s : WorkerFleet) (hosted : Bool) : WorkerFleet :=
  if MAX_WORKERS ≤ s.links.length then s
  else { s.launch (s.links.length + 1) hosted with links := s.links ++ [⟨s.spawned, true⟩] }

def reuseIdx (s : WorkerFleet) : Option Nat := s.links.findIdx? fun l => !l.alive

def spawn (s : WorkerFleet) : WorkerFleet :=
  match s.reuseIdx with
  | some idx => (s.launch (idx + 1) false).setLink (idx + 1) ⟨s.spawned, true⟩
  | none => s.push false

def register_hosted_worker (s : WorkerFleet) : WorkerFleet := s.push true

def terminate (s : WorkerFleet) (id : Nat) : WorkerFleet :=
  match s.link id with
  | none => s
  | some l =>
    (s.onThread l.incarnation fun t => t.cutOff (l.alive && s.reports l.incarnation == 0)).setLink id
      { l with alive := false }

def send (s : WorkerFleet) (id : Nat) : WorkerFleet :=
  match s.link id with
  | none => s
  | some l =>
    if !l.alive then s
    else if (s.threads l.incarnation).phase = .gone then
      (s.setLink id { l with alive := false }).post ⟨id, .workerDied, l.incarnation⟩
    else s.onThread l.incarnation fun t => { t with queued := t.queued + 1 }

def setPhase (s : WorkerFleet) (k : Nat) (p : WorkerPhase) : WorkerFleet := s.onThread k fun t => { t with phase := p }

def report (s : WorkerFleet) (k : Nat) : WorkerFleet := (s.setPhase k .reported).post ⟨(s.threads k).id, .workerDied, k⟩

def received (s : WorkerFleet) (e : WorkerEnvelope) (inbox : List WorkerEnvelope) : WorkerFleet :=
  { s with inbox := inbox, delivered := s.delivered ++ [⟨e, s.registered e.sender⟩] }

def deliver (s : WorkerFleet) : Option WorkerFleet :=
  match s.inbox with
  | [] => none
  | e :: inbox => some (s.received e inbox)

/-- None where the step cannot happen. -/
def exec (s : WorkerFleet) : FleetStep → Option WorkerFleet
  | .spawn => some s.spawn
  | .registerHosted => some s.register_hosted_worker
  | .terminate id => some (s.terminate id)
  | .send id => some (s.send id)
  | .deliver => s.deliver
  | .boot k => if (s.threads k).phase = .booting then some (s.setPhase k .serving) else none
  | .fail k => if (s.threads k).phase = .booting then some (s.report k) else none
  | .take k =>
    if (s.threads k).phase = .serving ∧ 0 < (s.threads k).queued then
      some (s.onThread k fun t => { t with phase := .dispatching, queued := t.queued - 1 })
    else none
  | .reply k =>
    if (s.threads k).phase = .dispatching then some (s.post ⟨(s.threads k).id, .reply, k⟩) else none
  | .done k => if (s.threads k).phase = .dispatching then some (s.setPhase k .serving) else none
  | .crash k => if (s.threads k).phase = .dispatching ∧ (s.threads k).hosted = false then some (s.report k) else none
  | .exit k =>
    if (s.threads k).phase = .serving ∧ (s.threads k).closed ∧ (s.threads k).queued = 0 then some (s.setPhase k .gone)
    else none
  | .drop k => if (s.threads k).phase = .reported then some (s.setPhase k .gone) else none
  | .vanish k => if k < s.spawned then some (s.setPhase k .gone) else none

/-- Each incarnation is reported dead at most once, one that was terminated never, and what is
delivered comes from the incarnation that is registered under its id. -/
structure Named (s : WorkerFleet) : Prop where
  once : ∀ k, s.reports k ≤ 1
  silent : ∀ k, (s.threads k).terminated = true → s.reports k = 0
  owned : ∀ d ∈ s.delivered, d.registered = some d.envelope.incarnation

/-- The condition on a step: a slot is used again only with no envelope of its id waiting; a thread
sends only while it is registered, and reports its death only if it was not terminated; a send finds
a receiver gone only before that death was reported. -/
def Meets (s : WorkerFleet) : FleetStep → Prop
  | .spawn => ∀ idx, s.reuseIdx = some idx → ∀ e ∈ s.inbox, e.sender ≠ idx + 1
  | .reply k => s.registered (s.threads k).id = some k
  | .fail k | .crash k => s.registered (s.threads k).id = some k ∧ (s.threads k).terminated = false
  | .send id => ∀ l, s.link id = some l → l.alive = true → (s.threads l.incarnation).phase = .gone →
      s.reports l.incarnation = 0
  | _ => True

def Over (p : WorkerPhase) : Prop := p = .reported ∨ p = .gone

structure Sound (s : WorkerFleet) : Prop extends Named s where
  links_lt : ∀ l ∈ s.links, l.incarnation < s.spawned
  nodup : (s.links.map WorkerLink.incarnation).Nodup
  here : ∀ e ∈ s.inbox, s.registered e.sender = some e.incarnation
  fresh : ∀ k, s.spawned ≤ k → s.reports k = 0
  dead : ∀ k, 0 < s.reports k → Over (s.threads k).phase
  quiet : ∀ l ∈ s.links, l.alive = true → (s.threads l.incarnation).terminated = false

theorem start_sound : Sound start where
  once _ := Nat.zero_le 1
  silent _ h := by cases h
  owned _ h := by cases h
  links_lt _ h := by cases h
  nodup := nodup_nil
  here _ h := by cases h
  fresh _ _ := rfl
  dead _ h := by cases h
  quiet _ h := by cases h

variable (s : WorkerFleet)

theorem reports_post (e : WorkerEnvelope) (k : Nat) :
    (s.post e).reports k = s.reports k + if e.kind = .workerDied ∧ e.incarnation = k then 1 else 0 := by
  have hsent : (s.post e).sent = s.sent ++ [e] := (append_assoc ..).symm
  rw [reports, hsent, countP_append, countP_singleton, ← reports]
  simp only [decide_eq_true_eq]

theorem threads_onThread (k : Nat) (f : WorkerThread → WorkerThread) :
    (s.onThread k f).threads k = f (s.threads k) := if_pos rfl

theorem threads_onThread_other {k n : Nat} (h : n ≠ k) (f : WorkerThread → WorkerThread) :
    (s.onThread k f).threads n = s.threads n := if_neg h

variable {s : WorkerFleet} {l : WorkerLink} {id : Nat}

section

variable (h : s.link id = some l)

include h

theorem link_mem : l ∈ s.links := by
  unfold link at h
  split at h
  next => cases h
  next => exact mem_of_getElem? h

variable (l' : WorkerLink)

theorem link_setLink (id' : Nat) : (s.setLink id l').link id' = if id' = id then some l' else s.link id' := by
  unfold link at h ⊢
  split at h
  next => cases h
  next hid =>
    obtain ⟨hlt, -⟩ := List.getElem?_eq_some_iff.mp h
    by_cases hid' : id' = 0
    · rw [if_pos hid', if_neg (by omega), if_pos hid']
    · rw [if_neg hid', if_neg hid', setLink, List.getElem?_set]
      by_cases heq : id' = id
      · rw [if_pos heq, if_pos (by omega), if_pos hlt]
      · rw [if_neg heq, if_neg (by omega)]

theorem registered_setLink (hinc : l'.incarnation = l.incarnation) (id' : Nat) : (s.setLink id l').registered id' = s.registered id' := by
  unfold registered
  rw [link_setLink h]
  split
  next heq => rw [heq, h, map_some, map_some, hinc]
  next => rfl

theorem map_setLink (hinc : l'.incarnation = l.incarnation) :
    (s.setLink id l').links.map WorkerLink.incarnation = s.links.map WorkerLink.incarnation := by
  unfold link at h
  split at h
  next => cases h
  next =>
    obtain ⟨hlt, -⟩ := List.getElem?_eq_some_iff.mp h
    apply ext_getElem?
    intro i
    rw [setLink, map_set, List.getElem?_set]
    split
    next heq =>
      subst heq
      rw [if_pos (by rwa [length_map]), List.getElem?_map, h, hinc, map_some]
    next => rfl

end

variable {e : WorkerEnvelope} {k : Nat}

theorem Sound.onThread (h : Sound s) {f : WorkerThread → WorkerThread}
    (hterm : (f (s.threads k)).terminated = (s.threads k).terminated)
    (hover : Over (s.threads k).phase → Over (f (s.threads k)).phase) : Sound (s.onThread k f) := by
  have hsame (n : Nat) : ((s.onThread k f).threads n).terminated = (s.threads n).terminated := by
    by_cases hn : n = k
    · rw [hn, threads_onThread, hterm]
    · rw [threads_onThread_other s hn]
  exact {
    once := h.once
    silent := fun n hn => h.silent n (hsame n ▸ hn)
    owned := h.owned
    links_lt := h.links_lt
    nodup := h.nodup
    here := h.here
    fresh := h.fresh
    dead := fun n hn => by
      by_cases heq : n = k
      · rw [heq, threads_onThread]
        exact hover (heq ▸ h.dead n hn)
      · rw [threads_onThread_other s heq]
        exact h.dead n hn
    quiet := fun l hl ha => (hsame _).trans (h.quiet l hl ha) }

theorem Sound.post (h : Sound s) (hreg : s.registered e.sender = some e.incarnation) (hlt : e.incarnation < s.spawned)
    (hfirst : e.kind = .workerDied → s.reports e.incarnation = 0 ∧ Over (s.threads e.incarnation).phase ∧
      (s.threads e.incarnation).terminated = false) : Sound (s.post e) := by
  have hother {k : Nat} (hne : ¬ (e.kind = .workerDied ∧ e.incarnation = k)) : (s.post e).reports k = s.reports k := by
    rw [reports_post, if_neg hne, Nat.add_zero]
  refine ⟨⟨fun k => ?_, fun k hk => ?_, h.owned⟩, h.links_lt, h.nodup, fun e' he' => ?_, fun k hk => ?_,
    fun k hk => ?_, h.quiet⟩
  · by_cases hd : e.kind = .workerDied ∧ e.incarnation = k
    · have hz := (hfirst hd.1).1
      rw [hd.2] at hz
      exact Nat.le_of_eq (by rw [reports_post, if_pos hd, hz])
    · rw [hother hd]
      exact h.once k
  · by_cases hd : e.kind = .workerDied ∧ e.incarnation = k
    · have hquiet := (hfirst hd.1).2.2
      have hterm : (s.threads k).terminated = true := hk
      rw [hd.2, hterm] at hquiet
      cases hquiet
    · rw [hother hd]
      exact h.silent k hk
  · obtain hold | hnew := mem_append.mp he'
    · exact h.here e' hold
    · rw [mem_singleton.mp hnew]
      exact hreg
  · have hk' : s.spawned ≤ k := hk
    rw [hother fun hd => by omega]
    exact h.fresh k hk
  · by_cases hd : e.kind = .workerDied ∧ e.incarnation = k
    · have hover := (hfirst hd.1).2.1
      rw [hd.2] at hover
      exact hover
    · rw [hother hd] at hk
      exact h.dead k hk

theorem registered_lt (h : Sound s) {id k : Nat} (hreg : s.registered id = some k) : k < s.spawned := by
  obtain ⟨l, hl, rfl⟩ := map_eq_some_iff.mp hreg
  exact h.links_lt l (link_mem hl)

theorem Sound.report (h : Sound s) (hnot : ¬ Over (s.threads k).phase)
    (hreg : s.registered (s.threads k).id = some k) (hterm : (s.threads k).terminated = false) :
    Sound (s.report k) := by
  have hzero : s.reports k = 0 := by
    have hdead := mt (h.dead k) hnot
    omega
  have hphase : Sound (s.setPhase k .reported) := h.onThread rfl fun ho => (hnot ho).elim
  refine hphase.post hreg (registered_lt h hreg) fun _ => ⟨hzero, ?_, ?_⟩
  · rw [setPhase, threads_onThread]
    exact .inl rfl
  · rw [setPhase, threads_onThread]
    exact hterm

theorem mem_setLink {l l' : WorkerLink} (h : l ∈ (s.setLink id l').links) :
    l ∈ s.links ∨ l = l' := List.mem_or_eq_of_mem_set h

theorem Sound.markDead (h : Sound s) (hl : s.link id = some l) : Sound (s.setLink id { l with alive := false }) where
  once := h.once
  silent := h.silent
  owned := h.owned
  links_lt l' hl' := by
    obtain hold | rfl := mem_setLink hl'
    · exact h.links_lt l' hold
    · exact h.links_lt l (link_mem hl)
  nodup := by
    have hmap := map_setLink hl { l with alive := false } rfl
    rw [hmap]
    exact h.nodup
  here e he := by
    have hreg := registered_setLink hl { l with alive := false } rfl e.sender
    rw [hreg]
    exact h.here e he
  fresh := h.fresh
  dead := h.dead
  quiet l' hl' ha := by
    obtain hold | rfl := mem_setLink hl'
    · exact h.quiet l' hold ha
    · cases ha

theorem Sound.send {s : WorkerFleet} (h : Sound s) {id : Nat} (hm : s.Meets (.send id)) : Sound (s.send id) := by
  unfold WorkerFleet.send
  split
  next => exact h
  next l hl =>
    split
    next => exact h
    next ha =>
      have halive : l.alive = true := by simpa using ha
      split
      next hgone =>
        have hdead := h.markDead hl
        have hreg : (s.setLink id { l with alive := false }).registered id = some l.incarnation := by
          rw [registered_setLink hl { l with alive := false } rfl, registered, hl, map_some]
        have hquiet := h.quiet l (link_mem hl) halive
        exact hdead.post hreg (h.links_lt l (link_mem hl)) fun _ => ⟨hm l hl halive hgone, .inr hgone, hquiet⟩
      next => exact h.onThread rfl fun ho => ho

section

variable (h : Sound s)

include h

theorem Sound.link_inj {id i : Nat} {l l' : WorkerLink} (hl : s.link id = some l)
    (hi : s.links[i]? = some l') (hinc : l'.incarnation = l.incarnation) : i = id - 1 := by
  unfold link at hl
  split at hl
  next => cases hl
  next =>
    obtain ⟨hlt, hget⟩ := List.getElem?_eq_some_iff.mp hl
    obtain ⟨hlt', hget'⟩ := List.getElem?_eq_some_iff.mp hi
    have hi' : i < (s.links.map WorkerLink.incarnation).length := by rwa [length_map]
    have hid' : id - 1 < (s.links.map WorkerLink.incarnation).length := by rwa [length_map]
    have hsame : (s.links.map WorkerLink.incarnation)[i] = (s.links.map WorkerLink.incarnation)[id - 1] := by
      rw [getElem_map, getElem_map, hget, hget', hinc]
    exact h.nodup.getElem_inj_iff.mp hsame

theorem Sound.terminate (id : Nat) : Sound (s.terminate id) := by
  unfold WorkerFleet.terminate
  split
  next => exact h
  next l hl =>
    have hdead := h.markDead hl
    obtain ⟨d, hd⟩ : ∃ d, d = (l.alive && s.reports l.incarnation == 0) := ⟨_, rfl⟩
    rw [← hd]
    have hother {n : Nat} (hn : n ≠ l.incarnation) : (s.onThread l.incarnation (·.cutOff d)).threads n = s.threads n :=
      threads_onThread_other s hn _
    refine ⟨⟨h.once, fun n hn => ?_, h.owned⟩, hdead.links_lt, hdead.nodup, hdead.here, h.fresh, fun n hn => ?_,
      fun l' hl' ha => ?_⟩
    · have hterm : ((s.onThread l.incarnation (·.cutOff d)).threads n).terminated = true := hn
      by_cases heq : n = l.incarnation
      · rw [heq, threads_onThread] at hterm
        obtain hold | hnew := Bool.or_eq_true_iff.mp hterm
        · exact h.silent n (heq ▸ hold)
        · rw [hd] at hnew
          have hzero := beq_iff_eq.mp (Bool.and_eq_true_iff.mp hnew).2
          exact heq ▸ hzero
      · rw [hother heq] at hterm
        exact h.silent n hterm
    · have hover := h.dead n hn
      show Over ((s.onThread l.incarnation (·.cutOff d)).threads n).phase
      by_cases heq : n = l.incarnation
      · rw [heq, threads_onThread]
        exact heq ▸ hover
      · rw [hother heq]
        exact hover
    · -- Another link that is alive names another incarnation.
      obtain ⟨i, hi⟩ := mem_iff_getElem?.mp hl'
      have hset : (s.links.set (id - 1) { l with alive := false })[i]? = some l' := hi
      rw [getElem?_set] at hset
      split at hset
      next =>
        split at hset
        next =>
          cases hset
          cases ha
        next => cases hset
      next hne =>
        have hdiff : l'.incarnation ≠ l.incarnation := fun hinc => hne (h.link_inj hl hset hinc).symm
        show ((s.onThread l.incarnation (·.cutOff d)).threads l'.incarnation).terminated = false
        rw [hother hdiff]
        exact h.quiet l' (mem_of_getElem? hset) ha

theorem Sound.launch (id : Nat) (hosted : Bool) {links : List WorkerLink}
    (hmem : ∀ l ∈ links, l ∈ s.links ∨ l = ⟨s.spawned, true⟩) (hnodup : (links.map WorkerLink.incarnation).Nodup)
    (hhere : ∀ e ∈ s.inbox, { s with links := links }.registered e.sender = s.registered e.sender) :
    Sound { s.launch id hosted with links := links } := by
  have hold {n : Nat} (hn : n < s.spawned) : (s.launch id hosted).threads n = s.threads n := if_neg (by omega)
  have hnew : ((s.launch id hosted).threads s.spawned).terminated = false :=
    congrArg WorkerThread.terminated (if_pos rfl)
  have hknown {n : Nat} (hn : 0 < s.reports n) : n < s.spawned := by
    have hfresh := h.fresh n
    omega
  refine ⟨⟨h.once, fun n hn => ?_, h.owned⟩, fun l hl => ?_, hnodup, fun e he => ?_, fun n hn => ?_, fun n hn => ?_,
    fun l hl ha => ?_⟩
  · show s.reports n = 0
    rcases Nat.eq_zero_or_pos (s.reports n) with hz | hpos
    · exact hz
    · have hterm : ((s.launch id hosted).threads n).terminated = true := hn
      rw [hold (hknown hpos)] at hterm
      exact h.silent n hterm
  · show l.incarnation < s.spawned + 1
    obtain hl' | rfl := hmem l hl
    · have hlt := h.links_lt l hl'
      omega
    · exact Nat.lt_succ_self _
  · exact (hhere e he).trans (h.here e he)
  · have hle : s.spawned + 1 ≤ n := hn
    exact h.fresh n (by omega)
  · show Over ((s.launch id hosted).threads n).phase
    rw [hold (hknown hn)]
    exact h.dead n hn
  · show ((s.launch id hosted).threads l.incarnation).terminated = false
    obtain hl' | rfl := hmem l hl
    · rw [hold (h.links_lt l hl')]
      exact h.quiet l hl' ha
    · exact hnew

theorem Sound.new_incarnation : s.spawned ∉ s.links.map WorkerLink.incarnation := by
  intro hmem
  obtain ⟨l, hl, heq⟩ := mem_map.mp hmem
  have hlt := h.links_lt l hl
  omega

theorem Sound.push (hosted : Bool) : Sound (s.push hosted) := by
  unfold WorkerFleet.push
  split
  next => exact h
  next =>
    refine h.launch _ hosted (fun l hl => ?_) ?_ fun e he => ?_
    · obtain hold | hnew := mem_append.mp hl
      · exact .inl hold
      · exact .inr (mem_singleton.mp hnew)
    · rw [map_append]
      refine nodup_append.mpr ⟨h.nodup, nodup_singleton _, fun a ha b hb => ?_⟩
      rw [mem_singleton.mp hb]
      rintro rfl
      exact h.new_incarnation ha
    · have hreg := h.here e he
      obtain ⟨l, hl, hinc⟩ := map_eq_some_iff.mp hreg
      rw [hreg]
      unfold link at hl
      split at hl
      next => cases hl
      next hid =>
        have hlt := (List.getElem?_eq_some_iff.mp hl).1
        rw [registered, link, if_neg hid, List.getElem?_append_left hlt, hl, map_some, hinc]

theorem Sound.spawn (hm : s.Meets .spawn) : Sound s.spawn := by
  unfold WorkerFleet.spawn
  split
  next idx hidx =>
    refine h.launch (idx + 1) false (fun l hl => mem_or_eq_of_mem_set hl) ?_ fun e he => ?_
    · rw [map_set]
      exact h.nodup.set h.new_incarnation
    · have hother := hm idx hidx e he
      unfold registered link
      split
      next => rfl
      next hid =>
        have hne : idx + 1 - 1 ≠ e.sender - 1 := by omega
        show (s.links.set (idx + 1 - 1) _)[e.sender - 1]?.map _ = _
        rw [getElem?_set, if_neg hne]
  next => exact h.push false

end

theorem received_sent {inbox : List WorkerEnvelope}
    (hin : s.inbox = e :: inbox) : (s.received e inbox).sent = s.sent := by
  rw [sent, sent, received, hin, map_append, append_assoc]
  rfl

theorem Sound.deliver {s t : WorkerFleet} (h : Sound s) (hx : s.deliver = some t) : Sound t := by
  unfold WorkerFleet.deliver at hx
  split at hx
  next => cases hx
  next e inbox hin =>
    cases hx
    have hreports (k : Nat) : (s.received e inbox).reports k = s.reports k := by
      rw [reports, received_sent hin, ← reports]
    refine ⟨⟨fun k => ?_, fun k hk => ?_, fun d hd => ?_⟩, h.links_lt, h.nodup, fun e' he' => ?_, fun k hk => ?_,
      fun k hk => ?_, h.quiet⟩
    · rw [hreports]
      exact h.once k
    · rw [hreports]
      exact h.silent k hk
    · obtain hold | hnew := mem_append.mp hd
      · exact h.owned d hold
      · rw [mem_singleton.mp hnew]
        exact h.here e (by rw [hin]; exact mem_cons_self)
    · exact h.here e' (by rw [hin]; exact mem_cons_of_mem e he')
    · rw [hreports]
      exact h.fresh k hk
    · rw [hreports] at hk
      exact h.dead k hk

theorem Sound.step {s t : WorkerFleet} (h : Sound s) {e : FleetStep} (hm : s.Meets e) (hx : s.exec e = some t) :
    Sound t := by
  have hquiet {k : Nat} {p : WorkerPhase} (hp : (s.threads k).phase = p) (hnot : ¬ Over p)
      {f : WorkerThread → WorkerThread} (hterm : (f (s.threads k)).terminated = (s.threads k).terminated) :
      Sound (s.onThread k f) := h.onThread hterm fun ho => (hnot (hp ▸ ho)).elim
  cases e with
  | spawn =>
    cases hx
    exact h.spawn hm
  | registerHosted =>
    cases hx
    exact h.push true
  | terminate id =>
    cases hx
    exact h.terminate id
  | send id =>
    cases hx
    exact h.send hm
  | deliver => exact h.deliver hx
  | boot k =>
    obtain ⟨hp, rfl⟩ := StepRun.guarded hx
    exact hquiet hp (by simp [Over]) rfl
  | fail k =>
    obtain ⟨hp, rfl⟩ := StepRun.guarded hx
    exact h.report (by rw [hp]; simp [Over]) hm.1 hm.2
  | take k =>
    obtain ⟨hp, rfl⟩ := StepRun.guarded hx
    exact hquiet hp.1 (by simp [Over]) rfl
  | reply k =>
    obtain ⟨hp, rfl⟩ := StepRun.guarded hx
    exact h.post hm (registered_lt h hm) fun hk => by cases hk
  | done k =>
    obtain ⟨hp, rfl⟩ := StepRun.guarded hx
    exact hquiet hp (by simp [Over]) rfl
  | crash k =>
    obtain ⟨hp, rfl⟩ := StepRun.guarded hx
    exact h.report (by rw [hp.1]; simp [Over]) hm.1 hm.2
  | exit k =>
    obtain ⟨hp, rfl⟩ := StepRun.guarded hx
    exact hquiet hp.1 (by simp [Over]) rfl
  | drop k =>
    obtain ⟨hp, rfl⟩ := StepRun.guarded hx
    exact h.onThread rfl fun _ => .inr rfl
  | vanish k =>
    obtain ⟨hp, rfl⟩ := StepRun.guarded hx
    exact h.onThread rfl fun _ => .inr rfl

/-- In every run whose steps meet the condition, every state names the incarnations that died and
delivers in the name of the one that is registered. -/
theorem named_of_meets {es : List FleetStep} (h : StepRun.Stepwise exec start es Meets) :
    StepRun.Always exec start es Named := by
  have hsound := StepRun.always_of_stepwise (fun _ _ _ hs hm hx => Sound.step hs hm hx) start_sound h
  exact fun pre post u heq hu => (hsound pre post u heq hu).toNamed

def twiceReported : List FleetStep :=
  [.spawn, .boot 0, .send 1, .take 0, .crash 0, .drop 0, .send 1, .deliver, .spawn, .deliver]

/-- One crash has two notices, and the second is delivered in the name of the next incarnation. -/
theorem second_notice_misnamed : ∃ t, StepRun.run exec start twiceReported = some t ∧ t.reports 0 = 2 ∧
      t.delivered = [⟨⟨1, .workerDied, 0⟩, some 0⟩, ⟨⟨1, .workerDied, 0⟩, some 1⟩] :=
  ⟨_, rfl, rfl, rfl⟩

def onceReported : List FleetStep :=
  [.spawn, .boot 0, .send 1, .take 0, .reply 0, .crash 0, .deliver, .deliver, .terminate 1, .spawn, .terminate 1]

theorem onceReported_meets : StepRun.Stepwise exec start onceReported Meets := by
  refine StepRun.stepwise_cons (fun idx h => by cases h) rfl ?_
  refine StepRun.stepwise_cons trivial rfl ?_
  refine StepRun.stepwise_cons (fun l hl _ hgone => by cases hl; cases hgone) rfl ?_
  refine StepRun.stepwise_cons trivial rfl ?_
  refine StepRun.stepwise_cons rfl rfl ?_
  refine StepRun.stepwise_cons ⟨rfl, rfl⟩ rfl ?_
  refine StepRun.stepwise_cons trivial rfl ?_
  refine StepRun.stepwise_cons trivial rfl ?_
  refine StepRun.stepwise_cons trivial rfl ?_
  refine StepRun.stepwise_cons (fun idx _ e he => by cases he) rfl ?_
  exact StepRun.stepwise_cons trivial rfl StepRun.stepwise_nil

theorem named_of_meets_onceReported :
    ∃ t, StepRun.run exec start onceReported = some t ∧ t.reports 0 = 1 ∧ (t.threads 1).terminated = true ∧ t.Named :=
  ⟨_, rfl, rfl, rfl, named_of_meets onceReported_meets onceReported [] _ rfl rfl⟩

end WorkerFleet

end WinArmVm
