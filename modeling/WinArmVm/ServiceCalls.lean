import WinArmVm.Dictionary

namespace WinArmVm.ServiceCalls

open Nat List Option

/-- The shapes of a message that `dispatchOne:` and a service call's continuation tell apart. -/
inductive Payload (Object : Type)
  | workerTranscript (line : Object)
  | cocoaEvent (event : Object)
  | workerDied (id : Nat)
  | uiReq (request : Object)
  | snapshot (data : Object)
  | rpcError (why : Object)
  | other (value : Object)
  deriving DecidableEq

structure Envelope (Object : Type) where
  peer : Nat
  corr : Nat
  payload : Payload Object
  deriving DecidableEq

/-- What a block of a call was run with. -/
inductive Outcome (Object : Type)
  | reply (env : Envelope Object)
  | rpcError (env : Envelope Object)
  | timeout (firedAt : Int)
  | workerDied
  deriving DecidableEq

/-- A call of `call:timeoutMs:onReply:onError:` with the runs of its two blocks, the last first. -/
structure Call (Object : Type) where
  peer : Nat
  corr : Nat
  dueAt : Int
  fired : List (Outcome Object)
  deriving DecidableEq

/-- A promise in the deadline table; `call` is the error block. -/
structure DeadlineEntry where
  peer : Nat
  corr : Nat
  dueAt : Int
  call : Nat

/-- The continuation that a service call registers, or any other block. -/
inductive Continuation
  | service (call key : Nat)
  | other

/-- The tests of the two iterations over the deadline table. -/
inductive Sweep
  | due (now : Int)
  | dead (id : Nat)

/-- A frame of the primary's stack: user code, an iteration in the middle of the table, or
`dispatchOne:` within the hook that it runs for a death. -/
inductive Activity (Object : Type)
  | user
  | iterating (sweep : Sweep) (size index : Nat)
  | dispatchOne (env : Envelope Object)

structure State (Object : Type) where
  pendingReplies : Dictionary Nat Continuation
  deadlines : Dictionary Nat DeadlineEntry
  nextCorr : Nat
  clock : Int
  /-- Whether the worker with id `i + 1` is alive. -/
  links : List Bool
  diedHandler : Bool
  calls : List (Call Object)
  activities : List (Activity Object)

def MAX_WORKERS : Nat := 16

def start {Object : Type} : State Object := ⟨.new, .new, 0, 0, [], false, [], []⟩

def replyKeyFor (peer corr : Nat) : Nat := (corr <<< 5) + peer

def Sweep.takes : Sweep → DeadlineEntry → Bool
  | .due now, e => e.dueAt < now
  | .dead id, e => e.peer = id

def spawn (links : List Bool) : Option (List Bool) :=
  match links.findIdx? (!·) with
  | some i => some (links.set i true)
  | none => if links.length < MAX_WORKERS then some (links ++ [true]) else none

namespace State

variable {Object : Type} (hash : Nat → Nat)

def isAlive (s : State Object) (id : Nat) : Bool := id ≠ 0 && s.links.getD (id - 1) false

def runUser (s : State Object) : State Object := { s with activities := .user :: s.activities }

def registerReply (s : State Object) (k : Continuation) (peer corr : Nat) : Option (State Object) :=
  (s.pendingReplies.atPut hash (replyKeyFor peer corr) (some k)).map fun d =>
    { s with pendingReplies := d }

def retireReply (s : State Object) (peer corr : Nat) : Option (State Object) :=
  (s.pendingReplies.atPut hash (replyKeyFor peer corr) none).map fun d =>
    { s with pendingReplies := d }

def noteDeadlineKey (s : State Object) (key : Nat) (e : DeadlineEntry) : Option (State Object) :=
  (s.deadlines.atPut hash key (some e)).map fun d => { s with deadlines := d }

def cancelDeadline (s : State Object) (key : Nat) : Option (State Object) :=
  (s.deadlines.atPut hash key none).map fun d => { s with deadlines := d }

/-- One of the blocks of call `n` starts to run. -/
def fire (s : State Object) (n : Nat) (o : Outcome Object) : State Object :=
  { s with
    calls := s.calls.modify n fun c => { c with fired := o :: c.fired }
    activities := .user :: s.activities }

/-- `call:timeoutMs:onReply:onError:`, `target` being the id of the worker that the name finds.
A send that raises leaves what is registered before it. -/
def call (s : State Object) (target : Option Nat) (ms : Int) : Option (State Object) :=
  match target.filter s.isAlive with
  | none => some { s with
      calls := s.calls ++ [⟨0, 0, s.clock + ms, [.workerDied]⟩]
      activities := .user :: s.activities }
  | some peer => do
    let c := s.nextCorr + 1
    let key := replyKeyFor peer c
    let s := { s with nextCorr := c }
    let s ← s.registerReply hash (.service s.calls.length key) peer c
    let s ← s.noteDeadlineKey hash key ⟨peer, c, s.clock + ms, s.calls.length⟩
    pure { s with calls := s.calls ++ [⟨peer, c, s.clock + ms, []⟩] }

/-- `send:onReply:` and `uiRequest:args:onReply:`. -/
def sendOnReply (s : State Object) (peer : Nat) : Option (State Object) :=
  let c := s.nextCorr + 1
  { s with nextCorr := c }.registerReply hash .other peer c

def sweepDeadlines (s : State Object) : State Object :=
  { s with activities := .iterating (.due s.clock) s.deadlines.table.capacity 0 :: s.activities }

def failPendingCallsTo (s : State Object) (deadId : Nat) : State Object :=
  { s with activities := .iterating (.dead deadId) s.deadlines.table.capacity 0 :: s.activities }

/-- The end of `dispatchOne:`, by correlation id. The reply handler is user code. -/
def route (s : State Object) (env : Envelope Object) : Option (State Object) :=
  if env.corr = 0 then some s.runUser
  else
    match s.pendingReplies.lookup hash (replyKeyFor env.peer env.corr) with
    | none => some s.runUser
    | some k => do
      let s ← s.retireReply hash env.peer env.corr
      match k with
      | .other => pure s.runUser
      | .service n key =>
        let s ← s.cancelDeadline hash key
        match env.payload with
        | .rpcError _ => pure (s.fire n (.rpcError env))
        | _ => pure (s.fire n (.reply env))

/-- Control messages are matched by shape first; a death is shown to the hook that fails
the calls to the worker before the rest of the method runs. -/
def dispatchOne (s : State Object) (env : Envelope Object) : Option (State Object) :=
  match env.payload with
  | .workerTranscript _ => some s.runUser
  | .cocoaEvent _ => some s.runUser
  | .workerDied id =>
    some ({ s with activities := .dispatchOne env :: s.activities }.failPendingCallsTo id)
  | .uiReq _ => some s.runUser
  | .snapshot _ => some s.runUser
  | .rpcError _ => s.route hash env
  | .other _ => s.route hash env

def expire (s : State Object) (sweep : Sweep) (key : Nat) (e : DeadlineEntry) : Option (State Object) := do
  let s ← s.cancelDeadline hash key
  let s ← s.retireReply hash e.peer e.corr
  match sweep with
  | .due _ => pure (s.fire e.call (.timeout s.clock))
  | .dead _ => pure (s.fire e.call .workerDied)

/-- The innermost frame of the library goes on. An iteration reads the slots of the table as
it is by then, up to the size that it had at the start. -/
def advance (s : State Object) : Option (State Object) :=
  match s.activities with
  | .iterating sweep size index :: rest =>
    if index < size then
      let s := { s with activities := .iterating sweep size (index + 1) :: rest }
      match s.deadlines.table.slot index with
      | some (key, some e) => if sweep.takes e then s.expire hash sweep key e else some s
      | _ => some s
    else some { s with activities := rest }
  | .dispatchOne env :: rest =>
    let s := { s with activities := rest }
    if s.diedHandler then some s.runUser else s.route hash env
  | _ => none

def UserCode (s : State Object) : Prop := ∀ a ∈ s.activities.head?, a = .user

end State

variable {Object : Type}

open State in
/-- What can happen next, in any order. -/
inductive Step (hash : Nat → Nat) : State Object → State Object → Prop
  | call {s t} (target : Option Nat) (ms : Int) : s.UserCode → s.call hash target ms = some t → Step hash s t
  | sendOnReply {s t} (peer : Nat) :
      s.UserCode → peer ≤ s.links.length → s.sendOnReply hash peer = some t → Step hash s t
  | dispatchOne {s t} (env : Envelope Object) :
      s.UserCode → env.peer ≤ s.links.length → s.dispatchOne hash env = some t → Step hash s t
  | sweepDeadlines {s} : s.UserCode → Step hash s s.sweepDeadlines
  | failPendingCallsTo {s} (deadId : Nat) : s.UserCode → Step hash s (s.failPendingCallsTo deadId)
  | advance {s t} : s.advance hash = some t → Step hash s t
  | finish {s} {rest} : s.activities = .user :: rest → Step hash s { s with activities := rest }
  | raise {s} (n : Nat) : State.UserCode { s with activities := s.activities.drop n } →
      Step hash s { s with activities := s.activities.drop n }
  | spawn {s} {links} : ServiceCalls.spawn s.links = some links → Step hash s { s with links := links }
  | workerGone {s} (id : Nat) : Step hash s { s with links := s.links.set (id - 1) false }
  | onWorkerDied {s} (handler : Bool) : Step hash s { s with diedHandler := handler }
  | abandonPending {s} : s.UserCode → Step hash s { s with pendingReplies := .new }
  | tick {s} (now : Int) : s.clock ≤ now → Step hash s { s with clock := now }

inductive Run (hash : Nat → Nat) : State Object → State Object → Prop
  | refl (s) : Run hash s s
  | step {s t u} : Run hash s t → Step hash t u → Run hash s u

def Outcome.Due (peer corr : Nat) (dueAt : Int) : Outcome Object → Prop
  | .reply env => env.peer = peer ∧ env.corr = corr
  | .rpcError env => env.peer = peer ∧ env.corr = corr
  | .timeout firedAt => dueAt < firedAt
  | .workerDied => True

structure Call.Kept (c : Call Object) : Prop where
  once : c.fired.length ≤ 1
  due : ∀ o ∈ c.fired, o.Due c.peer c.corr c.dueAt

def Sweep.Past (clock : Int) : Sweep → Prop
  | .due now => now ≤ clock
  | .dead _ => True

/-- An iteration began in a table no larger than the one of now, a sweep not later than now,
and a message came from a worker that there was. -/
def Activity.Sound (capacity : Nat) (clock : Int) : Activity Object → Prop
  | .user => True
  | .iterating sweep size _ => size ≤ capacity ∧ sweep.Past clock
  | .dispatchOne env => env.peer ≤ MAX_WORKERS

structure Inv (hash : Nat → Nat) (s : State Object) : Prop where
  links : s.links.length ≤ MAX_WORKERS
  replies : s.pendingReplies.Valid hash
  deadlines : s.deadlines.Valid hash
  kept : ∀ c ∈ s.calls, c.Kept
  ids : ∀ c ∈ s.calls, c.peer ≤ MAX_WORKERS ∧ c.corr ≤ s.nextCorr
  promised : ∀ n c, s.calls[n]? = some c → c.fired = [] →
    s.deadlines.lookup hash (replyKeyFor c.peer c.corr) = some ⟨c.peer, c.corr, c.dueAt, n⟩
  entries : ∀ key e, s.deadlines.lookup hash key = some e →
    key = replyKeyFor e.peer e.corr ∧ s.calls[e.call]? = some ⟨e.peer, e.corr, e.dueAt, []⟩
  continuations : ∀ key n k, s.pendingReplies.lookup hash key = some (.service n k) →
    k = key ∧ ∃ c, s.calls[n]? = some c ∧ c.fired = [] ∧ key = replyKeyFor c.peer c.corr
  frames : ∀ a ∈ s.activities, a.Sound s.deadlines.table.capacity s.clock

theorem replyKeyFor_eq (peer corr : Nat) : replyKeyFor peer corr = 32 * corr + peer := by
  unfold replyKeyFor
  rw [shiftLeft_eq]
  omega

theorem replyKeyFor_inj {p q c d : Nat} (hp : p ≤ MAX_WORKERS) (hq : q ≤ MAX_WORKERS)
    (h : replyKeyFor p c = replyKeyFor q d) : p = q ∧ c = d := by
  rw [replyKeyFor_eq, replyKeyFor_eq] at h
  unfold MAX_WORKERS at hp hq
  omega

variable {hash : Nat → Nat} {s t : State Object}

theorem start_inv : Inv hash (start : State Object) where
  links := Nat.zero_le _
  replies := Dictionary.new_valid
  deadlines := Dictionary.new_valid
  kept := fun c h => by cases h
  ids := fun c h => by cases h
  promised := fun n c h => by cases h
  entries := fun key e h => by
    have hnew := (@Dictionary.new_lookup Nat DeadlineEntry _ hash key).symm.trans h
    cases hnew
  continuations := fun key n k h => by
    have hnew := (@Dictionary.new_lookup Nat Continuation _ hash key).symm.trans h
    cases hnew
  frames := fun a h => by cases h

theorem Activity.Sound.mono {a : Activity Object} {capacity capacity' : Nat} {clock clock' : Int}
    (ha : a.Sound capacity clock) (hcap : capacity ≤ capacity') (hclock : clock ≤ clock') :
    a.Sound capacity' clock' := by
  cases a with
  | user => trivial
  | iterating sweep size index =>
    refine ⟨le_trans ha.1 hcap, ?_⟩
    cases sweep with
    | due now => exact Int.le_trans ha.2 hclock
    | dead id => trivial
  | dispatchOne env => exact ha

section

variable (h : Inv hash s)

include h

variable {activities : List (Activity Object)} {d : Dictionary Nat DeadlineEntry} {p : Dictionary Nat Continuation}
  {c : Call Object} {peer : Nat}

theorem Inv.frame {links : List Bool} {clock : Int} {handler : Bool} (hl : links.length ≤ MAX_WORKERS)
    (ha : ∀ a ∈ activities, a.Sound s.deadlines.table.capacity clock) :
    Inv hash { s with links := links, clock := clock, diedHandler := handler, activities := activities } :=
  { h with links := hl, frames := ha }

theorem Inv.push {a : Activity Object} (ha : a.Sound s.deadlines.table.capacity s.clock) :
    Inv hash { s with activities := a :: s.activities } := by
  apply h.frame h.links
  intro b hb
  rcases mem_cons.mp hb with he | hb
  · rw [he]
    exact ha
  · exact h.frames b hb

theorem Inv.runUser : Inv hash s.runUser := h.push trivial

theorem Inv.shrink (hsub : activities ⊆ s.activities) : Inv hash { s with activities := activities } :=
  h.frame h.links fun a ha => h.frames a (hsub ha)

theorem Inv.unfired_unique {n m : Nat} {c d : Call Object} (hn : s.calls[n]? = some c)
    (hc : c.fired = []) (hm : s.calls[m]? = some d) (hd : d.fired = [])
    (hkey : replyKeyFor c.peer c.corr = replyKeyFor d.peer d.corr) : n = m := by
  have hcn := h.promised n c hn hc
  have hdm := h.promised m d hm hd
  rw [hkey, hdm] at hcn
  exact (congrArg DeadlineEntry.call (some.inj hcn)).symm

theorem Inv.settle {n key : Nat} (hn : s.calls[n]? = some c)
    (hf : c.fired = []) (hkey : key = replyKeyFor c.peer c.corr) {o : Outcome Object}
    (ho : o.Due c.peer c.corr c.dueAt) (hd : d.Valid hash) (hcap : s.deadlines.table.capacity ≤ d.table.capacity)
    (hdl : ∀ q, d.lookup hash q = if q = key then none else s.deadlines.lookup hash q) (hp : p.Valid hash)
    (hpl : ∀ q, p.lookup hash q = if q = key then none else s.pendingReplies.lookup hash q) :
    Inv hash ({ s with deadlines := d, pendingReplies := p }.fire n o) := by
  have hother : ∀ m, m ≠ n → (s.calls.modify n fun c => { c with fired := o :: c.fired })[m]? = s.calls[m]? := by
    intro m hm
    have hne : n ≠ m := fun he => hm he.symm
    rw [getElem?_modify]
    simp [hne]
  have hself : (s.calls.modify n fun c => { c with fired := o :: c.fired })[n]? =
      some { c with fired := [o] } := by
    rw [getElem?_modify, hn]
    simp [hf]
  have hmem : ∀ c' ∈ s.calls.modify n (fun c => { c with fired := o :: c.fired }),
      c' ∈ s.calls ∨ c' = { c with fired := [o] } := by
    intro c' hc'
    obtain ⟨m, hm⟩ := mem_iff_getElem?.mp hc'
    by_cases he : m = n
    · rw [he, hself] at hm
      exact .inr (some.inj hm).symm
    · rw [hother m he] at hm
      exact .inl (mem_of_getElem? hm)
  refine ⟨h.links, hp, hd, ?_, ?_, ?_, ?_, ?_, ?_⟩
  · intro c' hc'
    rcases hmem c' hc' with hold | rfl
    · exact h.kept c' hold
    · refine ⟨le_refl _, fun o' ho' => ?_⟩
      rw [mem_singleton.mp ho']
      exact ho
  · intro c' hc'
    rcases hmem c' hc' with hold | rfl
    · exact h.ids c' hold
    · exact h.ids c (mem_of_getElem? hn)
  · intro m c' hm hfired
    by_cases he : m = n
    · have hm' : some c' = some { c with fired := [o] } := by
        rw [← hm, he]
        exact hself
      rw [some.inj hm'] at hfired
      cases hfired
    · have hold : s.calls[m]? = some c' := (hother m he).symm.trans hm
      have hne : replyKeyFor c'.peer c'.corr ≠ key := fun hk =>
        he (h.unfired_unique hold hfired hn hf (hk.trans hkey))
      show d.lookup hash _ = _
      rw [hdl, if_neg hne]
      exact h.promised m c' hold hfired
  · intro key' e he
    have hd' : d.lookup hash key' = some e := he
    rw [hdl] at hd'
    obtain ⟨hne, hd'⟩ := ite_none_left_eq_some.mp hd'
    obtain ⟨hk, hcall⟩ := h.entries key' e hd'
    refine ⟨hk, ?_⟩
    have hen : e.call ≠ n := by
      intro hen
      rw [hen, hn] at hcall
      cases hcall
      exact hne (hk.trans hkey.symm)
    exact (hother _ hen).trans hcall
  · intro key' m k hk
    have hp' : p.lookup hash key' = some (.service m k) := hk
    rw [hpl] at hp'
    obtain ⟨hne, hp'⟩ := ite_none_left_eq_some.mp hp'
    obtain ⟨hkk, c', hm, hfired, hkey'⟩ := h.continuations key' m k hp'
    refine ⟨hkk, c', ?_, hfired, hkey'⟩
    have hmn : m ≠ n := by
      intro hmn
      rw [hmn, hn] at hm
      cases hm
      exact hne (hkey'.trans hkey.symm)
    exact (hother _ hmn).trans hm
  · intro a ha
    rcases mem_cons.mp ha with he | ha
    · rw [he]
      trivial
    · exact (h.frames a ha).mono hcap (Int.le_refl _)

omit h in
theorem cancelDeadline_spec (h : s.deadlines.Valid hash) (key : Nat) :
    ∃ d, s.cancelDeadline hash key = some { s with deadlines := d } ∧ d.Valid hash ∧
      s.deadlines.table.capacity ≤ d.table.capacity ∧
      ∀ q, d.lookup hash q = if q = key then none else s.deadlines.lookup hash q := by
  obtain ⟨d, hput, hd, hdl⟩ := Dictionary.atPut_spec h key none
  refine ⟨d, ?_, hd, Dictionary.capacity_le_of_atPut hput, hdl⟩
  unfold State.cancelDeadline
  rw [hput, map_some]

omit h in
theorem retireReply_spec (h : s.pendingReplies.Valid hash) (peer corr : Nat) :
    ∃ p, s.retireReply hash peer corr = some { s with pendingReplies := p } ∧ p.Valid hash ∧
      ∀ q, p.lookup hash q = if q = replyKeyFor peer corr then none else s.pendingReplies.lookup hash q := by
  obtain ⟨p, hput, hp, hpl⟩ := Dictionary.atPut_spec h (replyKeyFor peer corr) none
  refine ⟨p, ?_, hp, hpl⟩
  unfold State.retireReply
  rw [hput, map_some]

theorem Inv.expire {sweep : Sweep} {key : Nat} {e : DeadlineEntry}
    (he : s.deadlines.lookup hash key = some e) (htakes : sweep.takes e) (hsweep : sweep.Past s.clock) :
    ∃ t, s.expire hash sweep key e = some t ∧ Inv hash t := by
  obtain ⟨hkey, hcall⟩ := h.entries key e he
  obtain ⟨d, hcancel, hd, hcap, hdl⟩ := cancelDeadline_spec h.deadlines key
  obtain ⟨p, hretire, hp, hpl⟩ := retireReply_spec (s := { s with deadlines := d }) h.replies e.peer e.corr
  rw [← hkey] at hpl
  unfold State.expire
  rw [hcancel, bind_eq_bind, bind_some, hretire, bind_some]
  cases sweep with
  | due now =>
    have hlate : e.dueAt < s.clock := by
      have hnow : now ≤ s.clock := hsweep
      have hdue : e.dueAt < now := of_decide_eq_true htakes
      omega
    exact ⟨_, rfl, h.settle hcall rfl hkey (o := .timeout s.clock) hlate hd hcap hdl hp hpl⟩
  | dead id =>
    exact ⟨_, rfl, h.settle hcall rfl hkey (o := .workerDied) trivial hd hcap hdl hp hpl⟩

variable (env : Envelope Object)

theorem Inv.route (hpeer : env.peer ≤ MAX_WORKERS) : ∃ t, s.route hash env = some t ∧ Inv hash t := by
  unfold State.route
  split
  next => exact ⟨_, rfl, h.runUser⟩
  next =>
    split
    next => exact ⟨_, rfl, h.runUser⟩
    next k hk =>
      obtain ⟨p, hretire, hp, hpl⟩ := retireReply_spec h.replies env.peer env.corr
      rw [hretire, bind_eq_bind, bind_some]
      cases k with
      | other =>
        refine ⟨_, rfl, Inv.runUser (s := { s with pendingReplies := p }) ?_⟩
        refine { h with replies := hp, continuations := fun key n k hlook => ?_ }
        rw [hpl] at hlook
        split at hlook
        next => cases hlook
        next => exact h.continuations key n k hlook
      | service n key =>
        obtain ⟨hkey, c, hn, hf, hown⟩ := h.continuations _ n key hk
        obtain ⟨d, hcancel, hd, hcap, hdl⟩ := cancelDeadline_spec (s := { s with pendingReplies := p }) h.deadlines key
        obtain ⟨hcp, hcc⟩ := h.ids c (mem_of_getElem? hn)
        obtain ⟨hpe, hce⟩ := replyKeyFor_inj hpeer hcp hown
        rw [← hkey] at hpl hown
        dsimp only
        rw [hcancel, bind_some]
        have hreply := h.settle hn hf hown (o := .reply env) ⟨hpe, hce⟩ hd hcap hdl hp hpl
        have herror := h.settle hn hf hown (o := .rpcError env) ⟨hpe, hce⟩ hd hcap hdl hp hpl
        split
        next => exact ⟨_, rfl, herror⟩
        next => exact ⟨_, rfl, hreply⟩

theorem Inv.dispatchOne (hpeer : env.peer ≤ MAX_WORKERS) : ∃ t, s.dispatchOne hash env = some t ∧ Inv hash t := by
  unfold State.dispatchOne
  split
  next => exact ⟨_, rfl, h.runUser⟩
  next => exact ⟨_, rfl, h.runUser⟩
  next id =>
    have hframe : Inv hash { s with activities := .dispatchOne env :: s.activities } :=
      h.push hpeer
    exact ⟨_, rfl, hframe.push ⟨le_refl _, trivial⟩⟩
  next => exact ⟨_, rfl, h.runUser⟩
  next => exact ⟨_, rfl, h.runUser⟩
  next => exact h.route env hpeer
  next => exact h.route env hpeer

theorem Inv.advance : s.UserCode ∨ ∃ t, s.advance hash = some t ∧ Inv hash t := by
  unfold State.advance
  split
  next sweep size index rest hact =>
    right
    have hrest : rest ⊆ s.activities := by
      rw [hact]
      exact subset_cons_self _ _
    have hsound : size ≤ s.deadlines.table.capacity ∧ sweep.Past s.clock :=
      h.frames (.iterating sweep size index) (by rw [hact]; exact mem_cons_self)
    split
    next hlt =>
      have hnext : Inv hash { s with activities := .iterating sweep size (index + 1) :: rest } :=
        (h.shrink hrest).push hsound
      dsimp only
      split
      next key e hslot =>
        split
        next htakes =>
          have hlook : s.deadlines.lookup hash key = some e :=
            (Dictionary.lookup_eq_some_iff h.deadlines).mpr ⟨index, by omega, hslot⟩
          exact hnext.expire hlook htakes hsound.2
        next => exact ⟨_, rfl, hnext⟩
      next => exact ⟨_, rfl, hnext⟩
    next => exact ⟨_, rfl, h.shrink hrest⟩
  next env rest hact =>
    right
    have hrest : Inv hash { s with activities := rest } := by
      apply h.shrink
      rw [hact]
      exact subset_cons_self _ _
    have hpeer : env.peer ≤ MAX_WORKERS := h.frames (.dispatchOne env) (by rw [hact]; exact mem_cons_self)
    dsimp only
    split
    next => exact ⟨_, rfl, hrest.runUser⟩
    next => exact hrest.route env hpeer
  next hiter hdispatch =>
    left
    intro a ha
    obtain ⟨rest, hact⟩ := head?_eq_some_iff.mp (mem_def.mp ha)
    cases a with
    | user => rfl
    | iterating sweep size index => exact absurd hact (hiter sweep size index rest)
    | dispatchOne env => exact absurd hact (hdispatch env rest)

omit h in
theorem advance_user (h : s.UserCode) : s.advance hash = none := by
  unfold State.advance
  split
  next hact =>
    have huser := h _ (by rw [hact]; rfl)
    cases huser
  next hact =>
    have huser := h _ (by rw [hact]; rfl)
    cases huser
  next => rfl

theorem Inv.fresh (hc : c ∈ s.calls)
    (hpeer : peer ≤ MAX_WORKERS) : replyKeyFor c.peer c.corr ≠ replyKeyFor peer (s.nextCorr + 1) := by
  intro hkey
  obtain ⟨hcp, hcc⟩ := h.ids c hc
  have := (replyKeyFor_inj hcp hpeer hkey).2
  omega

omit h in
theorem Inv.sendOnReply (h : Inv hash s) {peer : Nat} : ∃ t, s.sendOnReply hash peer = some t ∧ Inv hash t := by
  obtain ⟨p, hput, hp, hpl⟩ := Dictionary.atPut_spec h.replies (replyKeyFor peer (s.nextCorr + 1)) (some .other)
  refine ⟨{ s with nextCorr := s.nextCorr + 1, pendingReplies := p }, ?_, ?_⟩
  · unfold State.sendOnReply State.registerReply
    dsimp only
    rw [hput, map_some]
  · refine { h with replies := hp, ids := fun c hc => ?_, continuations := fun key n k hk => ?_ }
    · obtain ⟨hcp, hcc⟩ := h.ids c hc
      exact ⟨hcp, le_succ_of_le hcc⟩
    · have hk' : p.lookup hash key = some (.service n k) := hk
      rw [hpl] at hk'
      split at hk'
      next => cases hk'
      next => exact h.continuations key n k hk'

omit h in
theorem le_length_of_isAlive {id : Nat} (h : s.isAlive id) : id ≤ s.links.length := by
  unfold State.isAlive at h
  rw [Bool.and_eq_true] at h
  by_contra hlt
  have hnone : s.links.getD (id - 1) false = false := by
    rw [getD_eq_getElem?_getD, getElem?_eq_none (by omega)]
    rfl
  rw [hnone] at h
  cases h.2

theorem Inv.refuse (dueAt : Int) :
    Inv hash { s with
      calls := s.calls ++ [⟨0, 0, dueAt, [.workerDied]⟩], activities := .user :: s.activities } := by
  have hold : ∀ {n : Nat} {c : Call Object}, s.calls[n]? = some c →
      (s.calls ++ [⟨0, 0, dueAt, [.workerDied]⟩])[n]? = some c := by
    intro n c hn
    rw [List.getElem?_append_left (List.getElem?_eq_some_iff.mp hn).1, hn]
  refine { h with
    kept := fun c hc => ?_, ids := fun c hc => ?_, promised := fun n c hn hf => ?_
    entries := fun key e he => ?_, continuations := fun key n k hk => ?_
    frames := (h.runUser).frames }
  · rcases mem_append.mp hc with hc | hc
    · exact h.kept c hc
    · rw [mem_singleton.mp hc]
      refine ⟨le_refl _, fun o ho => ?_⟩
      rw [mem_singleton.mp ho]
      trivial
  · rcases mem_append.mp hc with hc | hc
    · exact h.ids c hc
    · rw [mem_singleton.mp hc]
      exact ⟨zero_le _, zero_le _⟩
  · rcases lt_or_ge n s.calls.length with hlt | hge
    · rw [List.getElem?_append_left hlt] at hn
      exact h.promised n c hn hf
    · rw [List.getElem?_append_right hge] at hn
      have hc := mem_singleton.mp (mem_of_getElem? hn)
      rw [hc] at hf
      cases hf
  · obtain ⟨hkey, hcall⟩ := h.entries key e he
    exact ⟨hkey, hold hcall⟩
  · obtain ⟨hkk, c, hn, hf, hkey⟩ := h.continuations key n k hk
    exact ⟨hkk, c, hold hn, hf, hkey⟩

theorem Inv.promise (hpeer : peer ≤ MAX_WORKERS) (dueAt : Int) (hp : p.Valid hash)
    (hpl : ∀ q, p.lookup hash q = if q = replyKeyFor peer (s.nextCorr + 1)
      then some (.service s.calls.length (replyKeyFor peer (s.nextCorr + 1)))
      else s.pendingReplies.lookup hash q)
    (hd : d.Valid hash)
    (hcap : s.deadlines.table.capacity ≤ d.table.capacity)
    (hdl : ∀ q, d.lookup hash q = if q = replyKeyFor peer (s.nextCorr + 1)
      then some ⟨peer, s.nextCorr + 1, dueAt, s.calls.length⟩ else s.deadlines.lookup hash q) :
    Inv hash { s with
      nextCorr := s.nextCorr + 1, pendingReplies := p, deadlines := d
      calls := s.calls ++ [⟨peer, s.nextCorr + 1, dueAt, []⟩] } := by
  have hold : ∀ {n : Nat} {c : Call Object}, s.calls[n]? = some c →
      (s.calls ++ [⟨peer, s.nextCorr + 1, dueAt, []⟩])[n]? = some c := by
    intro n c hn
    rw [List.getElem?_append_left (List.getElem?_eq_some_iff.mp hn).1, hn]
  have hnew : (s.calls ++ [(⟨peer, s.nextCorr + 1, dueAt, []⟩ : Call Object)])[s.calls.length]? =
      some ⟨peer, s.nextCorr + 1, dueAt, []⟩ := by
    rw [List.getElem?_append_right (Nat.le_refl _), Nat.sub_self]
    rfl
  refine ⟨h.links, hp, hd, fun c hc => ?_, fun c hc => ?_, fun n c hn hf => ?_, fun key e he => ?_,
    fun key n k hk => ?_, fun a ha => (h.frames a ha).mono hcap (Int.le_refl _)⟩
  · rcases mem_append.mp hc with hc | hc
    · exact h.kept c hc
    · rw [mem_singleton.mp hc]
      exact ⟨Nat.zero_le _, fun o ho => by cases ho⟩
  · rcases mem_append.mp hc with hc | hc
    · obtain ⟨hcp, hcc⟩ := h.ids c hc
      exact ⟨hcp, Nat.le_succ_of_le hcc⟩
    · rw [mem_singleton.mp hc]
      exact ⟨hpeer, Nat.le_refl _⟩
  · rw [hdl]
    rcases Nat.lt_trichotomy n s.calls.length with hlt | he | hgt
    · have hn' : s.calls[n]? = some c := by
        rw [← List.getElem?_append_left hlt]
        exact hn
      rw [if_neg (h.fresh (mem_of_getElem? hn') hpeer)]
      exact h.promised n c hn' hf
    · have hn' := hn
      rw [he] at hn'
      have hc := some.inj (hnew.symm.trans hn')
      rw [← hc, he, if_pos rfl]
    · have hnone : (s.calls ++ [(⟨peer, s.nextCorr + 1, dueAt, []⟩ : Call Object)])[n]? = none := by
        rw [List.getElem?_eq_none]
        rw [length_append, length_singleton]
        omega
      have hn' := hnone.symm.trans hn
      cases hn'
  · have he' : d.lookup hash key = some e := he
    rw [hdl] at he'
    split at he'
    next hkey =>
      rw [← some.inj he']
      exact ⟨hkey, hnew⟩
    next =>
      obtain ⟨hkey, hcall⟩ := h.entries key e he'
      exact ⟨hkey, hold hcall⟩
  · have hk' : p.lookup hash key = some (.service n k) := hk
    rw [hpl] at hk'
    split at hk'
    next hkey =>
      cases hk'
      exact ⟨hkey.symm, _, hnew, rfl, hkey⟩
    next =>
      obtain ⟨hkk, c, hn, hf, hkey⟩ := h.continuations key n k hk'
      exact ⟨hkk, c, hold hn, hf, hkey⟩

theorem Inv.call (target : Option Nat) (ms : Int) : ∃ t, s.call hash target ms = some t ∧ Inv hash t := by
  unfold State.call
  split
  next => exact ⟨_, rfl, h.refuse _⟩
  next peer htarget =>
    have halive : s.isAlive peer = true := (filter_eq_some_iff.mp htarget).2
    have hpeer : peer ≤ MAX_WORKERS := le_trans (le_length_of_isAlive halive) h.links
    obtain ⟨p, hput, hp, hpl⟩ := Dictionary.atPut_spec h.replies (replyKeyFor peer (s.nextCorr + 1))
      (some (.service s.calls.length (replyKeyFor peer (s.nextCorr + 1))))
    obtain ⟨d, hnote, hd, hdl⟩ := Dictionary.atPut_spec h.deadlines (replyKeyFor peer (s.nextCorr + 1))
      (some ⟨peer, s.nextCorr + 1, s.clock + ms, s.calls.length⟩)
    have hcap := Dictionary.capacity_le_of_atPut hnote
    refine ⟨_, ?_, h.promise hpeer (s.clock + ms) hp hpl hd hcap hdl⟩
    unfold State.registerReply State.noteDeadlineKey
    dsimp only
    rw [hput, map_some, bind_eq_bind, bind_some, hnote, map_some, bind_some]
    rfl

omit h in
theorem length_spawn {links links' : List Bool} (hl : links.length ≤ MAX_WORKERS)
    (h : spawn links = some links') : links'.length ≤ MAX_WORKERS := by
  unfold spawn at h
  split at h
  next =>
    cases h
    rw [length_set]
    exact hl
  next =>
    obtain ⟨hlt, h⟩ := ite_none_right_eq_some.mp h
    cases h
    rw [length_append, length_singleton]
    exact hlt

theorem step_inv (hs : Step hash s t) : Inv hash t := by
  cases hs with
  | call target ms _ ht =>
    obtain ⟨u, hu, hinv⟩ := h.call target ms
    rw [hu] at ht
    cases ht
    exact hinv
  | sendOnReply peer _ _ ht =>
    obtain ⟨u, hu, hinv⟩ := @Inv.sendOnReply _ _ _ h peer
    rw [hu] at ht
    cases ht
    exact hinv
  | dispatchOne env _ hpeer ht =>
    obtain ⟨u, hu, hinv⟩ := h.dispatchOne env (le_trans hpeer h.links)
    rw [hu] at ht
    cases ht
    exact hinv
  | sweepDeadlines _ => exact h.push ⟨le_refl _, Int.le_refl _⟩
  | failPendingCallsTo deadId _ => exact h.push ⟨le_refl _, trivial⟩
  | advance ht =>
    rcases h.advance with huser | ⟨u, hu, hinv⟩
    · rw [advance_user huser] at ht
      cases ht
    · rw [hu] at ht
      cases ht
      exact hinv
  | finish hact =>
    apply h.shrink
    rw [hact]
    exact subset_cons_self _ _
  | raise n _ => exact h.shrink (drop_subset n _)
  | spawn hl => exact h.frame (length_spawn h.links hl) h.frames
  | workerGone id =>
    apply h.frame _ h.frames
    rw [length_set]
    exact h.links
  | onWorkerDied handler => exact h.frame h.links h.frames
  | abandonPending _ =>
    refine { h with replies := Dictionary.new_valid, continuations := fun key n k hk => ?_ }
    have hnew := (@Dictionary.new_lookup Nat Continuation _ hash key).symm.trans hk
    cases hnew
  | tick now hnow =>
    apply h.frame h.links
    intro a ha
    exact (h.frames a ha).mono (le_refl _) hnow

theorem run_inv (hr : Run hash s t) : Inv hash t := by
  induction hr with
  | refl => exact h
  | step _ hs ih => exact step_inv ih hs

end

/-- A call's blocks run at most once between them, a reply is the call's own, a timeout is
late, and a call that has not settled is in the deadline table. -/
theorem settles_once {n : Nat} {c : Call Object} (hr : Run hash start s) (hn : s.calls[n]? = some c) :
    c.fired.length ≤ 1 ∧
      (∀ env, .reply env ∈ c.fired ∨ .rpcError env ∈ c.fired → env.peer = c.peer ∧ env.corr = c.corr) ∧
      (∀ firedAt, .timeout firedAt ∈ c.fired → c.dueAt < firedAt) ∧
      (c.fired = [] → s.deadlines.lookup hash (replyKeyFor c.peer c.corr) =
        some ⟨c.peer, c.corr, c.dueAt, n⟩) := by
  have hinv := run_inv start_inv hr
  obtain ⟨honce, hdue⟩ := hinv.kept c (mem_of_getElem? hn)
  refine ⟨honce, fun env henv => ?_, fun firedAt h => hdue _ h, hinv.promised n c hn⟩
  rcases henv with h | h
  · exact hdue _ h
  · exact hdue _ h

theorem settles_once_in_sweep : ∃ (s : State Nat) (c : Call Nat), Run id start s ∧ s.calls[0]? = some c ∧
    c.fired = [.timeout 9] ∧ c.fired.length ≤ 1 ∧ c.dueAt < 9 := by
  let alive : State Nat := { (start : State Nat) with links := [true] }
  let called : State Nat := (alive.call id (some 1) 5).get rfl
  let late : State Nat := { called with clock := 9 }
  let swept : State Nat := (late.sweepDeadlines.advance id).get (by decide)
  let fired : State Nat := (swept.advance id).get (by decide)
  have halive : Run id start alive := .step (.refl _) (.spawn rfl)
  have hcalled : Run id start called := halive.step (.call (some 1) 5 (fun a ha => by cases ha) rfl)
  have hlate : Run id start late := hcalled.step (.tick 9 (by decide))
  have hswept : Run id start swept := (hlate.step (.sweepDeadlines (fun a ha => by cases ha))).step (.advance (some_get _).symm)
  have hfired : Run id start fired := hswept.step (.advance (some_get _).symm)
  have hn : fired.calls[0]? = some ⟨1, 1, 5, [.timeout 9]⟩ := by decide
  obtain ⟨honce, _, hlater, _⟩ := settles_once hfired hn
  exact ⟨fired, _, hfired, hn, rfl, honce, hlater 9 (mem_singleton_self _)⟩

end WinArmVm.ServiceCalls
