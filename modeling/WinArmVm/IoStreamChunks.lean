import WinArmVm.IoStream

namespace WinArmVm

open List

/-- Continuations that return: what a block does with what it is given, and which blocks
`eachLineDo:` was sent with. -/
structure Continuations (σ : Type) where
  value : σ → Request → Answer → σ × List Request
  each : Nat → Bool

namespace Continuations

variable {σ : Type}

/-- The block of a request; the user's state goes with a log of the requests made so far. The block
of `eachLineDo:` makes its request again after a line, and is over at the end of input. -/
def code (c : Continuations σ) : UserCode (σ × List Request) where
  react u req a :=
    let v := c.value u.1 req a
    match c.each req.id, a with
    | true, .line none => (u, [], false)
    | true, .line (some _) => ((v.1, u.2 ++ (v.2 ++ [req])), v.2 ++ [req], false)
    | _, _ => ((v.1, u.2 ++ v.2), v.2, false)

variable (c : Continuations σ) (u : σ × List Request) (req : Request)

theorem code_returns (a : Answer) : (c.code.react u req a).2.2 = false := by
  simp only [code]
  split <;> rfl

theorem code_log (a : Answer) : (c.code.react u req a).1.2 = u.2 ++ (c.code.react u req a).2.1 := by
  simp only [code]
  split
  next => exact (append_nil _).symm
  next => rfl
  next => rfl

end Continuations

/-- What the primary does with a stream from its top loop. -/
inductive StreamOp
  | deliver (bytes : List UInt8) (eof : Bool)
  | ask (req : Request)

/-- The same, a byte at a time. -/
inductive StreamEvent
  | byte (b : UInt8)
  | eof
  | ask (req : Request)
deriving DecidableEq

namespace StreamEvent

def op : StreamEvent → StreamOp
  | .byte b => .deliver [b] false
  | .eof => .deliver [] true
  | .ask req => .ask req

end StreamEvent

namespace StreamOp

def bytes : StreamOp → List UInt8
  | .deliver bytes _ => bytes
  | .ask _ => []

def inputs : StreamOp → List (List UInt8 × Bool)
  | .deliver bytes e => [(bytes, e)]
  | .ask _ => []

theorem inputs_bytes (ops : List StreamOp) : ((ops.flatMap inputs).map Prod.fst).flatten = (ops.map bytes).flatten := by
  induction ops with
  | nil => rfl
  | cons op ops ih =>
    rw [flatMap_cons, map_append, flatten_append, ih]
    cases op with
    | deliver bytes e => simp [inputs, StreamOp.bytes]
    | ask req => rfl

/-- What is left of operations when it is forgotten how the bytes were cut; the end of input is
told once. -/
def events : Bool → List StreamOp → List StreamEvent
  | _, [] => []
  | seen, .ask req :: ops => .ask req :: events seen ops
  | seen, .deliver bytes e :: ops =>
    bytes.map .byte ++ (if e && !seen then [.eof] else []) ++ events (seen || e) ops

end StreamOp

namespace IoStream

def Waiting (s : IoStream) : Prop := ∀ req rest, s.pending = req :: rest → s.headSatisfiable req = false

/-- The stream as `deliverData:eof:` hands it to the loop of `service`. -/
def grow (s : IoStream) (bytes : List UInt8) (e : Bool) : IoStream :=
  { s with inBuf := s.inBuf ++ bytes, eof := s.eof || e, servicing := true }

theorem grow_grow (s : IoStream) (bytes bytes' : List UInt8) (e : Bool) :
    (s.grow bytes false).grow bytes' e = s.grow (bytes ++ bytes') e := by
  simp [grow]

theorem idxOf?_append {buf : List UInt8} (h : LF ∈ buf) (more : List UInt8) :
    ∃ k, buf.idxOf? LF = some k ∧ (buf ++ more).idxOf? LF = some k := by
  induction buf with
  | nil => cases h
  | cons b bs ih =>
    by_cases hb : b = LF
    · subst hb
      exact ⟨0, by rw [idxOf?_cons]; simp, by rw [cons_append, idxOf?_cons]; simp⟩
    · have hne : (b == LF) = false := by simpa using hb
      obtain ⟨k, hk, hmore⟩ := ih ((mem_cons.mp h).resolve_left (Ne.symm hb))
      refine ⟨k + 1, ?_, ?_⟩
      · rw [idxOf?_cons, hne, hk]
        rfl
      · rw [cons_append, idxOf?_cons, hne, hmore]
        rfl

theorem take_append {s : IoStream} {req : Request} (he : s.eof = false) (h : s.headSatisfiable req = true)
    (more : List UInt8) :
    take (s.inBuf ++ more) req.framing = take s.inBuf req.framing ∧
      (take s.inBuf req.framing).2 ≤ s.inBuf.length := by
  obtain ⟨id, f⟩ := req
  simp only [headSatisfiable, he, Bool.false_or] at h
  cases f with
  | line =>
    obtain ⟨k, hk, hmore⟩ := idxOf?_append (of_decide_eq_true h) more
    have hlt := idxOf?_length hk
    have htake : (s.inBuf ++ more).take k = s.inBuf.take k := take_append_of_le_length (by omega)
    simp only [take, takeLine, hk, hmore, htake, true_and]
    omega
  | count n =>
    have hn : n ≤ s.inBuf.length := of_decide_eq_true h
    have htake : (s.inBuf ++ more).take n = s.inBuf.take n := take_append_of_le_length hn
    simp only [take, htake, length_append]
    rw [Nat.min_eq_left hn, Nat.min_eq_left (by omega)]
    exact ⟨rfl, hn⟩
  | all => cases h

theorem headSatisfiable_grow {s : IoStream} {req : Request} (h : s.headSatisfiable req = true) (bytes : List UInt8)
    (e : Bool) : (s.grow bytes e).headSatisfiable req = true := by
  obtain ⟨id, f⟩ := req
  simp only [headSatisfiable, grow, Bool.or_eq_true] at h ⊢
  obtain he | hf := h
  · exact .inl (.inl he)
  · right
    cases f with
    | line =>
      exact decide_eq_true (mem_append_left _ (of_decide_eq_true hf))
    | count n =>
      have hn : n ≤ s.inBuf.length := of_decide_eq_true hf
      refine decide_eq_true ?_
      rw [length_append]
      omega
    | all => cases hf

theorem takeLine_pos {buf line : List UInt8} (h : (takeLine buf).1 = some line) :
    0 < (takeLine buf).2 ∧ (takeLine buf).2 ≤ buf.length := by
  unfold takeLine at h ⊢
  cases hk : buf.idxOf? LF with
  | none =>
    rw [hk] at h
    by_cases hb : buf = []
    · simp [hb] at h
    · simp only [if_neg hb]
      exact ⟨length_pos_iff.mpr hb, Nat.le_refl _⟩
  | some k =>
    have hlt := idxOf?_length hk
    exact ⟨Nat.succ_pos k, hlt⟩

end IoStream

namespace Reader

variable {σ : Type}

def grow (r : Reader σ) (bytes : List UInt8) (e : Bool) : Reader σ := { r with stream := r.stream.grow bytes e }

/-- The loop of `service` is over. -/
def atRest (r : Reader σ) : Reader σ := { r with stream := { r.stream with servicing := false } }

theorem fireHead_grow (code : UserCode σ) {r : Reader σ} {req : Request} (he : r.stream.eof = false)
    (hsat : r.stream.headSatisfiable req = true) (rest : List Request) (bytes : List UInt8) (e : Bool) :
    (r.grow bytes e).fireHead code req rest =
      ((r.fireHead code req rest).1.grow bytes e, (r.fireHead code req rest).2) := by
  obtain ⟨htake, hlen⟩ := IoStream.take_append he hsat bytes
  have hdrop : (r.stream.inBuf ++ bytes).drop (IoStream.take r.stream.inBuf req.framing).2 =
      r.stream.inBuf.drop (IoStream.take r.stream.inBuf req.framing).2 ++ bytes :=
    drop_append_of_le_length hlen
  have hfront : (r.stream.inBuf ++ bytes).take (IoStream.take r.stream.inBuf req.framing).2 =
      r.stream.inBuf.take (IoStream.take r.stream.inBuf req.framing).2 := take_append_of_le_length hlen
  simp only [fireHead, grow, IoStream.grow, consumed, htake, hdrop, hfront]

section Sweeps

variable (code : UserCode σ)

/-- The loop of `service` comes to an end. -/
def Sweeps (r t : Reader σ) : Prop := ∃ fuel, sweep code fuel r = some t

variable {code} {r t : Reader σ}

theorem sweeps_stop (h : ∀ fuel, sweep code (fuel + 1) r = some r.atRest) : Sweeps code r t ↔ t = r.atRest := by
  constructor
  · rintro ⟨fuel, hrun⟩
    cases fuel with
    | zero => cases hrun
    | succ fuel =>
      rw [h fuel] at hrun
      exact (Option.some.inj hrun).symm
  · rintro rfl
    exact ⟨1, h 0⟩

theorem sweeps_nil (hp : r.stream.pending = []) : Sweeps code r t ↔ t = r.atRest := by
  refine sweeps_stop fun fuel => ?_
  unfold sweep
  split
  next => rfl
  next req rest h =>
    rw [hp] at h
    cases h

theorem sweeps_waiting (hw : r.stream.Waiting) : Sweeps code r t ↔ t = r.atRest := by
  refine sweeps_stop fun fuel => ?_
  unfold sweep
  split
  next => rfl
  next req rest h =>
    rw [if_neg (by rw [hw req rest h]; decide)]
    rfl

end Sweeps

section Returning

variable {c : Continuations σ} {r t v : Reader (σ × List Request)} {req : Request} {rest : List Request}

section

variable (hp : r.stream.pending = req :: rest) (hsat : r.stream.headSatisfiable req = true)

include hp hsat

theorem sweep_succ {fuel : Nat} : sweep c.code (fuel + 1) r = sweep c.code fuel (r.fireHead c.code req rest).1 := by
  have hret : (r.fireHead c.code req rest).2 = false := c.code_returns ..
  rw [sweep, hp]
  simp only [hsat, hret, ↓reduceIte, Bool.false_eq_true]

theorem sweeps_fire : Sweeps c.code r t ↔ Sweeps c.code (r.fireHead c.code req rest).1 t := by
  constructor
  · rintro ⟨fuel, h⟩
    cases fuel with
    | zero => cases h
    | succ fuel => exact ⟨fuel, (sweep_succ hp hsat).symm.trans h⟩
  · rintro ⟨fuel, h⟩
    exact ⟨fuel + 1, (sweep_succ hp hsat).trans h⟩

omit hp hsat in
theorem Sweeps.induct {P : Reader (σ × List Request) → Prop} (h : Sweeps c.code r t)
    (hstop : ∀ r, r.stream.Waiting → t = r.atRest → P r)
    (hfire : ∀ r req rest, r.stream.pending = req :: rest → r.stream.headSatisfiable req = true →
      Sweeps c.code r t → P (r.fireHead c.code req rest).1 → P r) : P r := by
  obtain ⟨fuel, h⟩ := h
  induction fuel generalizing r with
  | zero => cases h
  | succ fuel ih =>
    by_cases hw : r.stream.Waiting
    · exact hstop r hw ((sweeps_waiting hw).mp ⟨fuel + 1, h⟩)
    · simp only [IoStream.Waiting, not_forall, Bool.not_eq_false] at hw
      obtain ⟨req, rest, hp, hsat⟩ := hw
      exact hfire r req rest hp hsat ⟨fuel + 1, h⟩ (ih ((sweep_succ hp hsat).symm.trans h))

theorem sweeps_fire_grow (he : r.stream.eof = false) (bytes : List UInt8) (e : Bool) :
    Sweeps c.code (r.grow bytes e) v ↔ Sweeps c.code ((r.fireHead c.code req rest).1.grow bytes e) v := by
  have hp' : (r.grow bytes e).stream.pending = req :: rest := hp
  have hsat' : (r.grow bytes e).stream.headSatisfiable req = true := IoStream.headSatisfiable_grow hsat bytes e
  rw [sweeps_fire hp' hsat', fireHead_grow c.code he hsat]

end

variable (bytes : List UInt8)

theorem sweeps_grow (e : Bool) (he : r.stream.eof = false) :
    Sweeps c.code (r.grow bytes e) v ↔ ∃ t, Sweeps c.code r t ∧ Sweeps c.code (t.grow bytes e) v := by
  constructor
  · rintro ⟨fuel, h⟩
    induction fuel generalizing r with
    | zero => cases h
    | succ fuel ih =>
      by_cases hw : r.stream.Waiting
      · exact ⟨r.atRest, (sweeps_waiting hw).mpr rfl, fuel + 1, h⟩
      · simp only [IoStream.Waiting, not_forall, Bool.not_eq_false] at hw
        obtain ⟨req, rest, hp, hsat⟩ := hw
        have hp' : (r.grow bytes e).stream.pending = req :: rest := hp
        have hsat' : (r.grow bytes e).stream.headSatisfiable req = true := IoStream.headSatisfiable_grow hsat bytes e
        rw [sweep_succ hp' hsat', fireHead_grow c.code he hsat] at h
        obtain ⟨t, ht, hv⟩ := ih (r := (r.fireHead c.code req rest).1) he h
        exact ⟨t, (sweeps_fire hp hsat).mpr ht, hv⟩
  · rintro ⟨t, h, hv⟩
    refine h.induct (P := fun r => r.stream.eof = false → Sweeps c.code (r.grow bytes e) v) ?_ ?_ he
    · rintro r - rfl he
      exact hv
    · intro r req rest hp hsat _ ih he
      exact (sweeps_fire_grow hp hsat he bytes e).mpr (ih he)

theorem Sweeps.keeps {I : Reader (σ × List Request) → Prop} (h : Sweeps c.code r t) (hr : I r)
    (hfire : ∀ r req rest, I r → r.stream.pending = req :: rest → r.stream.headSatisfiable req = true →
      I (r.fireHead c.code req rest).1)
    (hrest : ∀ r, I r → r.stream.Waiting → I r.atRest) : I t := by
  refine h.induct (P := fun r => I r → I t) ?_ ?_ hr
  · rintro r hw rfl hr
    exact hrest r hr hw
  · intro r req rest hp hsat _ ih hr
    exact ih (hfire r req rest hr hp hsat)

def Ordered (r : Reader (σ × List Request)) : Prop := r.fired.map Fired.request ++ r.stream.pending = r.user.2

theorem fireHead_ordered (h : r.Ordered) (hp : r.stream.pending = req :: rest) : (r.fireHead c.code req rest).1.Ordered := by
  unfold Ordered at h ⊢
  rw [hp] at h
  simp only [fireHead, c.code_log, ← h, map_append, map_cons, map_nil, append_assoc, nil_append, cons_append]

theorem Sweeps.ends (h : Sweeps c.code r t) : t.stream.Waiting ∧ t.stream.servicing = false := by
  refine h.induct (P := fun _ => t.stream.Waiting ∧ t.stream.servicing = false) ?_ fun _ _ _ _ _ _ ih => ih
  rintro r hw rfl
  exact ⟨hw, rfl⟩

theorem Sweeps.eof (h : Sweeps c.code r t) : t.stream.eof = r.stream.eof :=
  h.keeps (I := fun u => u.stream.eof = r.stream.eof) rfl (fun _ _ _ hr _ _ => hr) fun _ hr _ => hr

theorem Sweeps.ordered (h : Sweeps c.code r t) (hr : r.Ordered) : t.Ordered :=
  h.keeps hr (fun _ _ _ hr hp _ => fireHead_ordered hr hp) fun _ hr _ => hr

structure Quiet (r : Reader (σ × List Request)) : Prop where
  servicing : r.stream.servicing = false
  waiting : r.stream.Waiting
  ordered : r.Ordered

theorem Quiet.no_pending (h : r.Quiet) (he : r.stream.eof = true) : r.stream.pending = [] := by
  cases hp : r.stream.pending with
  | nil => rfl
  | cons req rest =>
    have hsat := h.waiting req rest hp
    rw [IoStream.headSatisfiable, he] at hsat
    cases hsat

def start (u : σ) : Reader (σ × List Request) := ⟨IoStream.new, (u, []), []⟩

theorem start_quiet (u : σ) : (start u).Quiet where
  servicing := rfl
  waiting _ _ hp := by cases hp
  ordered := rfl

/-- A request from the top loop: it goes into the log, the queue, and the loop of `service` runs. -/
def asked (r : Reader (σ × List Request)) (req : Request) : Reader (σ × List Request) :=
  { r with user := (r.user.1, r.user.2 ++ [req]) }

variable (c) in
def Does (r : Reader (σ × List Request)) (t : Reader (σ × List Request)) : StreamOp → Prop
  | .deliver bytes e => ∃ fuel, deliverData c.code fuel bytes e r = some t
  | .ask req => ∃ fuel, enqueue c.code fuel req (r.asked req) = some t

variable (c) in
def Reads (r t : Reader (σ × List Request)) : List StreamOp → Prop
  | [] => t = r
  | op :: ops => ∃ s, Does c r s op ∧ Reads s t ops

variable {budget : σ → Nat} {e : Bool} {op : StreamOp}

theorem does_deliver {bytes : List UInt8} : Does c r t (.deliver bytes e) ↔ Sweeps c.code (r.grow bytes e) t := Iff.rfl

def queued (r : Reader (σ × List Request)) (req : Request) : Reader (σ × List Request) :=
  { r.asked req with stream := { r.stream with pending := r.stream.pending ++ [req], servicing := true } }

theorem does_ask (h : r.Quiet) : Does c r t (.ask req) ↔ Sweeps c.code (r.queued req) t := by
  have henq (fuel : Nat) : enqueue c.code fuel req (r.asked req) = sweep c.code fuel (r.queued req) := by
    rw [enqueue, service, if_neg (by rw [asked, h.servicing]; decide)]
    rfl
  exact exists_congr fun fuel => by rw [henq]

theorem queued_ordered (h : r.Ordered) (req : Request) : (r.queued req).Ordered := by
  unfold Ordered at h ⊢
  rw [queued, asked, ← h, append_assoc]

theorem Does.quiet (h : Does c r t op) (hr : r.Quiet) : t.Quiet := by
  cases op with
  | deliver bytes e =>
    have hrest := (does_deliver.mp h).ends
    exact ⟨hrest.2, hrest.1, (does_deliver.mp h).ordered hr.ordered⟩
  | ask req =>
    have hsweeps := (does_ask hr).mp h
    exact ⟨hsweeps.ends.2, hsweeps.ends.1, hsweeps.ordered (queued_ordered hr.ordered req)⟩

variable {arrived : List UInt8} {ops : List StreamOp}

theorem Reads.quiet (h : Reads c r t ops) (hr : r.Quiet) : t.Quiet := by
  induction ops generalizing r with
  | nil =>
    cases h
    exact hr
  | cons op ops ih =>
    obtain ⟨s, hdoes, hreads⟩ := h
    exact ih hreads (hdoes.quiet hr)

theorem reads_append {ops ops' : List StreamOp} :
    Reads c r t (ops ++ ops') ↔ ∃ s, Reads c r s ops ∧ Reads c s t ops' := by
  induction ops generalizing r with
  | nil => simp [Reads]
  | cons op ops ih =>
    constructor
    · rintro ⟨u, hdoes, hreads⟩
      obtain ⟨s, hs, hrest⟩ := ih.mp hreads
      exact ⟨s, ⟨u, hdoes, hs⟩, hrest⟩
    · rintro ⟨s, ⟨u, hdoes, hs⟩, hrest⟩
      exact ⟨u, hdoes, ih.mpr ⟨s, hs, hrest⟩⟩

section

variable (h : r.Quiet) (he : (r.stream.eof || e) = r.stream.eof)

include h he

theorem grow_nothing : (r.grow [] e).atRest = r := by
  obtain ⟨⟨inBuf, eof, pending, servicing⟩, user, fired⟩ := r
  have hs : servicing = false := h.servicing
  have he' : (eof || e) = eof := he
  simp only [grow, IoStream.grow, atRest, append_nil, he', hs]

theorem grow_nothing_waiting : (r.grow [] e).stream.Waiting := by
  intro req rest hp
  have hsat := h.waiting req rest hp
  simpa only [IoStream.headSatisfiable, grow, IoStream.grow, append_nil, he] using hsat

theorem does_nothing : Does c r t (.deliver [] e) ↔ t = r := by
  rw [does_deliver, sweeps_waiting (grow_nothing_waiting h he), grow_nothing h he]

end

theorem does_append (h : r.Quiet) (bytes bytes' : List UInt8) (e : Bool) : Does c r v (.deliver (bytes ++ bytes') e) ↔
      ∃ t, Does c r t (.deliver bytes false) ∧ Does c t v (.deliver bytes' e) := by
  have hgrow (u : Reader (σ × List Request)) : (u.grow bytes false).grow bytes' e = u.grow (bytes ++ bytes') e := by
    rw [grow, grow, grow, IoStream.grow_grow]
  cases he : r.stream.eof with
  | false =>
    simp only [does_deliver]
    rw [← hgrow, sweeps_grow bytes' e (by rw [grow, IoStream.grow, he]; rfl)]
  | true =>
    -- At the end of input nothing is pending, and the loop has nothing to do.
    have hp := h.no_pending he
    have hone : Sweeps c.code (r.grow bytes false) = (· = (r.grow bytes false).atRest) :=
      funext fun t => propext (sweeps_nil hp)
    have hall : Sweeps c.code (r.grow (bytes ++ bytes') e) = (· = (r.grow (bytes ++ bytes') e).atRest) :=
      funext fun t => propext (sweeps_nil hp)
    have hrest : Sweeps c.code ((r.grow bytes false).atRest.grow bytes' e) =
        (· = ((r.grow bytes false).atRest.grow bytes' e).atRest) := funext fun t => propext (sweeps_nil hp)
    have heq : ((r.grow bytes false).atRest.grow bytes' e).atRest = (r.grow (bytes ++ bytes') e).atRest := by
      simp [grow, IoStream.grow, atRest]
    simp only [does_deliver, hone, hall, exists_eq_left, hrest, heq]

theorem Does.eof (h : Does c r t op) (hr : r.Quiet) : t.stream.eof = match op with
      | .deliver _ e => r.stream.eof || e
      | .ask _ => r.stream.eof := by
  cases op with
  | deliver bytes e => exact (does_deliver.mp h).eof
  | ask req => exact ((does_ask hr).mp h).eof

theorem does_bytes (e : Bool) (hr : r.Quiet) : Does c r t (.deliver bytes e) ↔
      Reads c r t ((bytes.map StreamEvent.byte ++ if e && !r.stream.eof then [StreamEvent.eof] else []).map StreamEvent.op) := by
  induction bytes generalizing r with
  | nil =>
    by_cases he : (e && !r.stream.eof) = true
    · simp only [Bool.and_eq_true, Bool.not_eq_true'] at he
      obtain ⟨rfl, heof⟩ := he
      simp [Reads, StreamEvent.op, heof]
    · have hsame : (r.stream.eof || e) = r.stream.eof := by
        revert he
        cases e <;> cases r.stream.eof <;> decide
      simp only [he, map_nil, nil_append]
      exact does_nothing hr hsame
  | cons b bs ih =>
    show Does c r t (.deliver ([b] ++ bs) e) ↔ _
    rw [does_append hr]
    simp only [map_cons, cons_append, Reads, StreamEvent.op]
    refine exists_congr fun s => and_congr_right fun hs => ?_
    have heof : s.stream.eof = r.stream.eof := (hs.eof hr).trans (Bool.or_false _)
    rw [ih (hs.quiet hr), heof]

theorem reads_events (ops : List StreamOp) (hr : r.Quiet) :
    Reads c r t ops ↔ Reads c r t ((StreamOp.events r.stream.eof ops).map StreamEvent.op) := by
  induction ops generalizing r with
  | nil => exact Iff.rfl
  | cons op ops ih =>
    cases op with
    | ask req =>
      refine exists_congr fun s => and_congr_right fun hs => ?_
      have heof : s.stream.eof = r.stream.eof := hs.eof hr
      rw [ih (hs.quiet hr), heof]
    | deliver bytes e =>
      rw [StreamOp.events, map_append, reads_append]
      constructor
      · rintro ⟨s, hs, hreads⟩
        have heof : s.stream.eof = (r.stream.eof || e) := hs.eof hr
        have hrest := (ih (hs.quiet hr)).mp hreads
        rw [heof] at hrest
        exact ⟨s, (does_bytes bytes e hr).mp hs, hrest⟩
      · rintro ⟨s, hs, hrest⟩
        have hdoes := (does_bytes bytes e hr).mpr hs
        have heof : s.stream.eof = (r.stream.eof || e) := hdoes.eof hr
        rw [← heof] at hrest
        exact ⟨s, hdoes, (ih (hdoes.quiet hr)).mpr hrest⟩

variable {inputs : List (List UInt8 × Bool)}

theorem Does.fed (h : Does c r t op) (hr : r.Fed inputs) : t.Fed (inputs ++ op.inputs) := by
  cases op with
  | deliver bytes e =>
    obtain ⟨fuel, hrun⟩ := h
    exact hr.deliverData hrun
  | ask req =>
    obtain ⟨fuel, hrun⟩ := h
    have hasked : (r.asked req).Fed inputs := ⟨⟨hr.served.split, hr.served.fired⟩, hr.told⟩
    rw [StreamOp.inputs, append_nil]
    exact hasked.enqueue hrun

theorem Reads.fed (h : Reads c r t ops) (hr : r.Fed inputs) : t.Fed (inputs ++ ops.flatMap StreamOp.inputs) := by
  induction ops generalizing r inputs with
  | nil =>
    cases h
    rw [flatMap_nil, append_nil]
    exact hr
  | cons op ops ih =>
    obtain ⟨s, hdoes, hreads⟩ := h
    rw [flatMap_cons, ← append_assoc]
    exact ih hreads (hdoes.fed hr)

theorem start_fed (u : σ) : (start u).Fed [] where
  served := ⟨rfl, fun pre f post h => by simp [start] at h⟩
  told he := by cases he

/-- No more than so many requests are made by the blocks, `eachLineDo:` aside. -/
def Bounded (c : Continuations σ) (budget : σ → Nat) : Prop :=
  ∀ u req a, budget (c.value u req a).1 + (c.value u req a).2.length ≤ budget u

/-- How many turns the loop has left at most: a line of `eachLineDo:` takes a byte at least. -/
def turns (budget : σ → Nat) (r : Reader (σ × List Request)) : Nat :=
  r.stream.pending.length + budget r.user.1 + r.stream.inBuf.length

theorem fireHead_turns (hb : Bounded c budget) (hp : r.stream.pending = req :: rest) :
    (r.fireHead c.code req rest).1.turns budget < r.turns budget := by
  have hvalue := hb r.user.1 req (IoStream.take r.stream.inBuf req.framing).1
  simp only [turns, fireHead, hp, length_append, length_cons, length_drop]
  simp only [Continuations.code]
  split
  next => simp only [length_nil]; omega
  next hc l ha =>
    have hpos : 0 < (IoStream.take r.stream.inBuf req.framing).2 ∧
        (IoStream.take r.stream.inBuf req.framing).2 ≤ r.stream.inBuf.length := by
      cases hf : req.framing with
      | line =>
        rw [hf] at ha
        exact IoStream.takeLine_pos (Answer.line.inj ha)
      | count n => rw [hf] at ha; cases ha
      | all => rw [hf] at ha; cases ha
    simp only [length_append, length_singleton]
    omega
  next =>
    dsimp only
    omega

theorem sweeps_exists (hb : Bounded c budget) : ∀ (n : Nat) (r : Reader (σ × List Request)),
    r.turns budget < n → ∃ t, Sweeps c.code r t := by
  intro n
  induction n with
  | zero => intro r hlt; cases hlt
  | succ n ih =>
    intro r hlt
    by_cases hw : r.stream.Waiting
    · exact ⟨r.atRest, (sweeps_waiting hw).mpr rfl⟩
    · simp only [IoStream.Waiting, not_forall, Bool.not_eq_false] at hw
      obtain ⟨req, rest, hp, hsat⟩ := hw
      have hless := fireHead_turns hb hp
      obtain ⟨t, ht⟩ := ih (r.fireHead c.code req rest).1 (by omega)
      exact ⟨t, (sweeps_fire hp hsat).mpr ht⟩

theorem reads_exists (hb : Bounded c budget) (ops : List StreamOp) (hr : r.Quiet) : ∃ t, Reads c r t ops := by
  induction ops generalizing r with
  | nil => exact ⟨r, rfl⟩
  | cons op ops ih =>
    have hdoes : ∃ s, Does c r s op := by
      cases op with
      | deliver bytes e => exact sweeps_exists hb _ (r.grow bytes e) (Nat.lt_succ_self _)
      | ask req =>
        obtain ⟨s, hs⟩ := sweeps_exists hb _ (r.queued req) (Nat.lt_succ_self _)
        exact ⟨s, (does_ask hr).mpr hs⟩
    obtain ⟨s, hs⟩ := hdoes
    obtain ⟨t, ht⟩ := ih (hs.quiet hr)
    exact ⟨t, s, hs, ht⟩

/-- Operations with the same events lead to the same: the requests fire in the order they were made
and the blocks are given the same values, however the bytes were cut. Every byte went to one request
or is buffered, what fired got what it asked for, what fell short got all there was when the input had
ended, and the oldest request left is not satisfied. The operations come to an end unless the blocks
ask for ever more. -/
theorem chunks_do_not_matter (c : Continuations σ) (u : σ) (ops : List StreamOp) :
    (∀ ops' t, StreamOp.events false ops' = StreamOp.events false ops →
      (Reads c (start u) t ops' ↔ Reads c (start u) t ops)) ∧
    (∀ t, Reads c (start u) t ops → t.fired.map Fired.request ++ t.stream.pending = t.user.2 ∧
      t.consumed ++ t.stream.inBuf = (ops.map StreamOp.bytes).flatten ∧
      Answered (Ended (ops.flatMap StreamOp.inputs)) t.fired ∧ t.stream.Waiting) ∧
    ∀ budget, Bounded c budget → ∃ t, Reads c (start u) t ops := by
  refine ⟨fun ops' t h => ?_, fun t h => ?_, fun budget hb => reads_exists hb ops (start_quiet u)⟩
  · rw [reads_events ops' (start_quiet u), reads_events ops (start_quiet u)]
    show Reads c (start u) t ((StreamOp.events false ops').map _) ↔ _
    rw [h]
    rfl
  · have hquiet := h.quiet (start_quiet u)
    have hfed := h.fed (start_fed u)
    rw [nil_append] at hfed
    exact ⟨hquiet.ordered, hfed.served.split.trans (StreamOp.inputs_bytes ops), hfed.served.fired, hquiet.waiting⟩

def textOf (lines : List (List UInt8)) (last : List UInt8) : List UInt8 := (lines.map (· ++ [LF])).flatten ++ last

/-- The lines of a text as far as they are known: without a CR at their end, and what follows the last one only at
the end of input. -/
def linesOf (lines : List (List UInt8)) (last : List UInt8) (e : Bool) : List (List UInt8) :=
  lines.map IoStream.stripCr ++ if e ∧ last ≠ [] then [last] else []

section EachLine

variable (hline : req.framing = .line) (heach : c.each req.id = true) (hasks : ∀ u a, (c.value u req a).2 = [])
  {lines : List (List UInt8)} {last : List UInt8}

include hline heach hasks

theorem sweeps_line (hp : r.stream.pending = [req]) (hsat : r.stream.headSatisfiable req = true)
    {l : Option (List UInt8)} {k : Nat} (htake : IoStream.takeLine r.stream.inBuf = (l, k)) :
    ∃ s : Reader (σ × List Request), s.stream.eof = r.stream.eof ∧ s.stream.inBuf = r.stream.inBuf.drop k ∧
      s.stream.pending = (if l = none then [] else [req]) ∧
      s.user.1 = l.elim r.user.1 (fun l => (c.value r.user.1 req (.line (some l))).1) ∧
      s.fired.map Fired.answer = r.fired.map Fired.answer ++ [.line l] ∧ ∀ t, Sweeps c.code s t → Sweeps c.code r t := by
  refine ⟨(r.fireHead c.code req []).1, rfl, ?_, ?_, ?_, ?_, fun t => (sweeps_fire hp hsat).mpr⟩
  · simp [fireHead, IoStream.take, hline, htake]
  · cases l <;> simp [fireHead, IoStream.take, hline, htake, Continuations.code, heach, hasks]
  · cases l <;> simp [fireHead, IoStream.take, hline, htake, Continuations.code, heach]
  · simp [fireHead, IoStream.take, hline, htake]

theorem sweeps_end (hp : r.stream.pending = [req]) (he : r.stream.eof = true) (hb : r.stream.inBuf = []) :
    ∃ t, Sweeps c.code r t ∧ t.user.1 = r.user.1 ∧ t.fired.map Fired.answer = r.fired.map Fired.answer ++ [.line none] := by
  have hsat : r.stream.headSatisfiable req = true := by
    rw [IoStream.headSatisfiable, he]
    rfl
  obtain ⟨s, -, -, hp', huser, hfired, hsweeps⟩ := sweeps_line hline heach hasks hp hsat (l := none) (k := 0) (by
    rw [hb]
    rfl)
  exact ⟨s.atRest, hsweeps _ ((sweeps_nil hp').mpr rfl), huser, hfired⟩

theorem sweeps_lines (hp : r.stream.pending = [req]) (hlines : ∀ l ∈ lines, LF ∉ l) (hlast : LF ∉ last)
    (hbuf : r.stream.inBuf = textOf lines last) : ∃ t, Sweeps c.code r t ∧
      t.user.1 = (linesOf lines last r.stream.eof).foldl (fun v l => (c.value v req (.line (some l))).1) r.user.1 ∧
      t.fired.map Fired.answer = r.fired.map Fired.answer ++
        ((linesOf lines last r.stream.eof).map some ++ if r.stream.eof then [none] else []).map .line := by
  have hsat {s : Reader (σ × List Request)} (h : s.stream.eof = true ∨ LF ∈ s.stream.inBuf) :
      s.stream.headSatisfiable req = true := by
    simpa [IoStream.headSatisfiable, hline] using h
  induction lines generalizing r with
  | nil =>
    have hb : r.stream.inBuf = last := hbuf
    cases he : r.stream.eof with
    | false =>
      refine ⟨r.atRest, (sweeps_waiting fun req' rest hcons => ?_).mpr rfl, by simp [linesOf, atRest], by simp [linesOf, atRest]⟩
      rw [hp] at hcons
      cases hcons
      simpa [IoStream.headSatisfiable, he, hline, hb] using hlast
    | true =>
      by_cases hempty : last = []
      · obtain ⟨t, ht, huser, hfired⟩ := sweeps_end hline heach hasks hp he (hb.trans hempty)
        exact ⟨t, ht, by simp [huser, linesOf, hempty], by simp [hfired, linesOf, hempty]⟩
      · obtain ⟨s, he', hb', hp', huser, hfired, hsweeps⟩ := sweeps_line hline heach hasks hp (hsat (.inl he))
          (l := some last) (k := last.length) (by
            rw [hb, IoStream.takeLine, idxOf?_eq_none_iff.mpr hlast]
            exact if_neg hempty)
        obtain ⟨t, ht, huser', hfired'⟩ := sweeps_end hline heach hasks hp' (he'.trans he) (by rw [hb', hb, drop_length])
        exact ⟨t, hsweeps t ht, by simp [huser', huser, linesOf, hempty], by simp [hfired', hfired, linesOf, hempty]⟩
  | cons l lines ih =>
    obtain ⟨hl, hrest⟩ := forall_mem_cons.mp hlines
    have hbuf' : r.stream.inBuf = l ++ LF :: textOf lines last := by simp [hbuf, textOf]
    have hk : (l ++ LF :: textOf lines last).idxOf? LF = some l.length := by
      refine idxOf?_eq_some_iff.mpr ⟨by simp, by simp, fun j hj heq => ?_⟩
      rw [getElem_append_left hj] at heq
      exact hl (heq ▸ getElem_mem hj)
    obtain ⟨s, he, hb, hp', huser, hfired, hsweeps⟩ := sweeps_line hline heach hasks hp (hsat (.inr (by simp [hbuf'])))
      (l := some (IoStream.stripCr l)) (k := l.length + 1) (by simp [hbuf', IoStream.takeLine, hk])
    obtain ⟨t, ht, huser', hfired'⟩ := ih hp' hrest (by simp [hb, hbuf'])
    exact ⟨t, hsweeps t ht, by simp [huser', huser, he, linesOf], by simp [hfired', hfired, he, linesOf]⟩

/-- However its bytes were cut, `eachLineDo:` hands its block the lines that came in, and at the end of input what
follows the last of them. The nil at the end of input goes to the request inside it, not to the block. -/
theorem eachLine_answers (u : σ) {e : Bool} {ops : List StreamOp} (hlines : ∀ l ∈ lines, LF ∉ l) (hlast : LF ∉ last)
    (hops : StreamOp.events false ops = .ask req :: ((textOf lines last).map .byte ++ if e then [.eof] else [])) :
    ∃ t, Reads c (start u) t ops ∧
      t.user.1 = (linesOf lines last e).foldl (fun v l => (c.value v req (.line (some l))).1) u ∧
      t.fired.map Fired.answer = ((linesOf lines last e).map some ++ if e then [none] else []).map .line := by
  have hwait : ((start u).queued req).stream.Waiting := by
    intro req' rest hcons
    cases hcons
    rw [IoStream.headSatisfiable, hline]
    rfl
  obtain ⟨t, ht, hgiven⟩ := sweeps_lines hline heach hasks
    (r := (((start u).queued req).atRest).grow (textOf lines last) e) rfl hlines hlast rfl
  have hcut : StreamOp.events false [.ask req, .deliver (textOf lines last) e] = StreamOp.events false ops := by
    rw [hops]
    cases e <;> simp [StreamOp.events]
  refine ⟨t, (reads_events ops (start_quiet u)).mpr ?_, hgiven⟩
  rw [show (start u).stream.eof = false from rfl, ← hcut]
  refine (reads_events _ (start_quiet u)).mp ?_
  exact ⟨_, (does_ask (start_quiet u)).mpr ((sweeps_waiting hwait).mpr rfl), t, ht, rfl⟩

end EachLine

end Returning

def exampleBlocks : Continuations Bool where
  value u req _ := if u = false ∧ req.id = 1 then (true, [⟨2, .count 2⟩]) else (u, [])
  each id := id = 0

theorem exampleBlocks_bounded : Bounded exampleBlocks fun u => if u then 0 else 1 := by
  intro u req a
  cases u <;> simp only [exampleBlocks] <;> split <;> simp_all

/-- Three deliveries that part a line from its end, with an empty one, against a single one. -/
theorem chunks_do_not_matter_example : ∃ t, Reads exampleBlocks (start false) t
        [.ask ⟨1, .line⟩, .ask ⟨0, .line⟩, .deliver [97, 13] false, .deliver [10, 98, 99, 100] false, .deliver [] false,
          .deliver [10, 101] true] ∧
      Reads exampleBlocks (start false) t
        [.ask ⟨1, .line⟩, .ask ⟨0, .line⟩, .deliver [97, 13, 10, 98, 99, 100, 10, 101] true] ∧
      t.fired.map Fired.request ++ t.stream.pending = t.user.2 ∧
      t.consumed ++ t.stream.inBuf = [97, 13, 10, 98, 99, 100, 10, 101] := by
  obtain ⟨hcut, hfacts, hends⟩ := chunks_do_not_matter exampleBlocks false
    [.ask ⟨1, .line⟩, .ask ⟨0, .line⟩, .deliver [97, 13, 10, 98, 99, 100, 10, 101] true]
  obtain ⟨t, ht⟩ := hends _ exampleBlocks_bounded
  obtain ⟨horder, hbytes, -, -⟩ := hfacts t ht
  exact ⟨t, (hcut _ t (by decide)).mpr ht, ht, horder, hbytes⟩

/-- A block that keeps what it is given. -/
def keeping : Continuations (List Answer) where
  value u _ a := (u ++ [a], [])
  each id := id = 0

theorem eachLine_answers_example : ∃ t,
    Reads keeping (start []) t [.ask ⟨0, .line⟩, .deliver [97, 13] false, .deliver [10, 98] true] ∧
      t.user.1 = [.line (some [97]), .line (some [98])] ∧
      t.fired.map Fired.answer = [.line (some [97]), .line (some [98]), .line none] := by
  have hops : StreamOp.events false [.ask ⟨0, .line⟩, .deliver [97, 13] false, .deliver [10, 98] true] =
      .ask ⟨0, .line⟩ :: ((textOf [[97, 13]] [98]).map .byte ++ if true then [.eof] else []) := by decide
  exact eachLine_answers (show Request.framing ⟨0, .line⟩ = .line from rfl) rfl (fun _ _ => rfl) []
    (by decide) (by decide) hops

end Reader

end WinArmVm
