import Mathlib.Data.List.Basic

namespace WinArmVm

open List

inductive Framing
  | line
  | count (n : Nat)
  | all
deriving DecidableEq

/-- A queued request; `id` stands for its block. -/
structure Request where
  id : Nat
  framing : Framing
deriving DecidableEq

inductive Answer
  | line (l : Option (List UInt8))
  | count (bytes : List UInt8)
  | all (bytes : List UInt8)
deriving DecidableEq

structure IoStream where
  inBuf : List UInt8
  eof : Bool
  pending : List Request
  servicing : Bool
deriving DecidableEq

def LF : UInt8 := 10

def CR : UInt8 := 13

namespace IoStream

def new : IoStream := ⟨[], false, [], false⟩

def headSatisfiable (s : IoStream) (r : Request) : Bool := s.eof ||
    match r.framing with
    | .line => LF ∈ s.inBuf
    | .count n => n ≤ s.inBuf.length
    | .all => false

def stripCr (line : List UInt8) : List UInt8 :=
  if line.getLast? = some CR then line.dropLast else line

def takeLine (buf : List UInt8) : Option (List UInt8) × Nat :=
  match buf.idxOf? LF with
  | none => if buf = [] then (none, 0) else (some buf, buf.length)
  | some k => (some (stripCr (buf.take k)), k + 1)

def take (buf : List UInt8) : Framing → Answer × Nat
  | .line => (.line (takeLine buf).1, (takeLine buf).2)
  | .count n => (.count (buf.take n), min n buf.length)
  | .all => (.all buf, buf.length)

end IoStream

structure UserCode (σ : Type) where
  react : σ → Request → Answer → σ × List Request × Bool

/-- A request that fired: the input consumed before it, and the part it consumed. -/
structure Fired where
  request : Request
  answer : Answer
  before : List UInt8
  taken : List UInt8
deriving DecidableEq

/-- A stream with the user's code around it and the log of what fired, oldest first. -/
structure Reader (σ : Type) where
  stream : IoStream
  user : σ
  fired : List Fired

namespace Reader

variable {σ : Type} (code : UserCode σ)

def consumed (r : Reader σ) : List UInt8 := (r.fired.map Fired.taken).flatten

def fireHead (r : Reader σ) (req : Request) (rest : List Request) : Reader σ × Bool :=
  let a := IoStream.take r.stream.inBuf req.framing
  let u := code.react r.user req a.1
  ({ stream := { r.stream with inBuf := r.stream.inBuf.drop a.2, pending := rest ++ u.2.1 }
     user := u.1
     fired := r.fired ++ [⟨req, a.1, r.consumed, r.stream.inBuf.take a.2⟩] }, u.2.2)

/-- The loop of `service`; a block that raises unwinds it with `servicing` still set. -/
def sweep : Nat → Reader σ → Option (Reader σ)
  | 0, _ => none
  | fuel + 1, r =>
    match r.stream.pending with
    | [] => some { r with stream := { r.stream with servicing := false } }
    | req :: rest =>
      if r.stream.headSatisfiable req then
        if (r.fireHead code req rest).2 then some (r.fireHead code req rest).1
        else sweep fuel (r.fireHead code req rest).1
      else some { r with stream := { r.stream with servicing := false } }

def service (fuel : Nat) (r : Reader σ) : Option (Reader σ) :=
  if r.stream.servicing then some r
  else sweep code fuel { r with stream := { r.stream with servicing := true } }

def deliverData (fuel : Nat) (bytes : List UInt8) (e : Bool) (r : Reader σ) : Option (Reader σ) :=
  service code fuel { r with stream :=
    { r.stream with servicing := false, inBuf := r.stream.inBuf ++ bytes, eof := r.stream.eof || e } }

/-- `nextLineDo:`, `nextCount:do:` and `upToEndDo:`. -/
def enqueue (fuel : Nat) (req : Request) (r : Reader σ) : Option (Reader σ) :=
  service code fuel { r with stream := { r.stream with pending := r.stream.pending ++ [req] } }

end Reader

/-- It got what its framing asks for: a line, or less than one that is not empty, or nil; no more than it counted; all. -/
def Fired.Answers (f : Fired) : Prop :=
  match f.request.framing, f.answer with
  | .line, .line none => f.taken = []
  | .line, .line (some l) => f.taken = l ∧ l ≠ [] ∧ LF ∉ l ∨ (∃ raw, f.taken = raw ++ [LF] ∧ LF ∉ raw ∧ l = IoStream.stripCr raw)
  | .count n, .count bytes => f.taken = bytes ∧ bytes.length ≤ n
  | .all, .all bytes => f.taken = bytes
  | _, _ => False

def Fired.Short (f : Fired) : Prop :=
  match f.request.framing with
  | .line => LF ∉ f.taken
  | .count n => f.taken.length < n
  | .all => True

/-- Each request that fired got what it asked for of what the ones before it had left, and one that fell short the
rest of the `whole` input. -/
def Answered (whole : List UInt8 → Prop) (fired : List Fired) : Prop := ∀ pre f post, fired = pre ++ f :: post →
    f.Answers ∧ f.before = (pre.map Fired.taken).flatten ∧ (f.Short → whole (f.before ++ f.taken))

/-- All that had come in by a time at which the end of input had been told. -/
def Ended (inputs : List (List UInt8 × Bool)) (bytes : List UInt8) : Prop :=
  ∃ pre, pre <+: inputs ∧ (∃ c ∈ pre, c.2 = true) ∧ bytes = (pre.map Prod.fst).flatten

theorem append_concat_split {α : Type} {xs pre post : List α} {x y : α} (h : xs ++ [x] = pre ++ y :: post) :
    (pre = xs ∧ y = x ∧ post = []) ∨ ∃ post', xs = pre ++ y :: post' := by
  rcases eq_nil_or_concat post with rfl | ⟨post', z, rfl⟩
  · left
    obtain ⟨hpre, hy⟩ := append_inj' h rfl
    exact ⟨hpre.symm, by simpa using hy.symm, rfl⟩
  · right
    rw [concat_eq_append, ← cons_append, ← append_assoc] at h
    exact ⟨post', (append_inj' h rfl).1⟩

namespace Answered

variable {whole whole' : List UInt8 → Prop} {fired : List Fired} {f : Fired}

theorem mono (h : Answered whole fired) (hle : ∀ bs, whole bs → whole' bs) : Answered whole' fired := by
  intro pre f post heq
  obtain ⟨hanswers, hbefore, hshort⟩ := h pre f post heq
  exact ⟨hanswers, hbefore, fun hs => hle _ (hshort hs)⟩

theorem concat (h : Answered whole fired) (hanswers : f.Answers) (hbefore : f.before = (fired.map Fired.taken).flatten)
    (hshort : f.Short → whole (f.before ++ f.taken)) : Answered whole (fired ++ [f]) := by
  intro pre g post heq
  rcases append_concat_split heq with ⟨rfl, rfl, rfl⟩ | ⟨post', hpost⟩
  · exact ⟨hanswers, hbefore, hshort⟩
  · exact h pre g post' hpost

end Answered

theorem Ended.mono {inputs : List (List UInt8 × Bool)} {bytes : List UInt8} (h : Ended inputs bytes)
    (more : List (List UInt8 × Bool)) :
    Ended (inputs ++ more) bytes := by
  obtain ⟨pre, hpre, htold, rfl⟩ := h
  exact ⟨pre, hpre.trans (prefix_append _ _), htold, rfl⟩

namespace IoStream

variable {buf : List UInt8}

theorem idxOf?_split {k : Nat} (h : buf.idxOf? LF = some k) :
    buf.take (k + 1) = buf.take k ++ [LF] ∧ LF ∉ buf.take k := by
  induction buf generalizing k with
  | nil => cases h
  | cons b bs ih =>
    rw [idxOf?_cons] at h
    by_cases hb : b = LF
    · subst hb
      rw [if_pos (by simp)] at h
      cases h
      simp
    · rw [if_neg (by simpa using hb)] at h
      obtain ⟨j, hj, rfl⟩ := Option.map_eq_some_iff.mp h
      obtain ⟨htake, hnot⟩ := ih hj
      refine ⟨by rw [take_succ_cons, htake]; rfl, ?_⟩
      rw [take_succ_cons, mem_cons, not_or]
      exact ⟨Ne.symm hb, hnot⟩

theorem idxOf?_none (h : buf.idxOf? LF = none) : LF ∉ buf := by
  rwa [idxOf?_eq_none_iff] at h

theorem idxOf?_length {k : Nat} (h : buf.idxOf? LF = some k) : k < buf.length := by
  have hlen := congrArg List.length (idxOf?_split h).1
  simp only [length_take, length_append, length_singleton] at hlen
  omega

theorem take_answers (id : Nat) (buf before : List UInt8) (f : Framing) :
    Fired.Answers ⟨⟨id, f⟩, (take buf f).1, before, buf.take (take buf f).2⟩ := by
  cases f with
  | line =>
    unfold take takeLine
    cases hk : buf.idxOf? LF with
    | none =>
      by_cases hb : buf = []
      · simp [hb, Fired.Answers]
      · simp only [if_neg hb, Fired.Answers, take_length]
        exact .inl ⟨trivial, hb, idxOf?_none hk⟩
    | some k =>
      have hsplit := idxOf?_split hk
      exact .inr ⟨buf.take k, hsplit.1, hsplit.2, rfl⟩
  | count n =>
    refine ⟨?_, by rw [length_take]; omega⟩
    show buf.take (min n buf.length) = buf.take n
    rcases Nat.le_total n buf.length with hle | hle
    · rw [Nat.min_eq_left hle]
    · rw [Nat.min_eq_right hle, take_length, take_of_length_le hle]
  | all => exact take_length

theorem take_short {id : Nat} {buf before : List UInt8} {f : Framing}
    (h : Fired.Short ⟨⟨id, f⟩, (take buf f).1, before, buf.take (take buf f).2⟩) :
    buf.take (take buf f).2 = buf := by
  cases f with
  | line =>
    unfold take takeLine at *
    cases hk : buf.idxOf? LF with
    | none =>
      by_cases hb : buf = []
      · simp [hb]
      · simp [hb]
    | some k =>
      rw [hk] at h
      have hsplit := (idxOf?_split hk).1
      exact absurd (by show LF ∈ buf.take (k + 1); rw [hsplit]; simp) h
  | count n =>
    have hlen : (buf.take (min n buf.length)).length < n := h
    rw [length_take] at hlen
    show buf.take (min n buf.length) = buf
    rw [Nat.min_eq_right (by omega), take_length]
  | all => exact take_length

theorem not_short {s : IoStream} {r : Request} {before : List UInt8} (he : s.eof = false)
    (h : s.headSatisfiable r = true) :
    ¬ Fired.Short ⟨r, (take s.inBuf r.framing).1, before, s.inBuf.take (take s.inBuf r.framing).2⟩ := by
  obtain ⟨id, f⟩ := r
  simp only [headSatisfiable, he, Bool.false_or] at h
  intro hs
  have hall := take_short hs
  cases f with
  | line =>
    have hmem : LF ∈ s.inBuf := of_decide_eq_true h
    exact hs (by rw [hall]; exact hmem)
  | count n =>
    have hlen : n ≤ s.inBuf.length := of_decide_eq_true h
    have hlt : (s.inBuf.take (take s.inBuf (.count n)).2).length < n := hs
    rw [hall] at hlt
    omega
  | all => cases h

theorem fired_answered {s : IoStream} {r : Request} {fired : List Fired} {whole : List UInt8 → Prop}
    (h : Answered whole fired) (hsat : s.headSatisfiable r = true)
    (hwhole : s.eof = true → whole ((fired.map Fired.taken).flatten ++ s.inBuf)) :
    Answered whole (fired ++ [⟨r, (take s.inBuf r.framing).1, (fired.map Fired.taken).flatten,
      s.inBuf.take (take s.inBuf r.framing).2⟩]) := by
  refine h.concat (take_answers ..) rfl fun hshort => ?_
  cases he : s.eof with
  | false => exact absurd hshort (not_short he hsat)
  | true =>
    rw [take_short hshort]
    exact hwhole he

end IoStream

namespace Reader

variable {σ : Type} {code : UserCode σ} {r t : Reader σ} {arrived : List UInt8} {whole whole' : List UInt8 → Prop}

/-- The bytes that arrived were handed on in order to the requests, or are buffered. -/
structure Served (whole : List UInt8 → Prop) (r : Reader σ) (arrived : List UInt8) : Prop where
  split : r.consumed ++ r.stream.inBuf = arrived
  fired : Answered whole r.fired

theorem Served.mono (h : Served whole r arrived) (hle : ∀ bs, whole bs → whole' bs) : Served whole' r arrived :=
  ⟨h.split, h.fired.mono hle⟩

theorem Served.of_stream (h : Served whole r arrived) {s : IoStream} (hs : s.inBuf = r.stream.inBuf) :
    Served whole { r with stream := s } arrived :=
  ⟨by rw [← h.split, ← hs]; rfl, h.fired⟩

theorem fireHead_served (h : Served whole r arrived) (he : r.stream.eof = true → whole arrived) {req : Request}
    (hsat : r.stream.headSatisfiable req = true) (rest : List Request) :
    Served whole (r.fireHead code req rest).1 arrived := by
  constructor
  · show (((r.fired ++ [_]).map Fired.taken).flatten) ++ r.stream.inBuf.drop _ = arrived
    rw [map_append, flatten_append, append_assoc, ← h.split]
    simp [consumed]
  · refine IoStream.fired_answered h.fired hsat fun heof => ?_
    show whole (r.consumed ++ r.stream.inBuf)
    rw [h.split]
    exact he heof

theorem sweep_served : ∀ (fuel : Nat) {r : Reader σ}, Served whole r arrived →
    (r.stream.eof = true → whole arrived) → sweep code fuel r = some t →
    Served whole t arrived ∧ t.stream.eof = r.stream.eof := by
  intro fuel
  induction fuel with
  | zero => intro r _ _ hrun; cases hrun
  | succ fuel ih =>
    intro r h he hrun
    unfold sweep at hrun
    cases hp : r.stream.pending with
    | nil =>
      rw [hp] at hrun
      cases hrun
      exact ⟨h.of_stream rfl, rfl⟩
    | cons req rest =>
      rw [hp] at hrun
      by_cases hsat : r.stream.headSatisfiable req = true
      · simp only [hsat, ↓reduceIte] at hrun
        have hfire := @fireHead_served _ code _ _ _ h he _ hsat rest
        split at hrun
        next =>
          cases hrun
          exact ⟨hfire, rfl⟩
        next =>
          obtain ⟨hserved, heof⟩ := ih hfire he hrun
          exact ⟨hserved, heof⟩
      · simp only [hsat] at hrun
        cases hrun
        exact ⟨h.of_stream rfl, rfl⟩

variable {fuel : Nat}

theorem service_served (h : Served whole r arrived) (he : r.stream.eof = true → whole arrived)
    (hrun : service code fuel r = some t) : Served whole t arrived ∧ t.stream.eof = r.stream.eof := by
  unfold service at hrun
  split at hrun
  next =>
    cases hrun
    exact ⟨h, rfl⟩
  next =>
    have h' := h.of_stream (s := { r.stream with servicing := true }) rfl
    exact sweep_served (r := { r with stream := { r.stream with servicing := true } }) fuel h' he hrun

theorem enqueue_served {req : Request} (h : Served whole r arrived)
    (he : r.stream.eof = true → whole arrived) (hrun : enqueue code fuel req r = some t) :
    Served whole t arrived ∧ t.stream.eof = r.stream.eof :=
  service_served (r := { r with stream := { r.stream with pending := r.stream.pending ++ [req] } })
    (h.of_stream rfl) he hrun

theorem deliverData_served {bytes : List UInt8} {e : Bool} (h : Served whole r arrived)
    (he : (r.stream.eof || e) = true → whole (arrived ++ bytes)) (hrun : deliverData code fuel bytes e r = some t) :
    Served whole t (arrived ++ bytes) ∧ t.stream.eof = (r.stream.eof || e) := by
  have hsplit : r.consumed ++ (r.stream.inBuf ++ bytes) = arrived ++ bytes := by
    rw [← append_assoc, h.split]
  have h' : Served whole { r with stream :=
      { r.stream with servicing := false, inBuf := r.stream.inBuf ++ bytes, eof := r.stream.eof || e } }
      (arrived ++ bytes) := ⟨hsplit, h.fired⟩
  exact service_served h' he hrun

/-- What came in, in batches with their `eof`, was handed on, and the end of input is one that was told. -/
structure Fed (inputs : List (List UInt8 × Bool)) (r : Reader σ) : Prop where
  served : Served (Ended inputs) r (inputs.map Prod.fst).flatten
  told : r.stream.eof = true → ∃ c ∈ inputs, c.2 = true

theorem Fed.ended {inputs : List (List UInt8 × Bool)} (h : Fed inputs r) (he : r.stream.eof = true) :
    Ended inputs (inputs.map Prod.fst).flatten := ⟨inputs, List.prefix_rfl, h.told he, rfl⟩

theorem Fed.enqueue {inputs : List (List UInt8 × Bool)} {req : Request} (h : Fed inputs r)
    (hrun : enqueue code fuel req r = some t) : Fed inputs t := by
  obtain ⟨hserved, heof⟩ := enqueue_served h.served h.ended hrun
  exact ⟨hserved, fun he => h.told (heof ▸ he)⟩

theorem Fed.deliverData {inputs : List (List UInt8 × Bool)} {bytes : List UInt8} {e : Bool} (h : Fed inputs r)
    (hrun : deliverData code fuel bytes e r = some t) : Fed (inputs ++ [(bytes, e)]) t := by
  have htold : (r.stream.eof || e) = true → ∃ c ∈ inputs ++ [(bytes, e)], c.2 = true := by
    intro he
    rcases Bool.or_eq_true_iff.mp he with he | he
    · obtain ⟨c, hc, hctrue⟩ := h.told he
      exact ⟨c, mem_append_left _ hc, hctrue⟩
    · exact ⟨(bytes, e), mem_append_right _ (mem_singleton_self _), he⟩
  have harrived : ((inputs ++ [(bytes, e)]).map Prod.fst).flatten = (inputs.map Prod.fst).flatten ++ bytes := by
    simp
  have hserved := h.served.mono fun _ hbs => Ended.mono hbs [(bytes, e)]
  obtain ⟨hserved', heof⟩ := deliverData_served hserved (fun he => ⟨_, prefix_rfl, htold he, harrived.symm⟩) hrun
  exact ⟨by rw [harrived]; exact hserved', fun he => htold (heof ▸ he)⟩

end Reader

end WinArmVm
