import WinArmVm.BuilderAgreement

namespace WinArmVm

open List Bytecode Option

/-- How a block ends and where control goes next; blocks go by their index. -/
inductive Terminator
  | fallthrough (next : Nat)
  | jump (target : Nat) (isBackward : Bool)
  | branch (ifTrue ifFalse : Nat)
  | return
deriving DecidableEq, Repr

structure BasicBlock where
  bciStart : Nat
  bciEnd : Nat
  isLoopHeader : Bool
  terminator : Terminator
deriving DecidableEq, Repr

structure Cfg where
  blocks : List BasicBlock
deriving DecidableEq, Repr

namespace Cfg

/-- The leaders an instruction makes; `next` is the place of the one behind it. -/
def leadersOf (next : Nat) : Instr → List Nat
  | .jumpFwd d => [next + d, next]
  | .jumpBack d => [next - d, next]
  | .brTrueFwd d => [next + d, next]
  | .brFalseFwd d => [next + d, next]
  | .returnTos | .returnSelf | .blockReturnTos | .nlrTos => [next]
  | _ => []

def findLeaders (code : List UInt8) : Option (List Nat) :=
  (decodeAll code).map fun walk => 0 :: walk.flatMap fun r => leadersOf r.2.2 r.2.1

def lastInstr (code : List UInt8) (stop : Nat) : Nat → Nat → Option (Instr × Nat) → Option (Option (Instr × Nat))
  | 0, _, _ => none
  | turns + 1, bci, last =>
    if bci < stop then (decodeAt code bci).bind fun r => lastInstr code stop turns r.2 (some r)
    else some last

/-- None is a panic: the target is no leader. -/
def indexOf (starts : List Nat) (bci : Nat) : Option Nat := starts.findIdx? (· == bci)

def terminatorOf (starts : List Nat) (i : Nat) : Option (Instr × Nat) → Option Terminator
  | none => some (.fallthrough (i + 1))
  | some (.jumpFwd d, next) => do
    let target ← indexOf starts (next + d)
    some (.jump target false)
  | some (.jumpBack d, next) => do
    let target ← indexOf starts (next - d)
    some (.jump target true)
  | some (.brTrueFwd d, next) => do
    let ifTrue ← indexOf starts (next + d)
    let ifFalse ← indexOf starts next
    some (.branch ifTrue ifFalse)
  | some (.brFalseFwd d, next) => do
    let ifTrue ← indexOf starts next
    let ifFalse ← indexOf starts (next + d)
    some (.branch ifTrue ifFalse)
  | some (.returnTos, _) | some (.returnSelf, _) | some (.blockReturnTos, _) | some (.nlrTos, _) => some .return
  | some (_, _) => some (.fallthrough (i + 1))

def blockAt (code : List UInt8) (starts : List Nat) (start i : Nat) : Option BasicBlock := do
  let stop := starts.getD (i + 1) code.length
  let last ← lastInstr code stop (code.length + 1) start none
  let terminator ← terminatorOf starts i last
  some ⟨start, stop, false, terminator⟩

def startsOf (len : Nat) (leaders : List Nat) : List Nat := (List.range len).filter leaders.contains

def loopHeaders (blocks : List BasicBlock) : List Nat := blocks.filterMap fun b =>
    match b.terminator with
    | .jump target true => some target
    | _ => none

def decode (code : List UInt8) : Option Cfg := do
  let leaders ← findLeaders code
  let starts := startsOf code.length leaders
  let blocks ← starts.zipIdx.mapM fun p => blockAt code starts p.1 p.2
  some ⟨blocks.zipIdx.map fun p => { p.1 with isLoopHeader := (loopHeaders blocks).contains p.2 }⟩

end Cfg

/-- Where the interpreter goes on in the method after an instruction, `next` being the place behind it; `tos` is what a
branch finds on the stack. A branch that finds no boolean sends `mustBeBoolean` and is then taken again. -/
def Instr.flow (next : Nat) (tos : Bool) : Instr → Option Nat
  | .jumpFwd d => some (next + d)
  | .jumpBack d => some (next - d)
  | .brTrueFwd d => some (if tos then next + d else next)
  | .brFalseFwd d => some (if tos then next else next + d)
  | .returnTos | .returnSelf | .blockReturnTos | .nlrTos => none
  | _ => some next

/-- Jumps, branches and returns. -/
def Instr.endsBlock : Instr → Bool
  | .jumpFwd _ | .jumpBack _ | .brTrueFwd _ | .brFalseFwd _ => true
  | .returnTos | .returnSelf | .blockReturnTos | .nlrTos => true
  | _ => false

/-- The block control goes on in, on `tos` where the block ends with a branch. -/
def Terminator.goes (tos : Bool) : Terminator → Option Nat
  | .fallthrough next => some next
  | .jump target _ => some target
  | .branch ifTrue ifFalse => some (if tos then ifTrue else ifFalse)
  | .return => none

namespace Cfg

def Threaded (code : List UInt8) : Nat → List (Nat × Instr × Nat) → Nat → Prop
  | p, [], q => p = q
  | p, r :: rs, q => r.1 = p ∧ p < r.2.2 ∧ decodeAt code p = some r.2 ∧ Threaded code r.2.2 rs q

namespace Threaded

variable {code : List UInt8} {p q e : Nat} {walk rest : List (Nat × Instr × Nat)}

theorem le (h : Threaded code p walk q) : p ≤ q := by
  induction walk generalizing p with
  | nil => exact Nat.le_of_eq h
  | cons r rs ih =>
    have := ih h.2.2.2
    have := h.2.1
    omega

theorem bounds (h : Threaded code p walk q) : ∀ r ∈ walk, p ≤ r.1 ∧ r.1 < r.2.2 ∧ r.2.2 ≤ q := by
  induction walk generalizing p with
  | nil => exact fun r hr => nomatch hr
  | cons r rs ih =>
    intro r' hr'
    obtain ⟨hpos, hlt, -, htail⟩ := h
    obtain rfl | hr' := mem_cons.mp hr'
    · exact ⟨Nat.le_of_eq hpos.symm, by rw [hpos]; exact hlt, htail.le⟩
    · obtain ⟨hle, hlt', hstop⟩ := ih htail r' hr'
      exact ⟨by omega, hlt', hstop⟩

theorem disjoint (h : Threaded code p walk q) : ∀ r ∈ walk, ∀ r' ∈ walk, r = r' ∨ r.2.2 ≤ r'.1 ∨ r'.2.2 ≤ r.1 := by
  induction walk generalizing p with
  | nil => exact fun r hr => nomatch hr
  | cons x xs ih =>
    intro r hr r' hr'
    have htail := h.2.2.2
    obtain rfl | hin := mem_cons.mp hr
    · obtain rfl | hin' := mem_cons.mp hr'
      · exact .inl rfl
      · exact .inr (.inl (htail.bounds r' hin').1)
    · obtain rfl | hin' := mem_cons.mp hr'
      · exact .inr (.inr (htail.bounds r hin).1)
      · exact ih htail r hin r' hin'

theorem append (h : Threaded code p (walk ++ rest) q) : ∃ e, Threaded code p walk e ∧ Threaded code e rest q := by
  induction walk generalizing p with
  | nil => exact ⟨p, rfl, h⟩
  | cons r rs ih =>
    obtain ⟨hpos, hlt, hdec, htail⟩ := h
    obtain ⟨e, hfront, hback⟩ := ih htail
    exact ⟨e, ⟨hpos, hlt, hdec, hfront⟩, hback⟩

theorem split (h : Threaded code p walk q) {r : Nat × Instr × Nat} (hr : r ∈ walk) :
    ∃ front back, walk = front ++ back ∧ Threaded code p front r.1 ∧ Threaded code r.1 back q := by
  obtain ⟨front, back, rfl⟩ := append_of_mem hr
  obtain ⟨e, hfront, hback⟩ := h.append
  have he : r.1 = e := hback.1
  exact ⟨front, r :: back, rfl, by rw [he]; exact hfront, by rw [he]; exact hback⟩

theorem follows (h : Threaded code p walk q) : ∀ r ∈ walk, r.2.2 = q ∨ ∃ r' ∈ walk, r'.1 = r.2.2 := by
  intro r hr
  obtain ⟨front, back, rfl⟩ := append_of_mem hr
  obtain ⟨e, -, hback⟩ := h.append
  obtain ⟨-, -, -, htail⟩ := hback
  cases back with
  | nil => exact .inl htail
  | cons r' rs => exact .inr ⟨r', mem_append_right _ (mem_cons_of_mem _ mem_cons_self), htail.1⟩

theorem length_le (h : Threaded code p walk q) : p + walk.length ≤ q := by
  induction walk generalizing p with
  | nil => exact Nat.le_of_eq h
  | cons r rs ih =>
    have := ih h.2.2.2
    have := h.2.1
    rw [length_cons]
    omega

end Threaded

variable {walk : List (Nat × Instr × Nat)} {r : Instr × Nat}

theorem decode_width {bytes : List UInt8} (h : Bytecode.decode bytes = some r) : 0 < r.2 ∧ r.2 ≤ bytes.length := by
  cases bytes with
  | nil => cases h
  | cons b bs =>
    obtain ⟨op, -, hop⟩ := bind_eq_some_iff.mp h
    unfold decodeOp at hop
    split at hop
    all_goals
      cases hop
    all_goals
      simp only [length_cons]
      omega

variable {code : List UInt8}

theorem decodeAt_bounds {bci : Nat} (h : decodeAt code bci = some r) : bci < r.2 ∧ r.2 ≤ code.length := by
  obtain ⟨found, hfound, rfl⟩ := map_eq_some_iff.mp h
  obtain ⟨hpos, hle⟩ := decode_width hfound
  rw [length_drop] at hle
  omega

theorem decodeFrom_threaded {turns bci : Nat} (hle : bci ≤ code.length)
    (h : decodeFrom code turns bci = some walk) : Threaded code bci walk code.length := by
  induction turns generalizing bci walk with
  | zero => cases h
  | succ turns ih =>
    unfold decodeFrom at h
    split at h
    next hend =>
      cases h
      exact Nat.le_antisymm hle hend
    next =>
      obtain ⟨r, hr, h⟩ := bind_eq_some_iff.mp h
      obtain ⟨rest, hrest, h⟩ := bind_eq_some_iff.mp h
      cases h
      obtain ⟨hlt, hstop⟩ := decodeAt_bounds hr
      exact ⟨rfl, hlt, hr, ih hstop hrest⟩

theorem lastInstr_threaded {p stop turns : Nat}
    {last : Option (Instr × Nat)} (h : Threaded code p walk stop) (hturns : walk.length < turns) :
    lastInstr code stop turns p last = some ((walk.getLast?.map Prod.snd).or last) := by
  induction walk generalizing p turns last with
  | nil =>
    obtain ⟨turns, rfl⟩ := Nat.exists_eq_succ_of_ne_zero (Nat.ne_of_gt hturns)
    cases h
    rw [lastInstr, if_neg (Nat.lt_irrefl _)]
    rfl
  | cons r rs ih =>
    obtain ⟨turns, rfl⟩ := Nat.exists_eq_succ_of_ne_zero (Nat.ne_of_gt (Nat.lt_of_le_of_lt (Nat.zero_le _) hturns))
    rw [length_cons] at hturns
    obtain ⟨hpos, hlt, hdec, htail⟩ := h
    have hbefore : p < stop := Nat.lt_of_lt_of_le hlt htail.le
    rw [lastInstr, if_pos hbefore, hdec, bind_some, ih htail (Nat.lt_of_succ_lt_succ hturns)]
    cases rs with
    | nil => rfl
    | cons r' rs =>
      rw [getLast?_cons_cons, getLast?_eq_some_getLast (cons_ne_nil r' rs)]
      rfl

end Cfg

end WinArmVm
