import Mathlib.Data.List.Sort

namespace WinArmVm

inductive Assignment
  | reg (r : UInt8)
  | spill (slot : UInt16)
deriving DecidableEq

structure LiveInterval where
  vreg : Nat
  start : Nat
  end_ : Nat
  isOop : Bool
  isFp : Bool
  crossesSafepoint : Bool
  crossesCall : Bool
  assignment : Option Assignment
  residentReg : Option UInt8
deriving DecidableEq, Inhabited

def NUM_ALLOCATABLE_REGS : Nat := 16

def NUM_FP_ALLOCATABLE_REGS : Nat := 8

structure RegFile where
  active : List Nat
  free : List UInt8

/-- The intervals go by their index; `assigned` stands for their `assignment` fields. -/
structure LinearScan where
  assigned : Nat → Option Assignment
  slotIsOop : List Bool
  gpr : RegFile
  fp : RegFile

namespace LinearScan

variable (ivs : List LiveInterval)

def interval (i : Nat) : LiveInterval := ivs.getD i default

def file (st : LinearScan) (isFp : Bool) : RegFile := if isFp then st.fp else st.gpr

def setFile (st : LinearScan) (isFp : Bool) (f : RegFile) : LinearScan :=
  if isFp then { st with fp := f } else { st with gpr := f }

def assign (st : LinearScan) (i : Nat) (a : Assignment) : LinearScan :=
  { st with assigned := Function.update st.assigned i (some a) }

def spill (st : LinearScan) (i : Nat) : LinearScan :=
  { st.assign i (.spill (UInt16.ofNat st.slotIsOop.length)) with
    slotIsOop := st.slotIsOop ++ [(interval ivs i).isOop] }

def start : LinearScan where
  assigned := fun i => (interval ivs i).assignment
  slotIsOop := []
  gpr := ⟨[], (List.range NUM_ALLOCATABLE_REGS).map UInt8.ofNat⟩
  fp := ⟨[], (List.range NUM_FP_ALLOCATABLE_REGS).map UInt8.ofNat⟩

def spillCrossing : LinearScan :=
  (List.range ivs.length).foldl (fun st i => if (interval ivs i).crossesSafepoint then st.spill ivs i else st) (start ivs)

def release (assigned : Nat → Option Assignment) (start : Nat) (free : List UInt8) (j : Nat) : List UInt8 :=
  if (interval ivs j).end_ < start then
    match assigned j with
    | some (.reg r) => r :: free
    | _ => free
  else free

def expire (assigned : Nat → Option Assignment) (start : Nat) (f : RegFile) : RegFile where
  active := f.active.filter fun j => ¬ (interval ivs j).end_ < start
  free := f.active.foldl (release ivs assigned start) f.free

def furthest (active : List Nat) : Option (Nat × Nat) := active.zipIdx.foldl (fun best e =>
    match best with
    | none => some (e.2, e.1)
    | some b => if (interval ivs b.2).end_ ≤ (interval ivs e.1).end_ then some (e.2, e.1) else some b) none

/-- None is a panic. -/
def step (st : LinearScan) (i : Nat) : Option LinearScan :=
  let iv := interval ivs i
  let f := expire ivs st.assigned iv.start (st.file iv.isFp)
  match f.free with
  | r :: free => some ((st.assign i (.reg r)).setFile iv.isFp ⟨f.active ++ [i], free⟩)
  | [] =>
    match furthest ivs f.active with
    | none => none
    | some (pos, j) =>
      if iv.end_ < (interval ivs j).end_ then
        match st.assigned j with
        | some (.reg r) =>
          some (((st.spill ivs j).assign i (.reg r)).setFile iv.isFp ⟨f.active.eraseIdx pos ++ [i], []⟩)
        | _ => none
      else some ((st.spill ivs i).setFile iv.isFp f)

def order (st : LinearScan) : List Nat := ((List.range ivs.length).filter fun i => (st.assigned i).isNone).insertionSort
    fun i j => (interval ivs i).start ≤ (interval ivs j).start

def out (st : LinearScan) : List LiveInterval :=
  (List.range ivs.length).map fun i => { interval ivs i with assignment := st.assigned i }

end LinearScan

def Assignment.isReg : Assignment → Bool
  | .reg _ => true
  | .spill _ => false

def verifySpillAll (ivs : List LiveInterval) : Bool :=
  ivs.all fun iv => ¬ (iv.crossesSafepoint ∧ iv.assignment.any Assignment.isReg)

def allocate (ivs : List LiveInterval) : Option (List LiveInterval × UInt16 × List Bool) := do
  let crossing := LinearScan.spillCrossing ivs
  let st ← (crossing.order ivs).foldlM (LinearScan.step ivs) crossing
  if verifySpillAll (st.out ivs) then
    some (st.out ivs, UInt16.ofNat st.slotIsOop.length, st.slotIsOop)
  else none

structure Residents where
  resident : Nat → Option UInt8
  taken : List (List (Nat × Nat))
  fpTaken : List (List (Nat × Nat))

namespace Residents

variable (ivs : List LiveInterval)

def regUsed (r : UInt8) : Bool := ivs.any fun iv => !iv.isFp && iv.assignment == some (.reg r)

def pool : List UInt8 := [21, 22, 23, 24, 25, 26, 27] ++
    (((List.range NUM_ALLOCATABLE_REGS).drop 6).map UInt8.ofNat).filter fun r => !regUsed ivs r

def fpPool : List UInt8 := ((List.range 16).drop 8).map UInt8.ofNat

def place (s e : Nat) : List UInt8 → List (List (Nat × Nat)) → Option (UInt8 × List (List (Nat × Nat)))
  | r :: regs, t :: taken =>
    if t.all fun w => e ≤ w.1 ∨ w.2 ≤ s then some (r, (t ++ [(s, e)]) :: taken)
    else (place s e regs taken).map fun p => (p.1, t :: p.2)
  | _, _ => none

def step (st : Residents) (i : Nat) : Residents :=
  let iv := LinearScan.interval ivs i
  if iv.isFp then
    match place iv.start iv.end_ fpPool st.fpTaken with
    | some (r, fpTaken) => { st with resident := Function.update st.resident i (some r), fpTaken := fpTaken }
    | none => st
  else
    match place iv.start iv.end_ (pool ivs) st.taken with
    | some (r, taken) => { st with resident := Function.update st.resident i (some r), taken := taken }
    | none => st

def start : Residents where
  resident := fun i => (LinearScan.interval ivs i).residentReg
  taken := List.replicate (pool ivs).length []
  fpTaken := List.replicate fpPool.length []

def order (acrossCalls : Bool) : List Nat := ((List.range ivs.length).filter fun i =>
      (LinearScan.interval ivs i).assignment.any (fun a => !a.isReg) &&
        (!(LinearScan.interval ivs i).crossesCall || acrossCalls) &&
        decide ((LinearScan.interval ivs i).start < (LinearScan.interval ivs i).end_)).insertionSort
    fun i j => (LinearScan.interval ivs j).end_ - (LinearScan.interval ivs j).start ≤
      (LinearScan.interval ivs i).end_ - (LinearScan.interval ivs i).start

end Residents

/-- `acrossCalls` is the setting that lets residents live across calls. -/
def assignResidents (acrossCalls : Bool) (ivs : List LiveInterval) : List LiveInterval :=
  let st := (Residents.order ivs acrossCalls).foldl (Residents.step ivs) (Residents.start ivs)
  (List.range ivs.length).map fun i => { LinearScan.interval ivs i with residentReg := st.resident i }

namespace LiveInterval

def Overlaps (a b : LiveInterval) : Prop := a.start ≤ b.end_ ∧ b.start ≤ a.end_

def Collides (a b : LiveInterval) : Prop := a.start < b.end_ ∧ b.start < a.end_

end LiveInterval

end WinArmVm
