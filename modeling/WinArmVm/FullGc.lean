import WinArmVm.Scavenge

namespace WinArmVm

open Option

structure CompactEntry where
  old : Nat
  new : Nat
  sizeWords : Nat
deriving DecidableEq, Repr

/-- The marks that carry state, by their objects' new addresses. -/
abbrev SideMarks := Nat → Option Mark

structure Marking where
  stack : List Nat
  markedBytes : Nat

namespace OldGen

/-- Commits up to `segment` bytes more of the reservation. -/
def grow (o : OldGen) (segment : Nat) : OldGen :=
  { o with committedEnd := min (o.committedEnd + max segment 1) o.bound }

end OldGen

namespace Memory

/-- Marks the word's object and stacks it, unless that has been done. -/
def markPush (m : Memory) (g : Marking) (w : Word) : Option (Word × Memory × Marking) :=
  match w with
  | .mem a => do
    let mark ← m.markAt a
    if mark.gcMark then pure (w, m, g)
    else
      let m := m.setMark a (mark.withGcMark true)
      let sizeWords ← m.instanceSizeWords a
      pure (w, m, ⟨a :: g.stack, g.markedBytes + sizeWords * wordSize⟩)
  | _ => some (w, m, g)

def markObject (m : Memory) (g : Marking) (a : Nat) : Option (Memory × Marking) := do
  let klassField := m.klassOop a
  let (_, m, g) ← m.markPush g klassField
  let k ← m.klassTryFrom klassField
  m.forEachOopField markPush g a k

def markLoop : Nat → Memory → Marking → Option (Memory × Marking)
  | 0, _, _ => none
  | fuel + 1, m, g =>
    match g.stack with
    | [] => some (m, g)
    | a :: stack => do
      let (m, g) ← m.markObject { g with stack := stack } a
      markLoop fuel m g

/-- The linear walk of a space: every marked object gets the next place, and its header forwards
there. A turn that moves no further forward never ends. -/
def forwardingCompute (top : Nat) :
    Nat → Nat → Nat → Memory → SideMarks → Option (List CompactEntry × Nat × Memory × SideMarks)
  | 0, addr, compactionPointer, m, side =>
    if addr < top then none else some ([], compactionPointer, m, side)
  | fuel + 1, addr, compactionPointer, m, side =>
    if addr < top then do
      let sizeWords ← m.instanceSizeWords addr
      let sizeBytes := sizeWords * wordSize
      let mark ← m.markAt addr
      if mark.gcMark then
        let new := compactionPointer
        let side := if mark.hash ≠ 0 ∨ mark.age ≠ 0 ∨ mark.nearDeath = true then
          Function.update side new (some (mark.withGcMark false)) else side
        let (plan, newTop, m, side) ← forwardingCompute top fuel (addr + sizeBytes)
          (compactionPointer + sizeBytes) (m.installForwarding addr new) side
        pure (⟨addr, new, sizeWords % 2 ^ 32⟩ :: plan, newTop, m, side)
      else forwardingCompute top fuel (addr + sizeBytes) compactionPointer m side
    else some ([], compactionPointer, m, side)

def forwardChase (m : Memory) (w : Word) : Word :=
  match w with
  | .mem a =>
    match m a with
    | .mem d => .mem d
    | _ => w
  | _ => w

/-- A visitor's form of `forwardChase`. -/
def chase (m : Memory) (g : Unit) (w : Word) : Option (Word × Memory × Unit) := some (m.forwardChase w, m, g)

/-- The body first: the klass it is read through is only valid until the klass field changes. -/
def rewriteEntry (m : Memory) (e : CompactEntry) : Option Memory := do
  match m.klassOop e.old with
  | .mem k =>
    let klassField := m.klassOop e.old
    let (m, _) ← m.forEachOopField chase () e.old k
    pure (m.setKlassRaw e.old (m.forwardChase klassField))
  | _ => none

def rewriteAll : List CompactEntry → Memory → Option Memory
  | [], m => some m
  | e :: plan, m => do
    let m ← m.rewriteEntry e
    rewriteAll plan m

/-- `ptr::copy` of every entry, in the plan's order. -/
def slideYoung (plan : List CompactEntry) (m : Memory) : Memory :=
  plan.foldl (fun m e => Universe.copyWords m e.old e.new e.sizeWords) m

def restoreMarks (side : SideMarks) : List CompactEntry → Memory → Option Memory
  | [], m => some m
  | e :: plan, m => do
    let k ← m.klass e.new
    let untagged ← m.hasUntaggedContents k
    let base := (side e.new).getD Mark.pristine
    restoreMarks side plan (m.setMark e.new ((base.withTaggedContents (!untagged)).withGcMark false))

end Memory

def NmethodRoots.strong (nm : NmethodRoots) : List Word :=
  if nm.alive then nm.oops else nm.oops ++ [nm.key]

def Roots.strong (r : Roots) : List Word := r.plain ++ r.code ++ r.nmethods.flatMap NmethodRoots.strong

/-- A live nmethod whose key died is flushed, one that is not entered any more is freed once no
frame runs it. -/
def Roots.weakSweep (r : Roots) (m : Memory) : Roots :=
  { r with nmethods := r.nmethods.filter fun nm =>
      if nm.alive then
        match nm.key with
        | .mem a => ((m.markAt a).map Mark.gcMark).getD false
        | _ => false
      else nm.running }

namespace Universe

def markFuel (u : Universe) : Nat :=
  (u.eden.top - u.eden.start) + (u.fromSpace.top - u.fromSpace.start) + (u.old.top - u.old.start) + 1

def mark (r : Roots) (m : Memory) (u : Universe) : Option (Memory × Marking) := do
  let (_, m, g) ← Memory.mapRoots Memory.markPush r.strong m ⟨[], 0⟩
  Memory.markLoop u.markFuel m g

def slideOld (u : Universe) (plan : List CompactEntry) : Universe :=
  plan.foldl (fun u e => u.recordObject e.new (e.sizeWords * wordSize)) (u.clearThrough u.old.top)

def post (u : Universe) : Universe :=
  let cleaned := if u.old.start < u.old.top then
    { u with cards := fun i => if i ≤ u.cardIndex (u.old.top - 1) then false else u.cards i } else u
  (cleaned.recordMultistores u.old.start u.old.top).clearAges

def fullGc (r : Roots) (m : Memory) (u : Universe) : Option (Roots × Memory × Universe) := do
  let (m, _) ← mark r m u
  let r := r.weakSweep m
  let (edenPlan, edenTop, m, side) ←
    Memory.forwardingCompute u.eden.top (u.eden.top - u.eden.start) u.eden.start u.eden.start m fun _ => none
  let (fromPlan, fromTop, m, side) ← Memory.forwardingCompute u.fromSpace.top
    (u.fromSpace.top - u.fromSpace.start) u.fromSpace.start u.fromSpace.start m side
  let (oldPlan, oldTop, m, side) ←
    Memory.forwardingCompute u.old.top (u.old.top - u.old.start) u.old.start u.old.start m side
  let (plain, m, _) ← Memory.mapRoots Memory.chase r.plain m ()
  let m ← Memory.rewriteAll (edenPlan ++ fromPlan ++ oldPlan) m
  let (r, m, _) ← eachCodeRoot Memory.chase { r with plain := plain } m ()
  let m := Memory.slideYoung edenPlan m
  let m := Memory.slideYoung fromPlan m
  let m := Memory.slideYoung oldPlan m
  let u := u.slideOld oldPlan
  let u := { u with
    eden := { u.eden with top := edenTop }
    fromSpace := { u.fromSpace with top := fromTop }
    old := { u.old with top := oldTop } }
  let m ← Memory.restoreMarks side edenPlan m
  let m ← Memory.restoreMarks side fromPlan m
  let m ← Memory.restoreMarks side oldPlan m
  pure (r, m, u.post)

structure Forwarded (u : Universe) (m : Memory) where
  edenPlan : List CompactEntry
  edenTop : Nat
  fromPlan : List CompactEntry
  fromTop : Nat
  oldPlan : List CompactEntry
  oldTop : Nat
  afterEden : Memory × SideMarks
  afterFrom : Memory × SideMarks
  afterOld : Memory × SideMarks
  eden : Memory.forwardingCompute u.eden.top (u.eden.top - u.eden.start) u.eden.start u.eden.start m
    (fun _ => none) = some (edenPlan, edenTop, afterEden)
  survivors : Memory.forwardingCompute u.fromSpace.top (u.fromSpace.top - u.fromSpace.start) u.fromSpace.start
    u.fromSpace.start afterEden.1 afterEden.2 = some (fromPlan, fromTop, afterFrom)
  old : Memory.forwardingCompute u.old.top (u.old.top - u.old.start) u.old.start u.old.start
    afterFrom.1 afterFrom.2 = some (oldPlan, oldTop, afterOld)

/-- The spaces after a collection, up to what `post` does. -/
def Forwarded.spaces {u : Universe} {m : Memory} (f : u.Forwarded m) : Universe :=
  let u := u.slideOld f.oldPlan
  { u with
    eden := { u.eden with top := f.edenTop }
    fromSpace := { u.fromSpace with top := f.fromTop }
    old := { u.old with top := f.oldTop } }

theorem Forwarded.eq {u : Universe} {m : Memory} (f g : u.Forwarded m) : f = g := by
  obtain ⟨_, _, _, _, _, _, _, _, _, he, hs, ho⟩ := f
  obtain ⟨_, _, _, _, _, _, _, _, _, he', hs', ho'⟩ := g
  cases (he.symm.trans he')
  cases (hs.symm.trans hs')
  cases (ho.symm.trans ho')
  rfl

theorem fullGc_cases {r r' : Roots} {m m' : Memory} {u u' : Universe} (h : fullGc r m u = some (r', m', u')) :
    ∃ m₁ g, mark r m u = some (m₁, g) ∧ ∃ f : u.Forwarded m₁, u' = f.spaces.post := by
  unfold fullGc at h
  obtain ⟨⟨m₁, g⟩, hmark, h⟩ := bind_eq_some_iff.mp h
  obtain ⟨⟨edenPlan, edenTop, afterEden⟩, heden, h⟩ := bind_eq_some_iff.mp h
  obtain ⟨⟨fromPlan, fromTop, afterFrom⟩, hfrom, h⟩ := bind_eq_some_iff.mp h
  obtain ⟨⟨oldPlan, oldTop, afterOld⟩, hold, h⟩ := bind_eq_some_iff.mp h
  obtain ⟨_, _, h⟩ := bind_eq_some_iff.mp h
  obtain ⟨_, _, h⟩ := bind_eq_some_iff.mp h
  obtain ⟨_, _, h⟩ := bind_eq_some_iff.mp h
  obtain ⟨_, _, h⟩ := bind_eq_some_iff.mp h
  obtain ⟨_, _, h⟩ := bind_eq_some_iff.mp h
  obtain ⟨_, _, h⟩ := bind_eq_some_iff.mp h
  cases h
  exact ⟨m₁, g, hmark, ⟨edenPlan, edenTop, fromPlan, fromTop, oldPlan, oldTop, afterEden, afterFrom, afterOld,
    heden, hfrom, hold⟩, rfl⟩

variable (u : Universe)

theorem slideOld_eq (plan : List CompactEntry) : ∃ offsets, u.slideOld plan = { u with offsets := offsets } := by
  have hfold (w : Universe) : ∃ offsets, plan.foldl (fun u e => u.recordObject e.new (e.sizeWords * wordSize)) w =
      { w with offsets := offsets } := by
    induction plan generalizing w with
    | nil => exact ⟨_, rfl⟩
    | cons e plan ih =>
      obtain ⟨offsets, h⟩ := ih (w.recordObject e.new (e.sizeWords * wordSize))
      exact ⟨offsets, h⟩
  obtain ⟨offsets, h⟩ := hfold (u.clearThrough u.old.top)
  refine ⟨offsets, h.trans ?_⟩
  unfold clearThrough
  split <;> rfl

variable (start stop : Nat)

theorem recordMultistores_old : (u.recordMultistores start stop).old = u.old := by
  unfold recordMultistores
  split <;> rfl

theorem recordMultistores_offsets : (u.recordMultistores start stop).offsets = u.offsets := by
  unfold recordMultistores
  split <;> rfl

theorem post_old : u.post.old = u.old := by
  unfold post clearAges
  rw [recordMultistores_old]
  split <;> rfl

theorem post_offsets : u.post.offsets = u.offsets := by
  unfold post clearAges
  rw [recordMultistores_offsets]
  split <;> rfl

end Universe

end WinArmVm
