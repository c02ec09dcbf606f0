import WinArmVm.Universe

namespace WinArmVm

namespace Universe

def clearAges (u : Universe) : Universe := { u with bytesAtAge := fun _ => 0 }

def recordAge (u : Universe) (age bytes : Nat) : Universe :=
  { u with bytesAtAge := Function.update u.bytesAtAge age (u.bytesAtAge age + bytes) }

def computeThreshold (u : Universe) (survivorCapacity : Nat) : Nat := ((List.range 128).find? fun age =>
    survivorCapacity / 2 < ((List.range (age + 1)).map u.bytesAtAge).sum).getD 127

def effectiveKlass (m : Memory) (candidate : Word) : Option Nat :=
  match candidate with
  | .mem k =>
    match m k with
    | .mem d => m.klassTryFrom (.mem d)
    | _ => m.klassTryFrom candidate
  | _ => none

def objectSizeForCopy (m : Memory) (a : Nat) : Option Nat := do
  let k ← effectiveKlass m (m.klassOop a)
  m.sizeWordsForKlass a k

/-- `size` words from `src` to `dst`, which do not overlap. -/
def copyWords (m : Memory) (src dst size : Nat) : Memory := fun x =>
  if dst ≤ x ∧ x < dst + size * wordSize then m (src + (x - dst)) else m x

/-- Where the copy goes, and whether that is the old generation: by age, or when
to-space is full. `none` is an old generation without room. -/
def copyTarget (u : Universe) (agePromote : Bool) (sizeBytes : Nat) : Option (Nat × Bool × Universe) :=
  if agePromote || u.toSpace.stop < u.toSpace.top + sizeBytes then
    (u.oldAllocate sizeBytes).map fun r => (r.1, true, r.2)
  else
    some (u.toSpace.top, false, { u with toSpace := { u.toSpace with top := u.toSpace.top + sizeBytes } })

/-- Copies the object at `addr` unless it is old or already copied, and returns
where it is. An address in to-space has been visited twice, and panics. -/
def scavengeOop (m : Memory) (u : Universe) (w : Word) : Option (Word × Memory × Universe) :=
  match w with
  | .mem addr =>
    if u.isOld addr then some (w, m, u)
    else if u.toSpace.start ≤ addr ∧ addr < u.toSpace.top then none
    else
      match m addr with
      | .mem d => some (.mem d, m, u)
      | _ => do
        let sizeWords ← objectSizeForCopy m addr
        let sizeBytes := sizeWords * wordSize
        let mark ← m.markAt addr
        let agePromote : Bool := u.tenuringThreshold ≤ mark.age + 1
        match u.copyTarget agePromote sizeBytes with
        | none => pure (w, m, { u with pendingStall := true })
        | some (dest, promoted, u) =>
          let m := copyWords m addr dest sizeWords
          if promoted then
            pure (.mem dest, m.installForwarding addr dest, u.recordMultistores dest (dest + sizeBytes))
          else
            let newAge := min (mark.age + 1) Mark.ageMax
            pure (.mem dest, (m.setMark dest (mark.withAge newAge)).installForwarding addr dest,
              u.recordAge newAge sizeBytes)
  | _ => some (w, m, u)

/-- One slot at address `x`, if it lies in the window; whether any touched slot
holds a new oop afterwards. -/
def touch (windowStart windowEnd : Nat) (m : Memory) (u : Universe) (stillNew : Bool) (x : Nat) :
    Option (Bool × Memory × Universe) :=
  if x < windowStart ∨ windowEnd ≤ x then some (stillNew, m, u)
  else do
    let (w, m, u) ← scavengeOop m u (m x)
    pure (stillNew || u.isNewOop w, m.write x w, u)

def touchAll (windowStart windowEnd : Nat) : List Nat → Bool → Memory → Universe → Option (Bool × Memory × Universe)
  | [], stillNew, m, u => some (stillNew, m, u)
  | x :: rest, stillNew, m, u => do
    let (stillNew, m, u) ← touch windowStart windowEnd m u stillNew x
    touchAll windowStart windowEnd rest stillNew m u

def indexableLen (m : Memory) (a : Nat) : Option Nat := do
  let k ← m.klass a
  let nis ← m.nonIndexableSize k
  match ← m.format k with
  | .indexableOops | .indexableBytes | .method | .closure | .context => m.rawSizeSlot a nis
  | _ => none

def tailStartWord (m : Memory) (a : Nat) : Option Nat := do
  let k ← m.klass a
  let nis ← m.nonIndexableSize k
  pure (nis - headerWords + 1)

/-- The oop-bearing slots of one object inside the window, the klass field
included; of a tail only the elements in the window are visited. -/
def scanSlotsInWindow (m : Memory) (u : Universe) (a k windowStart windowEnd : Nat) :
    Option (Bool × Memory × Universe) := do
  let nis ← m.nonIndexableSize k
  let named := (List.range (nis - headerWords)).map (Memory.bodyAddr a)
  let (stillNew, m, u) ← touch windowStart windowEnd m u false (a + 8)
  match ← m.format k with
  | .slots | .klass => touchAll windowStart windowEnd named stillNew m u
  | .double | .process => pure (stillNew, m, u)
  | .indexableOops | .closure | .context =>
    let (stillNew, m, u) ← touchAll windowStart windowEnd named stillNew m u
    let len ← indexableLen m a
    if 0 < len then
      let tail0 ← tailStartWord m a
      let tailBase := Memory.bodyAddr a tail0
      let lo := (windowStart - tailBase + 7) / 8
      let hi := min ((windowEnd - tailBase + 7) / 8) len
      touchAll windowStart windowEnd
        ((List.range' lo (hi - lo)).map fun i => Memory.bodyAddr a (tail0 + i)) stillNew m u
    else pure (stillNew, m, u)
  | .indexableBytes | .method => touchAll windowStart windowEnd named stillNew m u

/-- The objects from `addr` on that reach into the card; a turn that moves no
further forward never ends. -/
def scanCard (cardStart cardEnd oldTopBefore : Nat) :
    Nat → Nat → Bool → Memory → Universe → Option (Bool × Memory × Universe)
  | 0, addr, stillNew, m, u =>
    if addr < cardEnd ∧ addr < oldTopBefore then none else some (stillNew, m, u)
  | fuel + 1, addr, stillNew, m, u =>
    if addr < cardEnd ∧ addr < oldTopBefore then do
      let k ← m.klass addr
      let sizeWords ← m.sizeWordsForKlass addr k
      let objEnd := addr + sizeWords * wordSize
      if cardStart < objEnd then
        let (still, m, u) ← scanSlotsInWindow m u addr k cardStart cardEnd
        scanCard cardStart cardEnd oldTopBefore fuel objEnd (stillNew || still) m u
      else scanCard cardStart cardEnd oldTopBefore fuel objEnd stillNew m u
    else some (stillNew, m, u)

/-- The dirty cards below the top the cycle began with. A card is cleaned when it
lies wholly below and none of its slots holds a new oop any more. -/
def dirtyCardScan (oldTopBefore : Nat) : List Nat → Memory → Universe → Option (Memory × Universe)
  | [], m, u => some (m, u)
  | i :: rest, m, u =>
    let cardStart := u.cardBase i
    if oldTopBefore ≤ cardStart then some (m, u)
    else if u.cards i = false then dirtyCardScan oldTopBefore rest m u
    else do
      let cardEnd := cardStart + cardSize
      let addr ← u.resolve i
      let (stillNew, m, u) ← scanCard cardStart cardEnd oldTopBefore (cardEnd - addr) addr false m u
      let u := if stillNew = false ∧ cardEnd ≤ oldTopBefore then u.setClean i else u
      dirtyCardScan oldTopBefore rest m u

/-- One copied object: its klass field first, then its body. Returns its size. -/
def scanObject (m : Memory) (u : Universe) (a : Nat) : Option (Nat × Memory × Universe) := do
  let (w, m, u) ← scavengeOop m u (m.klassOop a)
  let m := m.setKlassRaw a w
  let k ← m.klass a
  let (m, u) ← m.forEachOopField scavengeOop u a k
  if u.pendingStall then pure (0, m, u)
  else
    let k ← m.klassTryFrom w
    let sizeWords ← m.sizeWordsForKlass a k
    pure (sizeWords, m, u)

def cheney : Nat → Nat → Nat → Memory → Universe → Option (Memory × Universe)
  | 0, _, _, _, _ => none
  | fuel + 1, toScan, oldScan, m, u =>
    if toScan < u.toSpace.top then do
      let (sizeWords, m, u) ← scanObject m u toScan
      if u.pendingStall then pure (m, u)
      else cheney fuel (toScan + sizeWords * wordSize) oldScan m u
    else if oldScan < u.old.top then do
      let (sizeWords, m, u) ← scanObject m u oldScan
      if u.pendingStall then pure (m, u)
      else cheney fuel toScan (oldScan + sizeWords * wordSize) m u
    else some (m, u)

/-- More turns than the young generation can hold objects. -/
def cheneyFuel (u : Universe) : Nat := (u.eden.top - u.eden.start) + (u.fromSpace.top - u.fromSpace.start) + 1

/-- The survivors become `from`, eden is empty, and the next threshold is set. -/
def swapSpaces (u : Universe) : Universe :=
  let u := { u with
    fromSpace := u.toSpace
    toSpace := u.fromSpace.reset
    eden := u.eden.reset }
  { u with tenuringThreshold := u.computeThreshold (u.fromSpace.stop - u.fromSpace.start) }

end Universe

/-- The roots of a collection: those outside the code, the nmethods' with their
customisation key, and the rest of the code's (frames, adapters, PICs). -/
structure NmethodRoots where
  key : Word
  oops : List Word
  alive : Bool
  running : Bool
deriving DecidableEq, Repr

structure Roots where
  plain : List Word
  nmethods : List NmethodRoots
  code : List Word
deriving DecidableEq, Repr

/-- The code roots in visiting order: the frames' and tables', then every nmethod's
oops and key. -/
def visitNmethods {γ : Type} (f : Memory → γ → Word → Option (Word × Memory × γ)) :
    List NmethodRoots → Memory → γ → Option (List NmethodRoots × Memory × γ)
  | [], m, g => some ([], m, g)
  | nm :: rest, m, g => do
    let (oops, m, g) ← Memory.mapRoots f nm.oops m g
    let (key, m, g) ← f m g nm.key
    let (rest, m, g) ← visitNmethods f rest m g
    pure ({ nm with oops := oops, key := key } :: rest, m, g)

def eachCodeRoot {γ : Type} (f : Memory → γ → Word → Option (Word × Memory × γ)) (r : Roots)
    (m : Memory) (g : γ) : Option (Roots × Memory × γ) := do
  let (code, m, g) ← Memory.mapRoots f r.code m g
  let (nmethods, m, g) ← visitNmethods f r.nmethods m g
  pure ({ r with nmethods := nmethods, code := code }, m, g)

namespace Universe

/-- One scavenge; `none` is a panic or a stall. -/
def scavenge (r : Roots) (m : Memory) (u : Universe) : Option (Roots × Memory × Universe) := do
  let fuel := u.cheneyFuel
  let oldTopBefore := u.old.top
  let u := { u.clearAges with toSpace := u.toSpace.reset }
  let (plain, m, u) ← Memory.mapRoots scavengeOop r.plain m u
  let (m, u) ← dirtyCardScan oldTopBefore (List.range u.nCards) m u
  let (r, m, u) ← eachCodeRoot scavengeOop { r with plain := plain } m u
  if u.pendingStall then none
  else
    let (m, u) ← cheney fuel u.toSpace.start oldTopBefore m u
    if u.pendingStall then none
    else pure (r, m, u.swapSpaces)

end Universe

end WinArmVm
