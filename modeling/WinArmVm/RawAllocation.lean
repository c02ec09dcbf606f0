import WinArmVm.SymbolTable
import WinArmVm.FullGc

namespace WinArmVm

def oldGrowthSegment : Nat := 16 * 2 ^ 20

/-- The heap as the allocator sees it. The first plain root is nil, handles stand behind the rest. -/
structure VmHeap where
  u : Universe
  m : Memory
  roots : Roots
  gcEnabled : Bool
  gcStress : Bool
  gcStressFullPeriod : Option Nat
  fullStressAllocCount : Nat
  promotionGuaranteeMet : Bool

def Memory.initObjectAt (m : Memory) (addr words : Nat) (klass : Word) (tagged : Bool) (nilFill : Word) : Memory :=
  fun x =>
    if x = addr then .mark (Mark.pristine.withTaggedContents tagged)
    else if x = addr + 8 then klass
    else if addr + 16 ≤ x ∧ x < addr + words * wordSize then if tagged then nilFill else .smi 0
    else m x

namespace OldGen

/-- One segment after the other until `worstCase` bytes are free or the reservation is used up. -/
def growFor (worstCase : Nat) : Nat → OldGen → OldGen
  | 0, o => o
  | turns + 1, o =>
    if o.freeBytes < worstCase then
      if (o.grow oldGrowthSegment).committedEnd = o.committedEnd then o
      else growFor worstCase turns (o.grow oldGrowthSegment)
    else o

end OldGen

namespace VmHeap

variable (h : VmHeap)

def nilObj : Word := h.roots.plain.headD (.bits 0)

def handled : Word := h.roots.plain.getLastD (.bits 0)

def handle (w : Word) : VmHeap := { h with roots := { h.roots with plain := h.roots.plain ++ [w] } }

def leaveScope : VmHeap := { h with roots := { h.roots with plain := h.roots.plain.dropLast } }

/-- `none` is the assertion that genesis is over, or a panic. -/
def fullGc : Option VmHeap :=
  if h.gcEnabled then
    (Universe.fullGc h.roots h.m h.u).map fun r => { h with roots := r.1, m := r.2.1, u := r.2.2 }
  else none

/-- `none` is a panic or a stall, which is fatal. -/
def scavenge : Option VmHeap :=
  (Universe.scavenge h.roots h.m h.u).map fun r => { h with roots := r.1, m := r.2.1, u := r.2.2 }

def worstCase : Nat := (h.u.eden.top - h.u.eden.start) + (h.u.fromSpace.top - h.u.fromSpace.start)

def growOld (old : OldGen) : VmHeap := { h with u := { h.u with old := old } }

def ensurePromotionGuarantee : Option VmHeap := do
  let worstCase := h.worstCase
  let h ← if h.u.old.freeBytes < worstCase then do
      let h ← h.fullGc
      pure (h.growOld (h.u.old.growFor worstCase (h.u.old.bound - h.u.old.committedEnd + 1)))
    else pure h
  pure { h with promotionGuaranteeMet := decide (worstCase ≤ h.u.old.freeBytes) }

def collectYoung : Option VmHeap := do
  let h ← h.ensurePromotionGuarantee
  h.scavenge

def tryBumpEden (words : Nat) : Option (Nat × VmHeap) :=
  let newTop := h.u.eden.top + words * wordSize
  if h.u.eden.stop < newTop then none
  else some (h.u.eden.top, { h with u := { h.u with eden := { h.u.eden with top := newTop } } })

def initObject (addr words : Nat) (klass : Word) (tagged : Bool) : VmHeap :=
  { h with m := h.m.initObjectAt addr words klass tagged h.nilObj }

def tryEden (words : Nat) (klass : Word) (tagged : Bool) : Option (Nat × VmHeap) :=
  (h.tryBumpEden words).map fun r => (r.1, r.2.initObject r.1 words klass tagged)

def tryOldAlloc (words : Nat) (klass : Word) (tagged : Bool) : Option (Nat × VmHeap) :=
  (h.u.oldAllocate (words * wordSize)).map fun r =>
    let h := { h with u := r.2.recordMultistores r.1 (r.1 + words * wordSize) }
    (r.1, h.initObject r.1 words klass tagged)

def tryOldOrGrow (words : Nat) (klass : Word) (tagged : Bool) : Option (Nat × VmHeap) × VmHeap :=
  match h.tryOldAlloc words klass tagged with
  | some r => (some r, h)
  | none =>
    let grown := h.growOld (h.u.old.grow oldGrowthSegment)
    if grown.u.old.committedEnd = h.u.old.committedEnd then (none, h)
    else (grown.tryOldAlloc words klass tagged, grown)

def stressCollect : Option VmHeap := do
  let h ← if h.gcStress && h.gcEnabled then h.collectYoung else pure h
  match h.gcStressFullPeriod with
  | none => pure h
  | some period =>
    if h.gcEnabled then
      if period ≤ h.fullStressAllocCount + 1 then fullGc { h with fullStressAllocCount := 0 }
      else pure { h with fullStressAllocCount := h.fullStressAllocCount + 1 }
    else pure h

def allocAfterFullGc (words : Nat) (tagged : Bool) : Option (Nat × VmHeap) := do
  let h ← h.fullGc
  match h.tryEden words h.handled tagged with
  | some r => pure r
  | none => (h.tryOldOrGrow words h.handled tagged).1

def allocBeyondEden (words : Nat) (tagged : Bool) : Option (Nat × VmHeap) := do
  let h ← if h.gcEnabled then h.collectYoung else pure h
  match if h.gcEnabled then h.tryEden words h.handled tagged else none with
  | some r => pure r
  | none =>
    match h.tryOldOrGrow words h.handled tagged with
    | (some r, _) => pure r
    | (none, h) => h.allocAfterFullGc words tagged

/-- The general allocator; `none` is its stall report and exit. -/
def allocWords (words : Nat) (klass : Word) (tagged : Bool) : Option (Nat × VmHeap) := do
  let h ← (h.handle klass).stressCollect
  match h.tryEden words h.handled tagged with
  | some r => pure (r.1, r.2.leaveScope)
  | none =>
    let r ← h.allocBeyondEden words tagged
    pure (r.1, r.2.leaveScope)

def setRawBodyWords (a : Nat) (ws : List (Word × Nat)) : VmHeap :=
  { h with m := ws.foldl (fun m p => m.setRawBodyWord a p.2 p.1) h.m }

def store (a i : Nat) (w : Word) : VmHeap :=
  { h with
    m := h.m.setRawBodyWord a i w
    u := if h.u.isOld a && h.u.isNewOop w then h.u.dirtyForSlot (Memory.bodyAddr a i) else h.u }

/-- For writers that go past `store`: every card of the object, if it is old. -/
def postWriteBarrier (a : Nat) : Option VmHeap :=
  if h.u.isOld a then
    (h.m.instanceSizeWords a).map fun n => { h with u := h.u.recordMultistores a (a + n * wordSize) }
  else some h

end VmHeap

def klassSizeWords : Nat := 10

def Format.toSmiValue (f : Format) (untagged : Bool) : Int := (match f with
    | .slots => 0
    | .indexableOops => 1
    | .indexableBytes => 2
    | .method => 3
    | .klass => 4
    | .double => 5
    | .closure => 6
    | .context => 7
    | .process => 8) + if untagged then 256 else 0

/-- What the raw layer works on: the heap, the symbols' contents and their table. -/
structure RawState where
  heap : VmHeap
  symbolHeap : SymbolHeap
  symbols : SymbolTable
  metaclassKlass : Nat
  symbolKlass : Nat

structure WordRequest where
  heap : VmHeap
  words : Nat
  klass : Word
  tagged : Bool

namespace WordRequest

def Fits (q : WordRequest) : Prop := q.heap.u.eden.top + q.words * wordSize ≤ q.heap.u.eden.stop

def Served (q : WordRequest) : Prop := (q.heap.allocWords q.words q.klass q.tagged).isSome = true

instance (q : WordRequest) : Decidable q.Fits := inferInstanceAs (Decidable (_ ≤ _))

end WordRequest

/-- How a step of the raw layer ends; `exit70` is the end of the process. -/
inductive Outcome (α : Type)
  | done (a : α) (s : RawState)
  | exit70
  | panic

structure RawRun (α : Type) where
  requests : List WordRequest
  outcome : Outcome α

abbrev Raw (α : Type) := RawState → RawRun α

namespace Raw

variable {α β : Type}

def pure (a : α) : Raw α := fun s => ⟨[], .done a s⟩

def bind (x : Raw α) (f : α → Raw β) : Raw β := fun s =>
  match (x s).outcome with
  | .done a s' => ⟨(x s).requests ++ (f a s').requests, (f a s').outcome⟩
  | .exit70 => ⟨(x s).requests, .exit70⟩
  | .panic => ⟨(x s).requests, .panic⟩

instance : Monad Raw where
  pure := pure
  bind := bind

def get : Raw RawState := fun s => ⟨[], .done s s⟩

def modify (f : RawState → RawState) : Raw Unit := fun s => ⟨[], .done () (f s)⟩

/-- An `expect`. -/
def expect (o : Option α) : Raw α := fun s =>
  match o with
  | some a => ⟨[], .done a s⟩
  | none => ⟨[], .panic⟩

end Raw

namespace RawState

def write (s : RawState) (f : Memory → Memory) : RawState := { s with heap := { s.heap with m := f s.heap.m } }

end RawState

def allocWordsRaw (words : Nat) (klass : Word) (tagged : Bool) : Raw Nat := fun s =>
  match s.heap.tryBumpEden words with
  | some (addr, heap) => ⟨[⟨s.heap, words, klass, tagged⟩],
      .done addr { s with heap := heap.initObject addr words klass tagged }⟩
  | none => ⟨[⟨s.heap, words, klass, tagged⟩], .exit70⟩

def allocKlassRaw (meta_ : Nat) : Raw Nat := allocWordsRaw klassSizeWords (.mem meta_) true

def setBodyWord (a index : Nat) (w : Word) : Raw Unit := Raw.modify (·.write (·.setRawBodyWord a index w))

def setFormat (k : Nat) (f : Format) (untagged : Bool) : Raw Unit := setBodyWord k 0 (.smi (f.toSmiValue untagged))

def setNonIndexableSize (k words : Nat) : Raw Unit := setBodyWord k 1 (.smi words)

def setSuperclass (k : Nat) (w : Word) : Raw Unit := setBodyWord k 2 w

def setName (k : Nat) (w : Word) : Raw Unit := setBodyWord k 4 w

def allocIndexableBytesRaw (klass nis nbytes : Nat) : Raw Nat := do
  let addr ← allocWordsRaw (nis + 1 + (nbytes + 7) / 8) (.mem klass) false
  setBodyWord addr (nis - headerWords) (.smi nbytes)
  Pure.pure addr

def enterSymbol (bytes : List UInt8) (addr : Nat) : Raw Unit := do
  Raw.modify fun s => { s with symbolHeap := s.symbolHeap.alloc ⟨addr⟩ bytes }
  Raw.modify (·.write fun m =>
    m.setMark addr { Mark.pristine with hash := ((SymbolTable.contentHash bytes).toUInt32 ||| 1).toNat })
  let s ← Raw.get
  let symbols ← Raw.expect (s.symbols.insert (SymbolTable.contentHash bytes) ⟨addr⟩)
  let symbols ← if symbols.buckets.length * 3 ≤ symbols.count * 4 then Raw.expect (symbols.rehash s.symbolHeap)
    else Pure.pure symbols
  Raw.modify fun s => { s with symbols := symbols }

def intern (bytes : List UInt8) : Raw SymbolOop := do
  let s ← Raw.get
  match ← Raw.expect (s.symbols.probe s.symbolHeap (SymbolTable.contentHash bytes) bytes) with
  | some found => Pure.pure found
  | none =>
    let nis ← Raw.expect (s.heap.m.nonIndexableSize s.symbolKlass)
    let addr ← allocIndexableBytesRaw s.symbolKlass nis bytes.length
    enterSymbol bytes addr
    Pure.pure ⟨addr⟩

def newKlassCore (superclass : Nat) (format : Format) (untagged : Bool) (nisWords : Nat) : Raw (Nat × Nat) := do
  let s ← Raw.get
  let meta_ ← allocKlassRaw s.metaclassKlass
  setFormat meta_ .klass false
  setNonIndexableSize meta_ klassSizeWords
  let klass ← allocKlassRaw meta_
  setFormat klass format untagged
  setNonIndexableSize klass nisWords
  setSuperclass klass (.mem superclass)
  let s ← Raw.get
  let superMeta ← Raw.expect (s.heap.m.klass superclass)
  setSuperclass meta_ (.mem superMeta)
  Pure.pure (meta_, klass)

/-- `b" class"` -/
def classSuffix : List UInt8 := [32, 99, 108, 97, 115, 115]

def newKlass (superclass : Nat) (name : List UInt8) (format : Format) (untagged : Bool) (nisWords : Nat) : Raw Nat := do
  let (meta_, klass) ← newKlassCore superclass format untagged nisWords
  let plain ← intern name
  setName klass (.mem plain.raw)
  let metaName ← intern (name ++ classSuffix)
  setName meta_ (.mem metaName.raw)
  Pure.pure klass

end WinArmVm
