import Mathlib.Algebra.GroupWithZero.Nat
import WinArmVm.HeapObject

namespace WinArmVm

/-- Eden or a survivor space: `[start, top)` is allocated. -/
structure Space where
  start : Nat
  top : Nat
  stop : Nat
deriving DecidableEq, Repr

def Space.reset (s : Space) : Space := { s with top := s.start }

/-- The old generation: reserved up to `bound`, committed up to `committedEnd`. -/
structure OldGen where
  start : Nat
  bound : Nat
  committedEnd : Nat
  top : Nat
deriving DecidableEq, Repr

def OldGen.freeBytes (o : OldGen) : Nat := o.committedEnd - o.top

def cardSize : Nat := 512

/-- The spaces with the old generation's card table (`true` is dirty), its
object-start offsets, and what the collectors keep between cycles. -/
structure Universe where
  eden : Space
  fromSpace : Space
  toSpace : Space
  old : OldGen
  nCards : Nat
  cards : Nat → Bool
  offsets : Nat → Nat
  tenuringThreshold : Nat
  bytesAtAge : Nat → Nat
  pendingStall : Bool

namespace Universe

def isOld (u : Universe) (addr : Nat) : Bool := u.old.start ≤ addr

def isNew (u : Universe) (addr : Nat) : Bool := addr < u.old.start

def isNewOop (u : Universe) : Word → Bool
  | .mem addr => u.isNew addr
  | _ => false

def cardIndex (u : Universe) (x : Nat) : Nat := (x - u.old.start) / cardSize

def cardBase (u : Universe) (i : Nat) : Nat := u.old.start + i * cardSize

def dirtyForSlot (u : Universe) (x : Nat) : Universe := { u with cards := Function.update u.cards (u.cardIndex x) true }

/-- Dirties every card that overlaps `[start, stop)`. -/
def recordMultistores (u : Universe) (start stop : Nat) : Universe :=
  if start < stop then
    { u with cards := fun i =>
        (u.cardIndex start ≤ i && i ≤ u.cardIndex (stop - 1)) || u.cards i }
  else u

def setClean (u : Universe) (i : Nat) : Universe := { u with cards := Function.update u.cards i false }

def maxDirect : Nat := 64

def maxChainSkip : Nat := 191

/-- The entry of card `i > c0` for an object whose header is at `addr`, in card `c0`. -/
def offsetEntry (u : Universe) (addr c0 i : Nat) : Nat :=
  let distanceWords := (u.cardBase i - addr) / wordSize
  if distanceWords ≤ maxDirect then distanceWords
  else maxDirect + min (i - (c0 + 1)) maxChainSkip

def recordObject (u : Universe) (addr sizeBytes : Nat) : Universe :=
  let c0 := u.cardIndex addr
  let cLast := u.cardIndex (addr + sizeBytes - 1)
  { u with offsets := fun i =>
      if i = c0 then if addr = u.cardBase c0 then 0 else u.offsets i
      else if c0 < i ∧ i ≤ cLast then u.offsetEntry addr c0 i
      else u.offsets i }

/-- Up to `fuel` hops of a card's chain, back to the header of the object that covers
the card's base. -/
def resolveFrom (u : Universe) : Nat → Nat → Option Nat
  | 0, _ => none
  | fuel + 1, i =>
    let e := u.offsets i
    if e ≤ maxDirect then some (u.cardBase i - e * wordSize)
    else if e - maxDirect ≤ i then u.resolveFrom fuel (i - (e - maxDirect))
    else none

def resolve (u : Universe) (i : Nat) : Option Nat := u.resolveFrom (i + 1) i

/-- Zeroes the entries up to the card of `oldTopBefore - 1`. -/
def clearThrough (u : Universe) (oldTopBefore : Nat) : Universe :=
  if oldTopBefore ≤ u.old.start then u
  else { u with offsets := fun i =>
      if i ≤ u.cardIndex (oldTopBefore - 1) then 0 else u.offsets i }

def oldAllocate (u : Universe) (sizeBytes : Nat) : Option (Nat × Universe) :=
  let sizeBytes := (sizeBytes + 7) / 8 * 8
  let newTop := u.old.top + sizeBytes
  if u.old.committedEnd < newTop then none
  else
    let addr := u.old.top
    some (addr, { u with old := { u.old with top := newTop } }.recordObject addr sizeBytes)

end Universe

end WinArmVm
