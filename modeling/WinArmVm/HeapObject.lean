import Mathlib.Data.List.Range

namespace WinArmVm

structure Mark where
  hash : Nat
  age : Nat
  nearDeath : Bool
  taggedContents : Bool
  gcMark : Bool
deriving DecidableEq, Repr

namespace Mark

def ageMax : Nat := 127

def pristine : Mark := ⟨0, 0, false, false, false⟩

def withAge (m : Mark) (age : Nat) : Mark := { m with age := age }

def withTaggedContents (m : Mark) (v : Bool) : Mark := { m with taggedContents := v }

def withGcMark (m : Mark) (v : Bool) : Mark := { m with gcMark := v }

end Mark

/-- A heap word by its tag: a small integer, the address of an object, a mark, or
bits that are none of these. A raw word may look like any of them. -/
inductive Word
  | smi (v : Int)
  | mem (addr : Nat)
  | mark (m : Mark)
  | bits (w : Nat)
deriving DecidableEq, Repr

/-- The word at each byte address. -/
abbrev Memory := Nat → Word

def wordSize : Nat := 8

def headerWords : Nat := 2

inductive Format
  | slots
  | indexableOops
  | indexableBytes
  | method
  | klass
  | double
  | closure
  | context
  | process
deriving DecidableEq, Repr

def Format.fromSmiValueChecked (v : Int) : Option Format :=
  match v % 256 with
  | 0 => some .slots
  | 1 => some .indexableOops
  | 2 => some .indexableBytes
  | 3 => some .method
  | 4 => some .klass
  | 5 => some .double
  | 6 => some .closure
  | 7 => some .context
  | 8 => some .process
  | _ => none

namespace Memory

def count : Word → Option Nat
  | .smi v => if 0 ≤ v then some v.toNat else none
  | _ => none

def klassOop (m : Memory) (a : Nat) : Word := m (a + 8)

def bodyAddr (a index : Nat) : Nat := a + 16 + 8 * index

def rawBodyWord (m : Memory) (a index : Nat) : Word := m (bodyAddr a index)

def write (m : Memory) (x : Nat) (w : Word) : Memory := Function.update m x w

def setRawBodyWord (m : Memory) (a index : Nat) (w : Word) : Memory := m.write (bodyAddr a index) w

def setMark (m : Memory) (a : Nat) (mark : Mark) : Memory := m.write a (.mark mark)

def setKlassRaw (m : Memory) (a : Nat) (w : Word) : Memory := m.write (a + 8) w

def installForwarding (m : Memory) (a target : Nat) : Memory := m.write a (.mem target)

def markAt (m : Memory) (a : Nat) : Option Mark :=
  match m a with
  | .mark mark => some mark
  | _ => none

def formatSmiValue (m : Memory) (k : Nat) : Option Int :=
  match m.rawBodyWord k 0 with
  | .smi v => some v
  | _ => none

def format (m : Memory) (k : Nat) : Option Format := (m.formatSmiValue k).bind Format.fromSmiValueChecked

def hasUntaggedContents (m : Memory) (k : Nat) : Option Bool := (m.formatSmiValue k).map fun v => v / 256 % 2 = 1

def nonIndexableSize (m : Memory) (k : Nat) : Option Nat := count (m.rawBodyWord k 1)

/-- `KlassOop::try_from`: the format in the word's own klass must be `Klass`. -/
def klassTryFrom (m : Memory) : Word → Option Nat
  | .mem k =>
    match m.klassOop k with
    | .mem kk => if m.format kk = some .klass then some k else none
    | _ => none
  | _ => none

def klass (m : Memory) (a : Nat) : Option Nat := m.klassTryFrom (m.klassOop a)

def rawSizeSlot (m : Memory) (a nis : Nat) : Option Nat := count (m.rawBodyWord a (nis - headerWords))

def sizeWordsForKlass (m : Memory) (a k : Nat) : Option Nat := do
  let nis ← m.nonIndexableSize k
  match ← m.format k with
  | .slots | .klass | .double | .process => pure nis
  | .indexableOops | .closure | .context =>
    let len ← m.rawSizeSlot a nis
    pure (nis + 1 + len)
  | .indexableBytes | .method =>
    let nbytes ← m.rawSizeSlot a nis
    pure (nis + 1 + (nbytes + 7) / 8)

def instanceSizeWords (m : Memory) (a : Nat) : Option Nat := do
  let k ← m.klass a
  m.sizeWordsForKlass a k

/-- `f` over the body words `start ≤ i < start + n`, each replaced by its result. -/
def visitBody {γ : Type} (f : Memory → γ → Word → Option (Word × Memory × γ)) (a : Nat) :
    List Nat → Memory → γ → Option (Memory × γ)
  | [], m, g => some (m, g)
  | i :: rest, m, g => do
    let (w, m, g) ← f m g (m.rawBodyWord a i)
    visitBody f a rest (m.setRawBodyWord a i w) g

/-- `f` over every body word that bears an oop, as the klass's format says. The klass
field is the caller's. -/
def forEachOopField {γ : Type} (f : Memory → γ → Word → Option (Word × Memory × γ)) (m : Memory)
    (g : γ) (a k : Nat) : Option (Memory × γ) := do
  let nis ← m.nonIndexableSize k
  let named := nis - headerWords
  match ← m.format k with
  | .slots | .klass => visitBody f a (List.range named) m g
  | .double | .process => pure (m, g)
  | .indexableOops | .closure | .context =>
    let (m, g) ← visitBody f a (List.range named) m g
    let len ← m.rawSizeSlot a nis
    visitBody f a (List.range' (named + 1) len) m g
  | .indexableBytes | .method => visitBody f a (List.range named) m g

def mapRoots {γ : Type} (f : Memory → γ → Word → Option (Word × Memory × γ)) :
    List Word → Memory → γ → Option (List Word × Memory × γ)
  | [], m, g => some ([], m, g)
  | w :: rest, m, g => do
    let (w, m, g) ← f m g w
    let (rest, m, g) ← mapRoots f rest m g
    pure (w :: rest, m, g)

end Memory

end WinArmVm
