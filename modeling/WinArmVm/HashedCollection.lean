import WinArmVm.ProbeHealing

namespace WinArmVm

open LinearProbing (Table)

/-- How objects compare and hash: `=` an equivalence, `hash` a SmallInteger consistent with it. -/
structure Hashing (K : Type) where
  same : K → K → Bool
  hash : K → Int
  refl : ∀ a, same a a = true
  symm : ∀ {a b}, same a b = true → same b a = true
  trans : ∀ {a b c}, same a b = true → same b c = true → same a c = true
  consistent : ∀ {a b}, same a b = true → hash a = hash b

namespace Hashing

variable {K V : Type} (H : Hashing K)

/-- The bits of the hash that `bitAnd:` sees. -/
def word (key : K) : Nat := (H.hash key % 2 ^ 64).toNat

end Hashing

namespace Hashed

variable {K V : Type} (H : Hashing K)

/-- Slot `i` of the table is index `i + 1` of the arrays; a nil key is an empty slot. -/
structure Dictionary (K V : Type) where
  tally : Nat
  table : Table K V

namespace Dictionary

def new : Dictionary K V := ⟨0, .empty 8⟩

/-- `none` where the probe does not end. -/
def scanFor (d : Dictionary K V) (key : K) : Option Nat := d.table.scan H.same H.word key

def privateAtPut (d : Dictionary K V) (i : Nat) (k : K) (v : V) : Dictionary K V := { d with table := d.table.put i k v }

def grow (d : Dictionary K V) : Option (Dictionary K V) :=
  (Table.reprobe H.same H.word d.table d.table.capacity (.empty (d.table.capacity * 2))).map fun t => { d with table := t }

def checkGrow (d : Dictionary K V) : Option (Dictionary K V) :=
  if d.tally * 2 > d.table.capacity then d.grow H else some d

def atPut (d : Dictionary K V) (key : K) (value : V) : Option (Dictionary K V) := do
  let i ← d.scanFor H key
  match d.table.slot i with
  | none =>
    let d := d.privateAtPut i key value
    { d with tally := d.tally + 1 }.checkGrow H
  | some (k, _) => some (d.privateAtPut i k value)

/-- The value, or `none` where the block for an absent key answers. -/
def atIfAbsent (d : Dictionary K V) (key : K) : Option (Option V) := do
  let i ← d.scanFor H key
  return (d.table.slot i).map Prod.snd

/-- The block answers a value and may leave the dictionary changed; the slot is the one found
before. -/
def atIfAbsentPut (d : Dictionary K V) (key : K) (aBlock : Dictionary K V → Option (V × Dictionary K V)) :
    Option (V × Dictionary K V) := do
  let i ← d.scanFor H key
  match d.table.slot i with
  | none =>
    let (v, d) ← aBlock d
    let d := d.privateAtPut i key v
    let d ← { d with tally := d.tally + 1 }.checkGrow H
    return (v, d)
  | some (_, v) => return (v, d)

/-- `fixCollisionsFrom:` with the slot emptied before. -/
def fixCollisionsFrom (t : Table K V) (index : Nat) : Option (Table K V) := Table.heal H.same H.word t index

def removeKeyIfAbsent (d : Dictionary K V) (key : K) : Option (Option V × Dictionary K V) := do
  let i ← d.scanFor H key
  match d.table.slot i with
  | none => return (none, d)
  | some (_, val) =>
    let t ← fixCollisionsFrom H (d.table.clear i) i
    return (some val, ⟨d.tally - 1, t⟩)

/-- What `keysAndValuesDo:` hands to its block, in this order. -/
def keysAndValues (d : Dictionary K V) : List (K × V) := (List.range d.table.capacity).filterMap d.table.slot

def putAll (d : Dictionary K V) : List (K × V) → Option (Dictionary K V)
  | [] => some d
  | (k, v) :: rest => do (← d.atPut H k v).putAll rest

def select (d : Dictionary K V) (aBlock : V → Bool) : Option (Dictionary K V) :=
  new.putAll H (d.keysAndValues.filter fun kv => aBlock kv.2)

end Dictionary

/-- Structurally a Dictionary that remembers its keys only. -/
structure Set (K : Type) where
  tally : Nat
  elements : Table K Unit

namespace Set

def new : Set K := ⟨0, .empty 8⟩

def scanFor (s : Set K) (anObject : K) : Option Nat := s.elements.scan H.same H.word anObject

def grow (s : Set K) : Option (Set K) :=
  (Table.reprobe H.same H.word s.elements s.elements.capacity (.empty (s.elements.capacity * 2))).map fun t =>
    { s with elements := t }

def checkGrow (s : Set K) : Option (Set K) := if s.tally * 2 > s.elements.capacity then s.grow H else some s

def add (s : Set K) (anObject : K) : Option (Set K) := do
  let i ← s.scanFor H anObject
  match s.elements.slot i with
  | none => (⟨s.tally + 1, s.elements.put i anObject ()⟩ : Set K).checkGrow H
  | some _ => some s

def includes (s : Set K) (anObject : K) : Option Bool := do
  let i ← s.scanFor H anObject
  return (s.elements.slot i).isSome

/-- The object, or `none` where the block for an absent one answers. -/
def removeIfAbsent (s : Set K) (anObject : K) : Option (Option K × Set K) := do
  let i ← s.scanFor H anObject
  match s.elements.slot i with
  | none => return (none, s)
  | some _ =>
    let t ← Table.heal H.same H.word (s.elements.clear i) i
    return (some anObject, ⟨s.tally - 1, t⟩)

/-- What `do:` hands to its block, in this order. -/
def each (s : Set K) : List K := (List.range s.elements.capacity).filterMap s.elements.keyAt

def addAll (s : Set K) : List K → Option (Set K)
  | [] => some s
  | e :: rest => do (← s.add H e).addAll rest

/-- The elements for which the other collection's `includes:` answers as asked for. -/
def pick (aCollection : Set K) (answer : Bool) : List K → Set K → Option (Set K)
  | [], result => some result
  | e :: rest, result => do
    if (← aCollection.includes H e) = answer then pick aCollection answer rest (← result.add H e)
    else pick aCollection answer rest result

/-- `&` -/
def inter (s aCollection : Set K) : Option (Set K) := pick H aCollection true s.each new

/-- `|` -/
def union (s aCollection : Set K) : Option (Set K) := do (← new.addAll H s.each).addAll H aCollection.each

def difference (s aCollection : Set K) : Option (Set K) := pick H aCollection false s.each new

end Set

structure Bag (K : Type) where
  contents : Dictionary K Nat

namespace Bag

def new : Bag K := ⟨.new⟩

def occurrencesOf (b : Bag K) (o : K) : Option Nat := do return (← b.contents.atIfAbsent H o).getD 0

def addWithOccurrences (b : Bag K) (el : K) (oc : Nat) : Option (Bag K) := do
  return ⟨← b.contents.atPut H el (oc + (← b.occurrencesOf H el))⟩

def size (b : Bag K) : Nat := (b.contents.keysAndValues.map Prod.snd).sum

/-- The element, or `none` where the block for an absent one answers. -/
def removeIfAbsent (b : Bag K) (el : K) : Option (Option K × Bag K) := do
  let oc ← b.occurrencesOf H el
  if oc = 0 then return (none, b)
  return (some el, ⟨← b.contents.atPut H el (oc - 1)⟩)

/-- What `do:` hands to its block, in this order. -/
def each (b : Bag K) : List K := b.contents.keysAndValues.flatMap fun kv => List.replicate kv.2 kv.1

def sameCounts (other : Bag K) : List (K × Nat) → Option Bool
  | [] => some true
  | (el, occ) :: rest => do
    if (← other.occurrencesOf H el) = occ then sameCounts other rest else return false

/-- `=` between bags. -/
def equal (b other : Bag K) : Option Bool :=
  if b.size = other.size then sameCounts H other b.contents.keysAndValues else some false

end Bag

end Hashed

end WinArmVm
