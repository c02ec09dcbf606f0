import WinArmVm.LargeInteger
import WinArmVm.Varint

namespace WinArmVm.Mop

structure SmallInt where
  value : Int
  inRange : SmallInteger.minVal ≤ value ∧ value ≤ SmallInteger.maxVal
deriving DecidableEq

/-- A reference; heap addresses stand for objects, whatever a collection does to them. -/
inductive Oop
  | nilObj
  | falseObj
  | trueObj
  | smi (v : SmallInt)
  | mem (a : Nat)
  | other (word : Nat)
deriving DecidableEq

inductive Format
  | slots
  | indexableOops
  | indexableBytes
  | method
  | klass
  | closure
  | context
  | process
  | double
deriving DecidableEq

/-- `name` is what a Symbol in the name field spells, none for a metaclass; `nslots` is
`non_indexable_size - HEADER_WORDS`. -/
structure Klass where
  name : Option (List UInt8)
  format : Format
  nslots : Nat
deriving DecidableEq

/-- The named slots, then the tail of the format. -/
inductive Body
  | slots (named : List Oop)
  | oops (named elements : List Oop)
  | bytes (named : List Oop) (tail : List UInt8)
  | double (bits : BitVec 64)
  | internal
deriving DecidableEq

structure Object where
  klass : Nat
  body : Body
deriving DecidableEq

inductive Global
  | klass (k : Nat)
  | other
deriving DecidableEq

structure Universe where
  smiKlass : Nat
  doubleKlass : Nat
  characterKlass : Nat
  symbolKlass : Nat
  stringKlass : Nat
  bytearrayKlass : Nat
  floatArrayKlass : Nat
  largePosIntKlass : Nat
  largeNegIntKlass : Nat
  arrayKlass : Nat
  alienKlass : Nat
  objcrefKlass : Nat

/-- `symbols` is the table symbols are interned in, `globals` the bindings by name. -/
structure Vm where
  univ : Universe
  klasses : Nat → Klass
  heap : List Object
  symbols : List (List UInt8 × Nat)
  globals : List (List UInt8 × Global)

def MAGIC : List UInt8 := [77, 79, 80, 1]

def MAX_BYTES : Nat := 64 * 2 ^ 20

def MAX_OBJECTS : Nat := 1000000

def MAX_DEPTH : Nat := 1000

inductive Tag
  | nil
  | false
  | true
  | smi
  | double
  | char
  | symbol
  | string
  | byteArray
  | floatArray
  | array
  | object
  | backref
  | largeInt
deriving DecidableEq

namespace Tag

def byte : Tag → UInt8
  | .nil => 0
  | .false => 1
  | .true => 2
  | .smi => 3
  | .double => 4
  | .char => 5
  | .symbol => 6
  | .string => 7
  | .byteArray => 8
  | .floatArray => 9
  | .array => 10
  | .object => 11
  | .backref => 12
  | .largeInt => 13

def ofByte (b : UInt8) : Option Tag :=
  [Tag.nil, .false, .true, .smi, .double, .char, .symbol, .string, .byteArray, .floatArray, .array,
    .object, .backref, .largeInt].find? (·.byte = b)

@[simp] theorem ofByte_byte (t : Tag) : ofByte t.byte = some t := by
  cases t <;> rfl

end Tag

inductive Subkind
  | slots
  | oops
  | bytes
deriving DecidableEq

namespace Subkind

def byte : Subkind → UInt8
  | .slots => 0
  | .oops => 1
  | .bytes => 2

def ofByte (b : UInt8) : Option Subkind := [slots, oops, bytes].find? (·.byte = b)

@[simp] theorem ofByte_byte (k : Subkind) : ofByte k.byte = some k := by
  cases k <;> rfl

def format : Subkind → Format
  | .slots => .slots
  | .oops => .indexableOops
  | .bytes => .indexableBytes

end Subkind

/-- `aborted` is a failed `expect` or an `unreachable!`. -/
inductive PickleErr
  | unpicklable (what : String)
  | tooDeep
  | tooBig
  | tooManyObjects
  | aborted
deriving DecidableEq

/-- The classes are named by their bytes. -/
inductive UnpickleErr
  | badMagic
  | badTag (b : UInt8)
  | truncated
  | malformed (what : String)
  | unknownClass (name : List UInt8)
  | notAClass (name : List UInt8)
  | shapeMismatch (name : List UInt8)
  | tooDeep
  | tooManyObjects
  | badBackRef
deriving DecidableEq

def writeVarint (v : Nat) : List UInt8 := Varint.write 10 v

/-- `as u64` on a signed number. -/
def asU64 (v : Int) : Nat := (BitVec.ofInt 64 v).toNat

def zigzag (v : SmallInt) : Nat := (Varint.zigzag (BitVec.ofInt 64 v.value)).toNat

def unzigzag (u : Nat) : Int := (Varint.unzigzag (BitVec.ofNat 64 u)).toInt

def toLeBytes (bits : BitVec 64) : List UInt8 := (List.range 8).map fun i => UInt8.ofNat (bits.toNat / 256 ^ i % 256)

def fromLeBytes (bytes : List UInt8) : BitVec 64 := BitVec.ofNat 64 (bytes.foldr (fun b v => b.toNat + 256 * v) 0)

/-- The bytes written and the addresses tabled; an address's index is its place. -/
structure PickleState where
  out : List UInt8
  seen : List Nat

def PickleState.push (s : PickleState) (bytes : List UInt8) : PickleState := { s with out := s.out ++ bytes }

def readBytesOut (m : Object) : Except PickleErr (List UInt8) :=
  match m.body with
  | .bytes _ tail => .ok tail
  | _ => .error .aborted

def pkBytes (tag : Tag) (m : Object) (s : PickleState) : Except PickleErr PickleState := do
  let bytes ← readBytesOut m
  return s.push (tag.byte :: (writeVarint bytes.length ++ bytes))

def pkEach (child : Oop → PickleState → Except PickleErr PickleState) :
    List Oop → PickleState → Except PickleErr PickleState
  | [], s => .ok s
  | o :: os, s => do
    let s ← child o s
    pkEach child os s

def capped (maxBytes : Nat) (s : PickleState) : Except PickleErr PickleState :=
  if maxBytes < s.out.length then .error .tooBig else .ok s

def subkindOf : Format → Except PickleErr Subkind
  | .slots => .ok .slots
  | .indexableOops => .ok .oops
  | .indexableBytes => .ok .bytes
  | .method => .error (.unpicklable "CompiledMethod")
  | .klass => .error (.unpicklable "a class")
  | .closure => .error (.unpicklable "BlockClosure")
  | .context => .error (.unpicklable "Context")
  | .process => .error (.unpicklable "Process")
  | .double => .error .aborted

def pkObject (maxBytes : Nat) (child : Oop → PickleState → Except PickleErr PickleState) (k : Klass)
    (m : Object) (s : PickleState) : Except PickleErr PickleState := do
  let subkind ← subkindOf k.format
  match k.name with
  | none => .error (.unpicklable "instance of an anonymous class")
  | some name =>
    let s := s.push (Tag.object.byte :: (writeVarint name.length ++ name ++ writeVarint k.nslots ++ [subkind.byte]))
    match subkind, m.body with
    | .slots, .slots named =>
      let s ← pkEach child named s
      capped maxBytes s
    | .oops, .oops named elements =>
      let s ← pkEach child named (s.push (writeVarint elements.length))
      let s ← pkEach child elements s
      capped maxBytes s
    | .bytes, .bytes named tail =>
      let s ← pkEach child named (s.push (writeVarint tail.length))
      capped maxBytes (s.push tail)
    | _, _ => .error .aborted

def pkTabled (vm : Vm) (maxBytes : Nat) (child : Oop → PickleState → Except PickleErr PickleState)
    (m : Object) (s : PickleState) : Except PickleErr PickleState :=
  let u := vm.univ
  if m.klass = u.symbolKlass then pkBytes .symbol m s
  else if m.klass = u.stringKlass then pkBytes .string m s
  else if m.klass = u.bytearrayKlass then pkBytes .byteArray m s
  else if m.klass = u.floatArrayKlass then do
    let bytes ← readBytesOut m
    if bytes.length % 8 ≠ 0 then .error (.unpicklable "ragged FloatArray")
    else return s.push (Tag.floatArray.byte :: (writeVarint (bytes.length / 8) ++ bytes))
  else if m.klass = u.largePosIntKlass ∨ m.klass = u.largeNegIntKlass then do
    let bytes ← readBytesOut m
    let neg : UInt8 := if m.klass = u.largeNegIntKlass then 1 else 0
    return s.push (Tag.largeInt.byte :: neg :: (writeVarint bytes.length ++ bytes))
  else if m.klass = u.arrayKlass then
    match m.body with
    | .oops _ elements => pkEach child elements (s.push (Tag.array.byte :: writeVarint elements.length))
    | _ => .error .aborted
  else if m.klass = u.alienKlass then .error (.unpicklable "Alien (raw pointer)")
  else if m.klass = u.objcrefKlass then .error (.unpicklable "ObjcRef (a retained Cocoa reference)")
  else pkObject maxBytes child (vm.klasses m.klass) m s

/-- The first argument is how many levels are left: `MAX_DEPTH - depth`. -/
def pk (vm : Vm) (maxBytes maxObjects : Nat) : Nat → Oop → PickleState → Except PickleErr PickleState
  | 0, _, _ => .error .tooDeep
  | room + 1, o, s =>
    if maxBytes < s.out.length then .error .tooBig
    else
      match o with
      | .nilObj => .ok (s.push [Tag.nil.byte])
      | .falseObj => .ok (s.push [Tag.false.byte])
      | .trueObj => .ok (s.push [Tag.true.byte])
      | .smi v => .ok (s.push (Tag.smi.byte :: writeVarint (zigzag v)))
      | .other _ => .error (.unpicklable "not a pickleable oop kind")
      | .mem a =>
        match vm.heap[a]? with
        | none => .error .aborted
        | some m =>
          if m.klass = vm.univ.doubleKlass then
            match m.body with
            | .double bits => .ok (s.push (Tag.double.byte :: toLeBytes bits))
            | _ => .error .aborted
          else if m.klass = vm.univ.characterKlass then
            match m.body with
            | .slots (.smi code :: _) => .ok (s.push (Tag.char.byte :: writeVarint (asU64 code.value)))
            | .slots (_ :: _) => .error (.unpicklable "Character with a non-smi code")
            | _ => .error .aborted
          else
            match s.seen.idxOf? a with
            -- The table holds its indices as u32.
            | some idx => .ok (s.push (Tag.backref.byte :: writeVarint (idx % 2 ^ 32)))
            | none =>
              if maxObjects ≤ s.seen.length then .error .tooManyObjects
              else pkTabled vm maxBytes (fun o s => pk vm maxBytes maxObjects room o s) m { s with seen := s.seen ++ [a] }

def pickleWithLimits (vm : Vm) (root : Oop) (maxBytes maxObjects : Nat) : Except PickleErr (List UInt8) := do
  let s ← pk vm maxBytes maxObjects MAX_DEPTH root ⟨MAGIC, []⟩
  return s.out

def pickle (vm : Vm) (root : Oop) : Except PickleErr (List UInt8) := pickleWithLimits vm root MAX_BYTES MAX_OBJECTS

/-- The receiving VM, the input left, and the rebuilt objects in the order of their indices. -/
structure UnpickleState where
  vm : Vm
  cur : List UInt8
  table : List Nat

abbrev Unpickle (α : Type) := StateT UnpickleState (Except UnpickleErr) α

def u8 : Unpickle UInt8 := fun s =>
  match s.cur with
  | [] => .error .truncated
  | b :: bs => .ok (b, { s with cur := bs })

def exact (n : Nat) : Unpickle (List UInt8) := fun s =>
  if s.cur.length < n then .error .truncated else .ok (s.cur.take n, { s with cur := s.cur.drop n })

def varint : Unpickle Nat := fun s =>
  match Varint.read 10 0 0 s.cur with
  | .ok (v, bs) => .ok (v, { s with cur := bs })
  | .error .truncated => .error .truncated
  | .error .tooLong => .error (.malformed "varint too long")

def lenCapped (minBytesPer : Nat) : Unpickle Nat := do
  let n ← varint
  if (← get).cur.length < n * max minBytesPer 1 then throw .truncated
  return n

def Unpickle.alloc (m : Object) : Unpickle Nat := fun s =>
  .ok (s.vm.heap.length, { s with vm := { s.vm with heap := s.vm.heap ++ [m] } })

def Unpickle.intern (bytes : List UInt8) : Unpickle Nat := do
  let s ← get
  match s.vm.symbols.lookup bytes with
  | some a => return a
  | none =>
    let a ← Unpickle.alloc ⟨s.vm.univ.symbolKlass, .bytes [] bytes⟩
    modify fun s => { s with vm := { s.vm with symbols := (bytes, a) :: s.vm.symbols } }
    return a

def update (a : Nat) (f : Object → Object) : Unpickle Unit :=
  modify fun s => { s with vm := { s.vm with heap := s.vm.heap.modify a f } }

def tablePush (a : Nat) : Unpickle Unit := modify fun s => { s with table := s.table ++ [a] }

namespace Object

def setBodyOop (i : Nat) (v : Oop) (m : Object) : Object :=
  match m.body with
  | .slots named => { m with body := .slots (named.set i v) }
  | .oops named elements => { m with body := .oops (named.set i v) elements }
  | .bytes named tail => { m with body := .bytes (named.set i v) tail }
  | _ => m

def atPut (i : Nat) (v : Oop) (m : Object) : Object :=
  match m.body with
  | .oops named elements => { m with body := .oops named (elements.set i v) }
  | _ => m

/-- `byte_at_put` over all the tail. -/
def bytesPut (bytes : List UInt8) (m : Object) : Object :=
  match m.body with
  | .bytes named _ => { m with body := .bytes named bytes }
  | _ => m

end Object

/-- A raw store into an object under construction. -/
inductive Store
  | bodyOop (i : Nat) (v : Oop)
  | tailOop (i : Nat) (v : Oop)
  | bytes (bs : List UInt8)

def Store.apply : Store → Object → Object
  | .bodyOop i v => Object.setBodyOop i v
  | .tailOop i v => Object.atPut i v
  | .bytes bs => Object.bytesPut bs

/-- What rebuilding needs: to read the message, to allocate, to intern and to store. -/
class Builds (m : Type → Type) where
  read {α : Type} : Unpickle α → m α
  alloc : Object → m Nat
  intern : List UInt8 → m Nat
  store : Nat → Store → m Unit

instance : Builds Unpickle where
  read x := x
  alloc := Unpickle.alloc
  intern := Unpickle.intern
  store a st := update a st.apply

section build

open Builds

variable {m : Type → Type} [Monad m] [Builds m]

def allocSlots (k : Nat) : m Nat := do
  let s ← read get
  alloc ⟨k, .slots (List.replicate (s.vm.klasses k).nslots .nilObj)⟩

def allocIndexableOops (k n : Nat) : m Nat := do
  let s ← read get
  alloc ⟨k, .oops (List.replicate (s.vm.klasses k).nslots .nilObj) (List.replicate n .nilObj)⟩

def allocIndexableBytes (k n : Nat) : m Nat := do
  let s ← read get
  alloc ⟨k, .bytes (List.replicate (s.vm.klasses k).nslots .nilObj) (List.replicate n 0)⟩

def upBytes (klass n : Nat) (bytes : List UInt8) : m Oop := do
  let b ← allocIndexableBytes klass n
  store b (.bytes bytes)
  read (tablePush b)
  return .mem b

/-- The fields or elements `i`, …, `i + n - 1` of the container at `a`. -/
def fill (child : m Oop) (put : Nat → Oop → Store) (a : Nat) : Nat → Nat → m Unit
  | _, 0 => return
  | i, n + 1 => do
    let c ← child
    store a (put i c)
    fill child put a (i + 1) n

def upArray (child : m Oop) : m Oop := do
  let n ← read (lenCapped 1)
  let s ← read get
  let arr ← allocIndexableOops s.vm.univ.arrayKlass n
  read (tablePush arr)
  fill child .tailOop arr 0 n
  return .mem arr

def resolveKlass (name : List UInt8) (nslots : Nat) (subkind : Subkind) (idxN : Nat) : m Nat := do
  let _ ← Builds.intern name
  let s ← read get
  match s.vm.globals.lookup name with
  | none => read (throw (.unknownClass name))
  | some .other => read (throw (.notAClass name))
  | some (.klass kls) =>
    if (s.vm.klasses kls).nslots ≠ nslots then read (throw (.shapeMismatch name))
    else if (s.vm.klasses kls).format ≠ subkind.format then read (throw (.shapeMismatch name))
    else if s.cur.length + idxN < nslots + idxN then read (throw .truncated)
    else return kls

def Subkind.tailLength : Subkind → Unpickle Nat
  | .slots => return 0
  | .oops | .bytes => lenCapped 1

def Subkind.alloc (kls idxN : Nat) : Subkind → m Nat
  | .slots => allocSlots kls
  | .oops => allocIndexableOops kls idxN
  | .bytes => allocIndexableBytes kls idxN

def Subkind.fillTail (child : m Oop) (obj idxN : Nat) : Subkind → m Unit
  | .slots => return
  | .oops => fill child .tailOop obj 0 idxN
  | .bytes => do
    let bytes ← read (exact idxN)
    store obj (.bytes bytes)

def upObject (child : m Oop) : m Oop := do
  let nameLen ← read (lenCapped 1)
  let name ← read (exact nameLen)
  let nslots ← read varint
  let subkind ← read u8
  match Subkind.ofByte subkind with
  | none => read (throw (.malformed "bad object subkind"))
  | some subkind =>
    let idxN ← read subkind.tailLength
    let kls ← resolveKlass name nslots subkind idxN
    let obj ← subkind.alloc kls idxN
    read (tablePush obj)
    fill child .bodyOop obj 0 nslots
    subkind.fillTail child obj idxN
    return .mem obj

def upTagged (child : m Oop) : Tag → m Oop
  | .nil => return .nilObj
  | .false => return .falseObj
  | .true => return .trueObj
  | .smi => do
    let u ← read varint
    if h : SmallInteger.minVal ≤ unzigzag u ∧ unzigzag u ≤ SmallInteger.maxVal then return .smi ⟨unzigzag u, h⟩
    else read (throw (.malformed "SmallInteger out of range"))
  | .double => do
    let raw ← read (exact 8)
    let s ← read get
    let d ← alloc ⟨s.vm.univ.doubleKlass, .double (fromLeBytes raw)⟩
    return .mem d
  | .char => do
    let code ← read varint
    if h : (code : Int) ≤ SmallInteger.maxVal then
      let s ← read get
      let obj ← allocSlots s.vm.univ.characterKlass
      store obj (.bodyOop 0 (.smi ⟨code, SmallInteger.natCast_inRange code h⟩))
      return .mem obj
    else read (throw (.malformed "Character code out of range"))
  | .symbol => do
    let n ← read (lenCapped 1)
    let bytes ← read (exact n)
    let sym ← Builds.intern bytes
    read (tablePush sym)
    return .mem sym
  | .string => do
    let n ← read (lenCapped 1)
    let bytes ← read (exact n)
    let s ← read get
    upBytes s.vm.univ.stringKlass n bytes
  | .byteArray => do
    let n ← read (lenCapped 1)
    let bytes ← read (exact n)
    let s ← read get
    upBytes s.vm.univ.bytearrayKlass n bytes
  | .floatArray => do
    let lanes ← read (lenCapped 8)
    let bytes ← read (exact (lanes * 8))
    let s ← read get
    upBytes s.vm.univ.floatArrayKlass (lanes * 8) bytes
  | .largeInt => do
    let neg ← read u8
    if 1 < neg then read (throw (.malformed "LargeInteger sign byte"))
    else
      let n ← read (lenCapped 1)
      let bytes ← read (exact n)
      let s ← read get
      upBytes (if neg = 1 then s.vm.univ.largeNegIntKlass else s.vm.univ.largePosIntKlass) n bytes
  | .array => upArray child
  | .backref => do
    let idx ← read varint
    let s ← read get
    match s.table[idx]? with
    | none => read (throw .badBackRef)
    | some a => return .mem a
  | .object => upObject child

def up : Nat → m Oop
  | 0 => read (throw .tooDeep)
  | room + 1 => do
    let s ← read get
    if MAX_OBJECTS ≤ s.table.length then read (throw .tooManyObjects)
    else
      let tag ← read u8
      match Tag.ofByte tag with
      | none => read (throw (.badTag tag))
      | some tag => upTagged (up room) tag

end build

def unpickle (vm : Vm) (bytes : List UInt8) : Except UnpickleErr (Oop × Vm) :=
  if bytes.take MAGIC.length ≠ MAGIC then .error .badMagic
  else
    match (up MAX_DEPTH : Unpickle Oop) ⟨vm, bytes.drop MAGIC.length, []⟩ with
    | .ok (root, s) => .ok (root, s.vm)
    | .error e => .error e

end WinArmVm.Mop
