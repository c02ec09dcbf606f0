import WinArmVm.MopForgery

namespace WinArmVm.Mop

/-- A slice of bytes; no slice is longer than `isize::MAX`. -/
structure Slice where
  bytes : List UInt8
  small : bytes.length < 2 ^ 63

structure Cursor where
  b : List UInt8
  i : Nat

/-- How a decoding stops early: with an error, by a panic, or out of native stack. -/
inductive Halt
  | err (e : UnpickleErr)
  | panic
  | stack
deriving DecidableEq

/-- A container that was allocated, and how many bytes of input its contents can come from. -/
structure Container where
  slots : Nat
  bytes : Nat
  supply : Nat
deriving DecidableEq

structure Decoder where
  vm : Vm
  cur : Cursor
  table : List Nat
  containers : List Container

abbrev Decode (α : Type) := ExceptT Halt (StateM Decoder) α

def Halt.throw {α : Type} (h : Halt) : Decode α := fun s => (.error h, s)

def Decode.fail {α : Type} (e : UnpickleErr) : Decode α := (Halt.err e).throw

def Decoder.vmOf : Decode Vm := fun s => (.ok s.vm, s)

def Decoder.tableOf : Decode (List Nat) := fun s => (.ok s.table, s)

namespace Cursor

/-- `usize` subtraction. -/
def usizeSub (a b : Nat) : Decode Nat := fun s => if a < b then (.error .panic, s) else (.ok (a - b), s)

/-- `&b[i..e]` -/
def slice (b : List UInt8) (i e : Nat) : Decode (List UInt8) := fun s =>
  if i ≤ e ∧ e ≤ b.length then (.ok ((b.drop i).take (e - i)), s) else (.error .panic, s)

def seek (i : Nat) : Decode Unit := fun s => (.ok (), { s with cur := { s.cur with i := i } })

def get : Decode Cursor := fun s => (.ok s.cur, s)

def u8 : Decode UInt8 := do
  let c ← get
  match c.b[c.i]? with
  | none => Decode.fail .truncated
  | some v =>
    seek (c.i + 1)
    return v

def exact (n : Nat) : Decode (List UInt8) := do
  let c ← get
  if 2 ^ 64 ≤ c.i + n then Decode.fail .truncated
  else if c.b.length < c.i + n then Decode.fail .truncated
  else
    let bytes ← slice c.b c.i (c.i + n)
    seek (c.i + n)
    return bytes

/-- The last `fuel` of the ten rounds; a shift by 64 or more panics. -/
def varintFrom : Nat → Nat → Nat → Decode Nat
  | 0, _, _ => Decode.fail (.malformed "varint too long")
  | fuel + 1, shift, v => do
    let byte ← u8
    if 64 ≤ 7 * shift then Halt.panic.throw
    else
      let v := v ||| ((byte.toNat % 128) <<< (7 * shift)) % 2 ^ 64
      if byte.toNat / 128 = 0 then return v else varintFrom fuel (shift + 1) v

def varint : Decode Nat := varintFrom 10 0 0

def remaining : Decode Nat := do
  let c ← get
  usizeSub c.b.length c.i

def lenCapped (minBytesPer : Nat) : Decode Nat := do
  let n ← varint
  let rest ← remaining
  if 2 ^ 64 ≤ n * max minBytesPer 1 ∨ rest < n * max minBytesPer 1 then Decode.fail .truncated
  else return n

end Cursor

def Body.tail : Body → List UInt8
  | .bytes _ tail => tail
  | _ => []

def Store.Fits (k : Klass) (m : Object) : Store → Prop
  | .bodyOop i _ => i < m.body.named.length
  | .tailOop i _ => k.format = .indexableOops ∧ i < m.body.elements.length
  | .bytes bs => k.format = .indexableBytes ∧ bs.length ≤ m.body.tail.length

instance (k : Klass) (m : Object) (st : Store) : Decidable (st.Fits k m) := by
  cases st
  · exact inferInstanceAs (Decidable (_ < _))
  · exact inferInstanceAs (Decidable (_ ∧ _))
  · exact inferInstanceAs (Decidable (_ ∧ _))

def Store.write : Store → Object → Object
  | .bytes bs => fun m => m.bytesPut (bs ++ m.body.tail.drop bs.length)
  | st => st.apply

namespace Decoder

def alloc (m : Object) : Decode Nat := fun s =>
  (.ok s.vm.heap.length, { s with vm := { s.vm with heap := s.vm.heap ++ [m] } })

/-- A container is recorded with the `taken` bytes of its contents that were read before. -/
def record (slots bytes taken : Nat) : Decode Unit := do
  let rest ← Cursor.remaining
  fun s => (.ok (), { s with containers := s.containers ++ [⟨slots, bytes, taken + rest⟩] })

def intern (bytes : List UInt8) : Decode Nat := do
  let vm ← vmOf
  match vm.symbols.lookup bytes with
  | some a => return a
  | none =>
    record 0 bytes.length bytes.length
    let a ← alloc ⟨vm.univ.symbolKlass, .bytes [] bytes⟩
    fun s => (.ok (), { s with vm := { s.vm with symbols := (bytes, a) :: s.vm.symbols } })
    return a

def store (a : Nat) (st : Store) : Decode Unit := fun s =>
  match s.vm.heap[a]? with
  | none => (.error .panic, s)
  | some m =>
    if st.Fits (s.vm.klasses m.klass) m then
      (.ok (), { s with vm := { s.vm with heap := s.vm.heap.modify a st.write } })
    else (.error .panic, s)

def tablePush (a : Nat) : Decode Unit := fun s => (.ok (), { s with table := s.table ++ [a] })

def allocSlots (k : Nat) : Decode Nat := do
  let vm ← vmOf
  alloc ⟨k, .slots (List.replicate (vm.klasses k).nslots .nilObj)⟩

def allocIndexableOops (k n : Nat) : Decode Nat := do
  let vm ← vmOf
  record ((vm.klasses k).nslots + n) 0 0
  alloc ⟨k, .oops (List.replicate (vm.klasses k).nslots .nilObj) (List.replicate n .nilObj)⟩

def allocIndexableBytes (k n taken : Nat) : Decode Nat := do
  let vm ← vmOf
  record (vm.klasses k).nslots n taken
  alloc ⟨k, .bytes (List.replicate (vm.klasses k).nslots .nilObj) (List.replicate n 0)⟩

def upBytes (klass n : Nat) (bytes : List UInt8) : Decode Oop := do
  let b ← allocIndexableBytes klass n bytes.length
  store b (.bytes bytes)
  tablePush b
  return .mem b

def fill (child : Decode Oop) (put : Nat → Oop → Store) (a : Nat) : Nat → Nat → Decode Unit
  | _, 0 => return
  | i, n + 1 => do
    let c ← child
    store a (put i c)
    fill child put a (i + 1) n

def upArray (child : Decode Oop) : Decode Oop := do
  let n ← Cursor.lenCapped 1
  let vm ← vmOf
  let arr ← allocIndexableOops vm.univ.arrayKlass n
  tablePush arr
  fill child .tailOop arr 0 n
  return .mem arr

def resolveKlass (name : List UInt8) (nslots : Nat) (subkind : Subkind) (idxN : Nat) : Decode Nat := do
  let _ ← intern name
  let vm ← vmOf
  match vm.globals.lookup name with
  | none => Decode.fail (.unknownClass name)
  | some .other => Decode.fail (.notAClass name)
  | some (.klass kls) =>
    if (vm.klasses kls).nslots ≠ nslots then Decode.fail (.shapeMismatch name)
    else if (vm.klasses kls).format ≠ subkind.format then Decode.fail (.shapeMismatch name)
    else if 2 ^ 64 ≤ nslots + idxN then Decode.fail .truncated
    else
      let rest ← Cursor.remaining
      -- The count of the tail is on both sides.
      if rest + idxN < nslots + idxN then Decode.fail .truncated else return kls

def tailLength : Subkind → Decode Nat
  | .slots => return 0
  | .oops | .bytes => Cursor.lenCapped 1

def allocObject (kls idxN : Nat) : Subkind → Decode Nat
  | .slots => do
    let vm ← vmOf
    record (vm.klasses kls).nslots 0 0
    allocSlots kls
  | .oops => allocIndexableOops kls idxN
  | .bytes => allocIndexableBytes kls idxN 0

def fillTail (child : Decode Oop) (obj idxN : Nat) : Subkind → Decode Unit
  | .slots => return
  | .oops => fill child .tailOop obj 0 idxN
  | .bytes => do
    let bytes ← Cursor.exact idxN
    store obj (.bytes bytes)

def upObject (child : Decode Oop) : Decode Oop := do
  let nameLen ← Cursor.lenCapped 1
  let name ← Cursor.exact nameLen
  let nslots ← Cursor.varint
  let subkind ← Cursor.u8
  match Subkind.ofByte subkind with
  | none => Decode.fail (.malformed "bad object subkind")
  | some subkind =>
    let idxN ← tailLength subkind
    let kls ← resolveKlass name nslots subkind idxN
    let obj ← allocObject kls idxN subkind
    tablePush obj
    fill child .bodyOop obj 0 nslots
    fillTail child obj idxN subkind
    return .mem obj

def upSized (klass : Universe → Nat) : Decode Oop := do
  let n ← Cursor.lenCapped 1
  let bytes ← Cursor.exact n
  let vm ← vmOf
  upBytes (klass vm.univ) n bytes

def upTagged (child : Decode Oop) : Tag → Decode Oop
  | .nil => return .nilObj
  | .false => return .falseObj
  | .true => return .trueObj
  | .smi => do
    let u ← Cursor.varint
    if h : SmallInteger.minVal ≤ unzigzag u ∧ unzigzag u ≤ SmallInteger.maxVal then return .smi ⟨unzigzag u, h⟩
    else Decode.fail (.malformed "SmallInteger out of range")
  | .double => do
    let raw ← Cursor.exact 8
    -- `expect("exact(8) is 8 bytes")`
    if raw.length ≠ 8 then Halt.panic.throw
    else
      let vm ← vmOf
      let d ← alloc ⟨vm.univ.doubleKlass, .double (fromLeBytes raw)⟩
      return .mem d
  | .char => do
    let code ← Cursor.varint
    if h : (code : Int) ≤ SmallInteger.maxVal then
      let vm ← vmOf
      let obj ← allocSlots vm.univ.characterKlass
      store obj (.bodyOop 0 (.smi ⟨code, SmallInteger.natCast_inRange code h⟩))
      return .mem obj
    else Decode.fail (.malformed "Character code out of range")
  | .symbol => do
    let n ← Cursor.lenCapped 1
    let bytes ← Cursor.exact n
    let sym ← intern bytes
    tablePush sym
    return .mem sym
  | .string => upSized (·.stringKlass)
  | .byteArray => upSized (·.bytearrayKlass)
  | .floatArray => do
    let lanes ← Cursor.lenCapped 8
    if 2 ^ 64 ≤ lanes * 8 then Halt.panic.throw
    else
      let bytes ← Cursor.exact (lanes * 8)
      let vm ← vmOf
      upBytes vm.univ.floatArrayKlass (lanes * 8) bytes
  | .largeInt => do
    let neg ← Cursor.u8
    if 1 < neg then Decode.fail (.malformed "LargeInteger sign byte")
    else upSized fun u => if neg = 1 then u.largeNegIntKlass else u.largePosIntKlass
  | .array => upArray child
  | .backref => do
    let idx ← Cursor.varint
    let table ← tableOf
    match table[idx]? with
    | none => Decode.fail .badBackRef
    | some a => return .mem a
  | .object => upObject child

def up : Nat → Nat → Decode Oop
  | 0, _ => Halt.stack.throw
  | frames + 1, depth => do
    if MAX_DEPTH ≤ depth then Decode.fail .tooDeep
    else
      let table ← tableOf
      if MAX_OBJECTS ≤ table.length then Decode.fail .tooManyObjects
      else
        let tag ← Cursor.u8
        match Tag.ofByte tag with
        | none => Decode.fail (.badTag tag)
        | some tag => upTagged (up frames (depth + 1)) tag

end Decoder

/-- `unpickle` with room for so many frames. -/
def decode (frames : Nat) (vm : Vm) (bytes : Slice) : Except Halt Oop × Decoder :=
  if bytes.bytes.length < MAGIC.length ∨ bytes.bytes.take MAGIC.length ≠ MAGIC then
    (.error (.err .badMagic), ⟨vm, ⟨bytes.bytes, 0⟩, [], []⟩)
  else Decoder.up frames 0 ⟨vm, ⟨bytes.bytes, MAGIC.length⟩, [], []⟩

end WinArmVm.Mop
