import Mathlib.Data.List.Sort
import WinArmVm.BinarySearch
import WinArmVm.Varint

namespace WinArmVm.ScopeDesc

def writeUleb (v : Nat) : List UInt8 := Varint.write 10 v

def writeSleb (v : Int) : List UInt8 := Varint.writeSigned 10 v

def readUleb : ByteCodec.Reader Nat := ByteCodec.uleb

def readSleb : ByteCodec.Reader Int := fun bs => (ByteCodec.sleb bs).map fun p => (p.1.toInt, p.2)

/-- Where an interpreter-visible value lives in a compiled frame. -/
inductive ValueLoc
  | constPool (ix : UInt32)
  | constSmi (v : Int64)
  | frameSlot (off : Int32)
  | nil
  | elidedClosure (ix : UInt32)
  | doubleSlot (off : Int32)
deriving DecidableEq

namespace ValueLoc

def write : ValueLoc → List UInt8
  | .constPool ix => 0 :: writeUleb ix.toNat
  | .constSmi v => 1 :: writeSleb v.toInt
  | .frameSlot off => 2 :: writeSleb off.toInt
  | .nil => [3]
  | .elidedClosure ix => 4 :: writeUleb ix.toNat
  | .doubleSlot off => 5 :: writeSleb off.toInt

def read : ByteCodec.Reader ValueLoc := do
  let tag ← ByteCodec.byte
  match tag.toNat with
  | 0 => return .constPool (UInt32.ofNat (← readUleb))
  | 1 => return .constSmi (Int64.ofInt (← readSleb))
  | 2 => return .frameSlot (Int32.ofInt (← readSleb))
  | 3 => return .nil
  | 4 => return .elidedClosure (UInt32.ofNat (← readUleb))
  | 5 => return .doubleSlot (Int32.ofInt (← readSleb))
  | _ => failure

end ValueLoc

def writeLocs (locs : List ValueLoc) : List UInt8 := writeUleb locs.length ++ locs.flatMap ValueLoc.write

def readLocs : ByteCodec.Reader (List ValueLoc) := do
  let n ← readUleb
  ByteCodec.count ValueLoc.read n

/-- The heap Context of a scope. -/
inductive CtxLoc
  | none
  | materialized (loc : ValueLoc)
  | elided (temps : List ValueLoc)
deriving DecidableEq

namespace CtxLoc

def kind : CtxLoc → UInt8
  | .none => 0
  | .materialized _ => 1
  | .elided _ => 2

def write : CtxLoc → List UInt8
  | .none => []
  | .materialized loc => loc.write
  | .elided temps => writeLocs temps

def read (kind : UInt8) : ByteCodec.Reader CtxLoc :=
  match kind.toNat with
  | 0 => return .none
  | 1 => return .materialized (← ValueLoc.read)
  | 2 => return .elided (← readLocs)
  | _ => failure

end CtxLoc

structure SenderLink where
  sender : UInt32
  senderBci : UInt16
  pendingStack : List ValueLoc
deriving DecidableEq

structure ScopeDescData where
  methodPoolIx : UInt32
  isBlock : Bool
  sender : Option SenderLink
  receiver : ValueLoc
  slots : List ValueLoc
  ctx : CtxLoc
deriving DecidableEq

inductive SafepointKind
  | call
  | loopPoll
  | alloc
  | uncommonTrap
deriving DecidableEq

namespace SafepointKind

def toBits : SafepointKind → UInt8
  | .call => 0
  | .loopPoll => 1
  | .alloc => 2
  | .uncommonTrap => 3

def fromBits (b : UInt8) : Option SafepointKind :=
  match b.toNat with
  | 0 => some .call
  | 1 => some .loopPoll
  | 2 => some .alloc
  | 3 => some .uncommonTrap
  | _ => Option.none

end SafepointKind

structure SafepointState where
  scope : UInt32
  bci : UInt16
  kind : SafepointKind
  reexecute : Bool
  stack : List ValueLoc
deriving DecidableEq

structure PcDesc where
  codeOff : UInt32
  siteOff : UInt32
deriving DecidableEq

/-- Nothing on a miss, where the code panics. -/
def PcDesc.find (descs : List PcDesc) (codeOff : UInt32) : Option PcDesc :=
  BinarySearch.find (·.codeOff.toNat) descs codeOff.toNat

structure ScopeDescRecorder where
  scopes : List ScopeDescData
  sites : List (UInt32 × SafepointState)

/-- `has_sender | is_block << 1 | ctx_kind << 2` -/
def scopeFlags (scope : ScopeDescData) : UInt8 :=
  scope.sender.isSome.toUInt8 ||| (scope.isBlock.toUInt8 <<< 1) ||| (scope.ctx.kind <<< 2)

/-- Nothing where an index is out of `scope_offs`. -/
def writeSenderLink (scopeOffs : List UInt32) : Option SenderLink → Option (List UInt8)
  | none => some []
  | some link => do
    let off ← scopeOffs[link.sender.toNat]?
    return writeUleb off.toNat ++ writeUleb link.senderBci.toNat ++ writeLocs link.pendingStack

def writeScopeRecord (scope : ScopeDescData) (scopeOffs : List UInt32) : Option (List UInt8) := do
  let link ← writeSenderLink scopeOffs scope.sender
  return scopeFlags scope :: (writeUleb scope.methodPoolIx.toNat ++ link ++ scope.receiver.write ++
    writeLocs scope.slots ++ scope.ctx.write)

def writeSafepointRecord (state : SafepointState) (scopeOffs : List UInt32) : Option (List UInt8) := do
  let off ← scopeOffs[state.scope.toNat]?
  return writeUleb off.toNat ++ writeUleb state.bci.toNat ++
    [state.reexecute.toUInt8 ||| (state.kind.toBits <<< 1)] ++ writeLocs state.stack

namespace ScopeDescRecorder

def new : ScopeDescRecorder := ⟨[], []⟩

/-- Nothing where the debug assertion fails. -/
def beginScope (data : ScopeDescData) (r : ScopeDescRecorder) : Option ScopeDescRecorder :=
  match data.sender with
  | some link =>
    if link.sender.toNat < r.scopes.length then some { r with scopes := r.scopes ++ [data] } else none
  | none => some { r with scopes := r.scopes ++ [data] }

def recordSite (codeOff : UInt32) (state : SafepointState) (r : ScopeDescRecorder) : Option ScopeDescRecorder :=
  if r.scopes.length ≤ state.scope.toNat then none
  else if state.kind = .call ∧ state.reexecute then none
  else some { r with sites := r.sites ++ [(codeOff, state)] }

/-- The scope records, each appended to the blob with its offset in `scope_offs`. -/
def packScopes : List ScopeDescData → List UInt8 → List UInt32 → Option (List UInt8 × List UInt32)
  | [], blob, scopeOffs => some (blob, scopeOffs)
  | scope :: scopes, blob, scopeOffs => do
    let scopeOffs := scopeOffs ++ [UInt32.ofNat blob.length]
    let bytes ← writeScopeRecord scope scopeOffs
    packScopes scopes (blob ++ bytes) scopeOffs

def packSites (scopeOffs : List UInt32) : List (UInt32 × SafepointState) → List UInt8 → List PcDesc →
    Option (List UInt8 × List PcDesc)
  | [], blob, descs => some (blob, descs)
  | (codeOff, state) :: sites, blob, descs => do
    let bytes ← writeSafepointRecord state scopeOffs
    packSites scopeOffs sites (blob ++ bytes) (descs ++ [⟨codeOff, UInt32.ofNat blob.length⟩])

def pack (r : ScopeDescRecorder) : Option (List UInt8 × List PcDesc) := do
  let (blob, scopeOffs) ← packScopes r.scopes [] []
  let (blob, descs) ← packSites scopeOffs r.sites blob []
  return (blob, descs.insertionSort fun d d' => d.codeOff.toNat ≤ d'.codeOff.toNat)

/-- What a compilation asks of the recorder. -/
inductive Call
  | beginScope (data : ScopeDescData)
  | recordSite (codeOff : UInt32) (state : SafepointState)

def call (r : ScopeDescRecorder) : Call → Option ScopeDescRecorder
  | .beginScope data => r.beginScope data
  | .recordSite codeOff state => r.recordSite codeOff state

def run : List Call → ScopeDescRecorder → Option ScopeDescRecorder
  | [], r => some r
  | c :: cs, r => do run cs (← r.call c)

end ScopeDescRecorder

structure DecodedScope where
  methodPoolIx : UInt32
  isBlock : Bool
  sender : Option (UInt32 × UInt16 × List ValueLoc)
  receiver : ValueLoc
  slots : List ValueLoc
  ctx : CtxLoc
deriving DecidableEq

structure DecodedSite where
  scopeOff : UInt32
  bci : UInt16
  kind : SafepointKind
  reexecute : Bool
  stack : List ValueLoc
deriving DecidableEq

def readSender (hasSender : Bool) : ByteCodec.Reader (Option (UInt32 × UInt16 × List ValueLoc)) := do
  if hasSender then
    let senderOff ← readUleb
    let senderBci ← readUleb
    let pending ← readLocs
    return some (UInt32.ofNat senderOff, UInt16.ofNat senderBci, pending)
  else return none

def readScope : ByteCodec.Reader DecodedScope := do
  let flags ← ByteCodec.byte
  let methodPoolIx ← readUleb
  let sender ← readSender (flags &&& 1 ≠ 0)
  let receiver ← ValueLoc.read
  let slots ← readLocs
  let ctx ← CtxLoc.read ((flags >>> 2) &&& 3)
  return ⟨UInt32.ofNat methodPoolIx, flags &&& 2 ≠ 0, sender, receiver, slots, ctx⟩

def readSite : ByteCodec.Reader DecodedSite := do
  let scopeOff ← readUleb
  let bci ← readUleb
  let flags ← ByteCodec.byte
  match SafepointKind.fromBits ((flags >>> 1) &&& 7) with
  | none => failure
  | some kind =>
    let stack ← readLocs
    return ⟨UInt32.ofNat scopeOff, UInt16.ofNat bci, kind, flags &&& 1 ≠ 0, stack⟩

def decodeScope (blob : List UInt8) (off : UInt32) : Option DecodedScope :=
  (readScope (blob.drop off.toNat)).map Prod.fst

def decodeSite (blob : List UInt8) (siteOff : UInt32) : Option DecodedSite :=
  (readSite (blob.drop siteOff.toNat)).map Prod.fst

structure ScopeChainIter where
  blob : List UInt8
  nextOff : Option UInt32

def ScopeChainIter.next (it : ScopeChainIter) : Option (Option DecodedScope × ScopeChainIter) :=
  match it.nextOff with
  | none => some (none, it)
  | some off => do
    let scope ← decodeScope it.blob off
    return (some scope, { it with nextOff := scope.sender.map Prod.fst })

structure DeoptState where
  blob : List UInt8
  site : DecodedSite

namespace DeoptState

def atParts (blob : List UInt8) (pcdescs : List PcDesc) (codeOff : UInt32) : Option DeoptState := do
  let pc ← PcDesc.find pcdescs codeOff
  let site ← decodeSite blob pc.siteOff
  return ⟨blob, site⟩

def scopes (d : DeoptState) : ScopeChainIter := ⟨d.blob, some d.site.scopeOff⟩

end DeoptState

/-- Where an OSR-transferred value comes from in the interpreter frame. -/
inductive OsrSource
  | receiver
  | slot (i : UInt16)
  | stackSlot (i : UInt16)
  | context
deriving DecidableEq

structure OsrSlot where
  src : OsrSource
  dstFrameOff : Int32
deriving DecidableEq

structure OsrMap where
  osrBci : UInt16
  entryOff : UInt32
  frameWords : UInt32
  slots : List OsrSlot
deriving DecidableEq

namespace OsrSource

def write : OsrSource → List UInt8
  | .receiver => writeUleb 0
  | .slot i => writeUleb 1 ++ writeUleb i.toNat
  | .stackSlot i => writeUleb 2 ++ writeUleb i.toNat
  | .context => writeUleb 3

def read : ByteCodec.Reader OsrSource := do
  match ← readUleb with
  | 0 => return .receiver
  | 1 => return .slot (UInt16.ofNat (← readUleb))
  | 2 => return .stackSlot (UInt16.ofNat (← readUleb))
  | 3 => return .context
  | _ => failure

end OsrSource

namespace OsrSlot

def write (s : OsrSlot) : List UInt8 := s.src.write ++ writeUleb (-s.dstFrameOff).toInt64.toUInt64.toNat

def read : ByteCodec.Reader OsrSlot := do
  let src ← OsrSource.read
  return ⟨src, -(UInt32.ofNat (← readUleb)).toInt32⟩

end OsrSlot

namespace OsrMap

def pack (m : OsrMap) : List UInt8 :=
  writeUleb m.osrBci.toNat ++ (writeUleb m.entryOff.toNat ++ (writeUleb m.frameWords.toNat ++
    (writeUleb m.slots.length ++ m.slots.flatMap OsrSlot.write)))

def unpack : ByteCodec.Reader OsrMap := do
  let osrBci ← readUleb
  let entryOff ← readUleb
  let frameWords ← readUleb
  let n ← readUleb
  return ⟨UInt16.ofNat osrBci, UInt32.ofNat entryOff, UInt32.ofNat frameWords, ← ByteCodec.count OsrSlot.read n⟩

end OsrMap

end WinArmVm.ScopeDesc
