import WinArmVm.Bytecode
import Mathlib.Logic.Embedding.Basic

namespace WinArmVm

open Bytecode

inductive LabelState
  | bound (bci : Nat)
  /-- The places of the 16-bit operands to patch. -/
  | unbound (sites : List Nat)
deriving DecidableEq

def LabelState.isBound : LabelState → Bool
  | .bound _ => true
  | .unbound _ => false

/-- `Obj` is what handles keep hold of; `literalIndex` has the addresses of the moment of insertion,
the newest first. -/
structure BytecodeBuilder (Obj Sel : Type) where
  code : List UInt8
  literals : List Obj
  literalIndex : List (Nat × Nat)
  icSites : List (Sel × UInt8)
  labels : List LabelState
deriving DecidableEq

structure BytecodeMethod (Obj Sel : Type) where
  code : List UInt8
  literals : List Obj
  ics : List (Sel × UInt8)
  selector : Sel
  argc : Nat
  ntemps : Nat
deriving DecidableEq

inductive FwdJump
  | jump
  | brTrue
  | brFalse
deriving DecidableEq

namespace FwdJump

def opcode : FwdJump → Opcode
  | jump => .jumpFwd
  | brTrue => .brTrueFwd
  | brFalse => .brFalseFwd

def instr : FwdJump → Nat → Instr
  | jump => .jumpFwd
  | brTrue => .brTrueFwd
  | brFalse => .brFalseFwd

end FwdJump

def METHOD_ARGC_MAX : Nat := 15

def METHOD_NTEMPS_MAX : Nat := 255

def BCI_SENTINEL_BASE : Nat := 0x7FFF0000

namespace BytecodeBuilder

variable {Obj Sel : Type}

def new : BytecodeBuilder Obj Sel := ⟨[], [], [], [], []⟩

def emit (b : BytecodeBuilder Obj Sel) (op : Opcode) (operand : List UInt8) : BytecodeBuilder Obj Sel :=
  { b with code := b.code ++ op.byte :: operand }

def pushSelf (b : BytecodeBuilder Obj Sel) : BytecodeBuilder Obj Sel := b.emit .pushSelf []
def pushNil (b : BytecodeBuilder Obj Sel) : BytecodeBuilder Obj Sel := b.emit .pushNil []
def pushTrue (b : BytecodeBuilder Obj Sel) : BytecodeBuilder Obj Sel := b.emit .pushTrue []
def pushFalse (b : BytecodeBuilder Obj Sel) : BytecodeBuilder Obj Sel := b.emit .pushFalse []
def pushSmiI8 (b : BytecodeBuilder Obj Sel) (v : UInt8) : BytecodeBuilder Obj Sel := b.emit .pushSmiI8 [v]
def pushTemp (b : BytecodeBuilder Obj Sel) (t : UInt8) : BytecodeBuilder Obj Sel := b.emit .pushTemp [t]
def storeTemp (b : BytecodeBuilder Obj Sel) (t : UInt8) : BytecodeBuilder Obj Sel := b.emit .storeTemp [t]
def storeTempPop (b : BytecodeBuilder Obj Sel) (t : UInt8) : BytecodeBuilder Obj Sel := b.emit .storeTempPop [t]
def pushInstvar (b : BytecodeBuilder Obj Sel) (i : UInt8) : BytecodeBuilder Obj Sel := b.emit .pushInstvar [i]
def storeInstvarPop (b : BytecodeBuilder Obj Sel) (i : UInt8) : BytecodeBuilder Obj Sel := b.emit .storeInstvarPop [i]
def pushCtxTemp (b : BytecodeBuilder Obj Sel) (depth idx : UInt8) : BytecodeBuilder Obj Sel :=
  b.emit .pushCtxTemp [depth, idx]
def storeCtxTempPop (b : BytecodeBuilder Obj Sel) (depth idx : UInt8) : BytecodeBuilder Obj Sel :=
  b.emit .storeCtxTempPop [depth, idx]
def pop (b : BytecodeBuilder Obj Sel) : BytecodeBuilder Obj Sel := b.emit .pop []
def dup (b : BytecodeBuilder Obj Sel) : BytecodeBuilder Obj Sel := b.emit .dup []
def retTos (b : BytecodeBuilder Obj Sel) : BytecodeBuilder Obj Sel := b.emit .returnTos []
def retSelf (b : BytecodeBuilder Obj Sel) : BytecodeBuilder Obj Sel := b.emit .returnSelf []
def blockReturnTos (b : BytecodeBuilder Obj Sel) : BytecodeBuilder Obj Sel := b.emit .blockReturnTos []
def nlrTos (b : BytecodeBuilder Obj Sel) : BytecodeBuilder Obj Sel := b.emit .nlrTos []

/-- `addr` is where the objects are at this moment; a hit counts only if the handle is there too. -/
def internLiteral (b : BytecodeBuilder Obj Sel) (addr : Obj → Nat) (o : Obj) : Nat × BytecodeBuilder Obj Sel :=
  match b.literalIndex.lookup (addr o) with
  | none => (b.literals.length, { b with
      literals := b.literals ++ [o], literalIndex := (addr o, b.literals.length) :: b.literalIndex })
  | some idx =>
    if (b.literals[idx]?).map addr = some (addr o) then (idx, b)
    else (b.literals.length, { b with
      literals := b.literals ++ [o], literalIndex := (addr o, b.literals.length) :: b.literalIndex })

def emitLiteralRef (b : BytecodeBuilder Obj Sel) (idx : Nat) : BytecodeBuilder Obj Sel :=
  if idx ≤ 255 then b.emit .pushLiteral [UInt8.ofNat idx] else b.emit .pushLiteralW (u16 idx)

def pushLiteral (b : BytecodeBuilder Obj Sel) (addr : Obj → Nat) (o : Obj) : BytecodeBuilder Obj Sel :=
  (b.internLiteral addr o).2.emitLiteralRef (b.internLiteral addr o).1

def pushGlobal (b : BytecodeBuilder Obj Sel) (addr : Obj → Nat) (assoc : Obj) : BytecodeBuilder Obj Sel :=
  (b.internLiteral addr assoc).2.emit .pushGlobal [UInt8.ofNat (b.internLiteral addr assoc).1]

def storeGlobalPop (b : BytecodeBuilder Obj Sel) (addr : Obj → Nat) (assoc : Obj) : BytecodeBuilder Obj Sel :=
  (b.internLiteral addr assoc).2.emit .storeGlobalPop [UInt8.ofNat (b.internLiteral addr assoc).1]

/-- Too many send sites fail an assertion. -/
def addSend (b : BytecodeBuilder Obj Sel) (selector : Sel) (argc : UInt8) : Option (Nat × BytecodeBuilder Obj Sel) :=
  if b.icSites.length ≤ 65535 then
    some (b.icSites.length, { b with icSites := b.icSites ++ [(selector, argc)] })
  else none

def emitSend (b : BytecodeBuilder Obj Sel) (opNarrow opWide : Opcode) (selector : Sel) (argc : UInt8) :
    Option (BytecodeBuilder Obj Sel) :=
  (b.addSend selector argc).map fun r =>
    if r.1 ≤ 255 then r.2.emit opNarrow [UInt8.ofNat r.1] else r.2.emit opWide (u16 r.1)

def send (b : BytecodeBuilder Obj Sel) (selector : Sel) (argc : UInt8) : Option (BytecodeBuilder Obj Sel) :=
  b.emitSend .send .sendW selector argc

def sendSuper (b : BytecodeBuilder Obj Sel) (selector : Sel) (argc : UInt8) : Option (BytecodeBuilder Obj Sel) :=
  b.emitSend .sendSuper .sendSuperW selector argc

/-- `checked` is whether debug assertions are compiled in. -/
def pushClosure (checked : Bool) (b : BytecodeBuilder Obj Sel) (lit : Nat) (nValueCaptures : UInt8) :
    Option (BytecodeBuilder Obj Sel) :=
  if checked ∧ 255 < lit then none else some (b.emit .pushClosure [UInt8.ofNat lit, nValueCaptures])

def newLabel (b : BytecodeBuilder Obj Sel) : BytecodeBuilder Obj Sel := { b with labels := b.labels ++ [.unbound []] }

def patch (code : List UInt8) (site distance : Nat) : List UInt8 :=
  (code.set site (UInt8.ofNat distance)).set (site + 1) (UInt8.ofNat (distance >>> 8))

/-- The forward references of a label that is bound at `bci`. -/
def patchAll (bci : Nat) : List Nat → List UInt8 → Option (List UInt8)
  | [], code => some code
  | site :: sites, code =>
    if bci < site + 2 then none
    else if 65535 < bci - (site + 2) then none
    else patchAll bci sites (patch code site (bci - (site + 2)))

def bind (b : BytecodeBuilder Obj Sel) (l : Nat) : Option (BytecodeBuilder Obj Sel) :=
  match b.labels[l]? with
  | none => none
  | some (.bound _) => none
  | some (.unbound sites) =>
    (patchAll b.code.length sites b.code).map fun code =>
      { b with code := code, labels := b.labels.set l (.bound b.code.length) }

def emitFwdJump (b : BytecodeBuilder Obj Sel) (kind : FwdJump) (l : Nat) : Option (BytecodeBuilder Obj Sel) :=
  let operandPos := b.code.length + 1
  match b.labels[l]? with
  | none => none
  | some (.unbound sites) =>
    some { b.emit kind.opcode (u16 0xFFFF) with labels := b.labels.set l (.unbound (sites ++ [operandPos])) }
  | some (.bound target) =>
    if target < operandPos + 2 then none
    else if 65535 < target - (operandPos + 2) then none
    else some (b.emit kind.opcode (u16 (target - (operandPos + 2))))

def jumpBack (b : BytecodeBuilder Obj Sel) (l : Nat) : Option (BytecodeBuilder Obj Sel) :=
  match b.labels[l]? with
  | none => none
  | some (.unbound _) => none
  | some (.bound target) =>
    let nextBci := b.code.length + 3
    if nextBci < target then none
    else if 65535 < nextBci - target then none
    else some (b.emit .jumpBack (u16 (nextBci - target)))

def isReturn : Instr → Bool
  | .returnTos | .returnSelf | .blockReturnTos | .nlrTos => true
  | _ => false

/-- None stands for a failed assertion; `checked` is whether debug assertions are compiled in. -/
def finish (checked : Bool) (b : BytecodeBuilder Obj Sel) (selector : Sel) (argc ntemps : Nat) :
    Option (BytecodeMethod Obj Sel) :=
  if METHOD_ARGC_MAX < argc then none
  else if METHOD_NTEMPS_MAX < ntemps then none
  else if checked ∧ BCI_SENTINEL_BASE ≤ b.code.length then none
  else if ¬ b.labels.all LabelState.isBound then none
  else if b.code = [] then none
  else match (decodeAll b.code).bind List.getLast? with
    | none => none
    | some last =>
      if isReturn last.2.1 then some ⟨b.code, b.literals, b.icSites, selector, argc, ntemps⟩ else none

end BytecodeBuilder

/-- One call on a builder; where literals are interned, `addr` is where the objects are then. -/
inductive BuilderCall (Obj Sel : Type)
  | pushSelf
  | pushNil
  | pushTrue
  | pushFalse
  | pushSmiI8 (v : UInt8)
  | pushTemp (t : UInt8)
  | storeTemp (t : UInt8)
  | storeTempPop (t : UInt8)
  | pushInstvar (i : UInt8)
  | storeInstvarPop (i : UInt8)
  | pushCtxTemp (depth idx : UInt8)
  | storeCtxTempPop (depth idx : UInt8)
  | pop
  | dup
  | retTos
  | retSelf
  | blockReturnTos
  | nlrTos
  | pushLiteral (addr : Obj ↪ Nat) (o : Obj)
  | pushGlobal (addr : Obj ↪ Nat) (assoc : Obj)
  | storeGlobalPop (addr : Obj ↪ Nat) (assoc : Obj)
  | internBlockLiteral (addr : Obj ↪ Nat) (blk : Obj)
  | pushClosure (lit : Nat) (nValueCaptures : UInt8)
  | addSend (selector : Sel) (argc : UInt8)
  | send (selector : Sel) (argc : UInt8)
  | sendSuper (selector : Sel) (argc : UInt8)
  | newLabel
  | bind (l : Nat)
  | fwdJump (kind : FwdJump) (l : Nat)
  | jumpBack (l : Nat)

namespace BytecodeBuilder

variable {Obj Sel : Type} (checked : Bool)

def call (b : BytecodeBuilder Obj Sel) : BuilderCall Obj Sel → Option (BytecodeBuilder Obj Sel)
  | .pushSelf => some b.pushSelf
  | .pushNil => some b.pushNil
  | .pushTrue => some b.pushTrue
  | .pushFalse => some b.pushFalse
  | .pushSmiI8 v => some (b.pushSmiI8 v)
  | .pushTemp t => some (b.pushTemp t)
  | .storeTemp t => some (b.storeTemp t)
  | .storeTempPop t => some (b.storeTempPop t)
  | .pushInstvar i => some (b.pushInstvar i)
  | .storeInstvarPop i => some (b.storeInstvarPop i)
  | .pushCtxTemp depth idx => some (b.pushCtxTemp depth idx)
  | .storeCtxTempPop depth idx => some (b.storeCtxTempPop depth idx)
  | .pop => some b.pop
  | .dup => some b.dup
  | .retTos => some b.retTos
  | .retSelf => some b.retSelf
  | .blockReturnTos => some b.blockReturnTos
  | .nlrTos => some b.nlrTos
  | .pushLiteral addr o => some (b.pushLiteral addr o)
  | .pushGlobal addr assoc => some (b.pushGlobal addr assoc)
  | .storeGlobalPop addr assoc => some (b.storeGlobalPop addr assoc)
  | .internBlockLiteral addr blk => some (b.internLiteral addr blk).2
  | .pushClosure lit n => b.pushClosure checked lit n
  | .addSend selector argc => (b.addSend selector argc).map Prod.snd
  | .send selector argc => b.send selector argc
  | .sendSuper selector argc => b.sendSuper selector argc
  | .newLabel => some b.newLabel
  | .bind l => b.bind l
  | .fwdJump kind l => b.emitFwdJump kind l
  | .jumpBack l => b.jumpBack l

def run (b : BytecodeBuilder Obj Sel) : List (BuilderCall Obj Sel) → Option (BytecodeBuilder Obj Sel)
  | [] => some b
  | c :: cs => (b.call checked c).bind fun b => b.run cs

end BytecodeBuilder

end WinArmVm
