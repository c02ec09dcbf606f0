import Mathlib.Data.List.Basic
import Mathlib.Data.Nat.Bitwise

namespace WinArmVm

inductive Opcode
  | pushSelf
  | pushNil
  | pushTrue
  | pushFalse
  | pushSmiI8
  | pushLiteral
  | pushTemp
  | storeTemp
  | storeTempPop
  | pushInstvar
  | storeInstvarPop
  | pushGlobal
  | storeGlobalPop
  | pop
  | dup
  | pushCtxTemp
  | storeCtxTempPop
  | pushClosure
  | pushLiteralW
  | send
  | sendSuper
  | sendW
  | sendSuperW
  | jumpFwd
  | jumpBack
  | brTrueFwd
  | brFalseFwd
  | returnTos
  | returnSelf
  | blockReturnTos
  | nlrTos
deriving DecidableEq

namespace Opcode

def byte : Opcode → UInt8
  | pushSelf => 0x00
  | pushNil => 0x01
  | pushTrue => 0x02
  | pushFalse => 0x03
  | pushSmiI8 => 0x04
  | pushLiteral => 0x05
  | pushTemp => 0x06
  | storeTemp => 0x07
  | storeTempPop => 0x08
  | pushInstvar => 0x09
  | storeInstvarPop => 0x0A
  | pushGlobal => 0x0B
  | storeGlobalPop => 0x0C
  | pop => 0x0D
  | dup => 0x0E
  | pushCtxTemp => 0x0F
  | storeCtxTempPop => 0x10
  | pushClosure => 0x11
  | pushLiteralW => 0x12
  | send => 0x20
  | sendSuper => 0x21
  | sendW => 0x22
  | sendSuperW => 0x23
  | jumpFwd => 0x30
  | jumpBack => 0x31
  | brTrueFwd => 0x32
  | brFalseFwd => 0x33
  | returnTos => 0x40
  | returnSelf => 0x41
  | blockReturnTos => 0x42
  | nlrTos => 0x43

def all : List Opcode :=
  [pushSelf, pushNil, pushTrue, pushFalse, pushSmiI8, pushLiteral, pushTemp, storeTemp, storeTempPop, pushInstvar,
    storeInstvarPop, pushGlobal, storeGlobalPop, pop, dup, pushCtxTemp, storeCtxTempPop, pushClosure, pushLiteralW,
    send, sendSuper, sendW, sendSuperW, jumpFwd, jumpBack, brTrueFwd, brFalseFwd, returnTos, returnSelf,
    blockReturnTos, nlrTos]

def ofByte (b : UInt8) : Option Opcode := all.find? (·.byte = b)

@[simp] theorem ofByte_byte (op : Opcode) : ofByte op.byte = some op := by
  cases op <;> rfl

end Opcode

/-- The decoded form; literal and send operands are widened. -/
inductive Instr
  | pushSelf
  | pushNil
  | pushTrue
  | pushFalse
  | pushSmi (v : UInt8)
  | pushLiteral (idx : Nat)
  | pushTemp (t : UInt8)
  | storeTemp (t : UInt8)
  | storeTempPop (t : UInt8)
  | pushInstvar (i : UInt8)
  | storeInstvarPop (i : UInt8)
  | pushGlobal (idx : UInt8)
  | storeGlobalPop (idx : UInt8)
  | pop
  | dup
  | pushCtxTemp (depth idx : UInt8)
  | storeCtxTempPop (depth idx : UInt8)
  | pushClosure (lit ncopied : UInt8)
  | send (ic : Nat) (isSuper : Bool)
  | jumpFwd (distance : Nat)
  | jumpBack (distance : Nat)
  | brTrueFwd (distance : Nat)
  | brFalseFwd (distance : Nat)
  | returnTos
  | returnSelf
  | blockReturnTos
  | nlrTos
deriving DecidableEq

namespace Bytecode

def u16 (v : Nat) : List UInt8 := [UInt8.ofNat v, UInt8.ofNat (v >>> 8)]

def readU16 (lo hi : UInt8) : Nat := lo.toNat ||| (hi.toNat <<< 8)

/-- The instruction at the front of the bytes and its width; none where the operand is cut off. -/
def decodeOp : Opcode → List UInt8 → Option (Instr × Nat)
  | .pushSelf, _ => some (.pushSelf, 1)
  | .pushNil, _ => some (.pushNil, 1)
  | .pushTrue, _ => some (.pushTrue, 1)
  | .pushFalse, _ => some (.pushFalse, 1)
  | .pushSmiI8, a :: _ => some (.pushSmi a, 2)
  | .pushLiteral, a :: _ => some (.pushLiteral a.toNat, 2)
  | .pushTemp, a :: _ => some (.pushTemp a, 2)
  | .storeTemp, a :: _ => some (.storeTemp a, 2)
  | .storeTempPop, a :: _ => some (.storeTempPop a, 2)
  | .pushInstvar, a :: _ => some (.pushInstvar a, 2)
  | .storeInstvarPop, a :: _ => some (.storeInstvarPop a, 2)
  | .pushGlobal, a :: _ => some (.pushGlobal a, 2)
  | .storeGlobalPop, a :: _ => some (.storeGlobalPop a, 2)
  | .pop, _ => some (.pop, 1)
  | .dup, _ => some (.dup, 1)
  | .pushCtxTemp, a :: b :: _ => some (.pushCtxTemp a b, 3)
  | .storeCtxTempPop, a :: b :: _ => some (.storeCtxTempPop a b, 3)
  | .pushClosure, a :: b :: _ => some (.pushClosure a b, 3)
  | .pushLiteralW, a :: b :: _ => some (.pushLiteral (readU16 a b), 3)
  | .send, a :: _ => some (.send a.toNat false, 2)
  | .sendSuper, a :: _ => some (.send a.toNat true, 2)
  | .sendW, a :: b :: _ => some (.send (readU16 a b) false, 3)
  | .sendSuperW, a :: b :: _ => some (.send (readU16 a b) true, 3)
  | .jumpFwd, a :: b :: _ => some (.jumpFwd (readU16 a b), 3)
  | .jumpBack, a :: b :: _ => some (.jumpBack (readU16 a b), 3)
  | .brTrueFwd, a :: b :: _ => some (.brTrueFwd (readU16 a b), 3)
  | .brFalseFwd, a :: b :: _ => some (.brFalseFwd (readU16 a b), 3)
  | .returnTos, _ => some (.returnTos, 1)
  | .returnSelf, _ => some (.returnSelf, 1)
  | .blockReturnTos, _ => some (.blockReturnTos, 1)
  | .nlrTos, _ => some (.nlrTos, 1)
  | _, [] => none
  | _, [_] => none

def decode : List UInt8 → Option (Instr × Nat)
  | [] => none
  | b :: bs => (Opcode.ofByte b).bind fun op => decodeOp op bs

/-- The instruction at `bci` and the place of the next one; none stands for a panic. -/
def decodeAt (code : List UInt8) (bci : Nat) : Option (Instr × Nat) :=
  (decode (code.drop bci)).map fun r => (r.1, bci + r.2)

/-- The walk from `bci` to the end of the code: each instruction with its place and the next one. -/
def decodeFrom (code : List UInt8) : Nat → Nat → Option (List (Nat × Instr × Nat))
  | 0, _ => none
  | turns + 1, bci =>
    if code.length ≤ bci then some []
    else do
      let r ← decodeAt code bci
      let rest ← decodeFrom code turns r.2
      return (bci, r.1, r.2) :: rest

def decodeAll (code : List UInt8) : Option (List (Nat × Instr × Nat)) := decodeFrom code (code.length + 1) 0

theorem readU16_u16_mod (v : Nat) : readU16 (UInt8.ofNat v) (UInt8.ofNat (v >>> 8)) = v % 2 ^ 16 := by
  unfold readU16
  have hlo : (UInt8.ofNat v).toNat = v % 256 := UInt8.toNat_ofNat'
  have hhi : (UInt8.ofNat (v >>> 8)).toNat = v / 256 % 256 := by
    rw [UInt8.toNat_ofNat', Nat.shiftRight_eq_div_pow]
  have hlt : v % 256 < 2 ^ 8 := by omega
  rw [hlo, hhi, Nat.shiftLeft_eq, Nat.or_comm, Nat.mul_comm, ← Nat.two_pow_add_eq_or_of_lt hlt]
  omega

theorem readU16_u16 {v : Nat} (h : v < 2 ^ 16) : readU16 (UInt8.ofNat v) (UInt8.ofNat (v >>> 8)) = v := by
  rw [readU16_u16_mod, Nat.mod_eq_of_lt h]

end Bytecode

end WinArmVm
