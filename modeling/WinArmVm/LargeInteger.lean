import WinArmVm.DigitArithmetic

namespace WinArmVm

open DigitArithmetic

namespace SmallInteger

def maxVal : Int := 2305843009213693951

def minVal : Int := -2305843009213693952

def fits (v : Int) : Bool := minVal ≤ v && v ≤ maxVal

theorem natCast_inRange (n : Nat) (h : (n : Int) ≤ maxVal) : minVal ≤ n ∧ n ≤ maxVal := by
  refine ⟨?_, h⟩
  unfold minVal
  omega

end SmallInteger

/-- The concrete class is the sign; the bytes are the magnitude, the least significant
first. -/
structure LargeInteger where
  neg : Bool
  bytes : List Nat
deriving DecidableEq, Repr

inductive IntegerOop
  | small (v : Int)
  | large (l : LargeInteger)
deriving DecidableEq, Repr

namespace LargeInteger

/-- The digits of `v` up to the turn that leaves nothing. -/
def peelPositive : Nat → Nat → List Nat
  | 0, _ => []
  | fuel + 1, v => if v = 0 then [] else v % 256 :: peelPositive fuel (v / 256)

def peelNegative : Nat → Int → List Nat
  | 0, _ => []
  | fuel + 1, v =>
    let q := v / 256
    let d := v - q * 256
    d.toNat :: if q = -1 then [] else peelNegative fuel q

def invertAddOne : List Nat → Nat → List Nat
  | [], _ => []
  | d :: ds, carry =>
    let s := 255 - d + carry
    s % 256 :: invertAddOne ds (s / 256)

def fromSmallInteger (n : Int) : LargeInteger :=
  if 0 ≤ n then
    let result := peelPositive n.toNat n.toNat
    ⟨false, if result = [] then [0] else result⟩
  else ⟨true, invertAddOne (peelNegative n.natAbs n) 1⟩

def trimmedTo (l : LargeInteger) (n : Nat) : LargeInteger :=
  if n = l.bytes.length then l else { l with bytes := l.bytes.take n }

/-- From the top: the number read so far and the size without leading zeros; an error is
a number too big already. -/
def normalizeFrom (bytes : List Nat) : Nat → Nat → Nat → Except Nat (Nat × Nat)
  | 0, v, sz => .ok (v, sz)
  | i + 1, v, sz =>
    let d := bytes.getD i 0
    let sz := if sz = 0 ∧ d ≠ 0 then i + 1 else sz
    if SmallInteger.maxVal.toNat >>> 8 < v then .error sz
    else normalizeFrom bytes i ((v <<< 8) + d) sz

def normalize (l : LargeInteger) : IntegerOop :=
  match normalizeFrom l.bytes l.bytes.length 0 0 with
  | .error sz => .large (l.trimmedTo sz)
  | .ok (v, sz) =>
    if l.neg = false then
      if (v : Int) ≤ SmallInteger.maxVal then .small v else .large (l.trimmedTo sz)
    else
      if SmallInteger.minVal ≤ 0 - (v : Int) then .small (0 - v) else .large (l.trimmedTo sz)

def addMagnitude (l b : LargeInteger) : List Nat :=
  addCarry 256 (max l.bytes.length b.bytes.length + 1) l.bytes b.bytes 0

def subMagnitude (l b : LargeInteger) : List Nat := subBorrow 256 l.bytes b.bytes 0

def compareMagnitude (l b : LargeInteger) : Int := compareDigits l.bytes b.bytes

def withSign (bytes : List Nat) (neg : Bool) : IntegerOop := normalize ⟨neg, bytes⟩

end LargeInteger

namespace IntegerOop

def asLargeInteger : IntegerOop → LargeInteger
  | small v => LargeInteger.fromSmallInteger v
  | large l => l

end IntegerOop

namespace LargeInteger

def plus (l : LargeInteger) (other : IntegerOop) : IntegerOop :=
  let b := other.asLargeInteger
  if l.neg = b.neg then withSign (l.addMagnitude b) l.neg
  else if 0 ≤ l.compareMagnitude b then withSign (l.subMagnitude b) l.neg
  else withSign (b.subMagnitude l) b.neg

def negated (l : LargeInteger) : IntegerOop := normalize ⟨!l.neg, l.bytes⟩

def minus (l : LargeInteger) (other : IntegerOop) : IntegerOop := l.plus other.asLargeInteger.negated

/-- `none` is a carry past the last byte. -/
def times (l : LargeInteger) (other : IntegerOop) : Option IntegerOop :=
  let b := other.asLargeInteger
  (mulRows 256 l.bytes b.bytes (List.replicate (l.bytes.length + b.bytes.length) 0)).map (withSign · (l.neg != b.neg))

def less (l : LargeInteger) (other : IntegerOop) : Bool :=
  let b := other.asLargeInteger
  if l.neg ≠ b.neg then l.neg
  else if l.neg = false then l.compareMagnitude b < 0
  else 0 < l.compareMagnitude b

def equal (l : LargeInteger) (other : IntegerOop) : Bool :=
  let b := other.asLargeInteger
  l.neg = b.neg && l.compareMagnitude b = 0

end LargeInteger

namespace IntegerOop

open SmallInteger

def plus : IntegerOop → IntegerOop → IntegerOop
  | small a, small b =>
    if fits (a + b) then small (a + b)
    else (small a).asLargeInteger.plus (large (small b).asLargeInteger)
  | small a, large b => (small a).asLargeInteger.plus (large b)
  | large a, b => a.plus b

def minus : IntegerOop → IntegerOop → IntegerOop
  | small a, small b =>
    if fits (a - b) then small (a - b)
    else (small a).asLargeInteger.minus (large (small b).asLargeInteger)
  | small a, large b => (small a).asLargeInteger.minus (large b)
  | large a, b => a.minus b

def times : IntegerOop → IntegerOop → Option IntegerOop
  | small a, small b =>
    if fits (a * b) then some (small (a * b))
    else (small a).asLargeInteger.times (large (small b).asLargeInteger)
  | small a, large b => (small a).asLargeInteger.times (large b)
  | large a, b => a.times b

def less : IntegerOop → IntegerOop → Bool
  | small a, small b => a < b
  | small a, large b => (small a).asLargeInteger.less (large b)
  | large a, b => a.less b

def equal : IntegerOop → IntegerOop → Bool
  | small a, small b => a = b
  | small a, large b => (small a).asLargeInteger.equal (large b)
  | large a, b => a.equal b

def greater : IntegerOop → IntegerOop → Bool
  | small a, small b => b < a
  | small a, large b => (large b).less (small a)
  | large a, b => b.less (large a)

def lessEq : IntegerOop → IntegerOop → Bool
  | small a, small b => a ≤ b
  | small a, large b => (small a).less (large b) || (small a).equal (large b)
  | large a, b => !b.less (large a)

def greaterEq : IntegerOop → IntegerOop → Bool
  | small a, small b => b ≤ a
  | small a, large b => (small a).greater (large b) || (small a).equal (large b)
  | large a, b => !(large a).less b

/-- `Number>>negated` is `0 - self`; LargeInteger has its own. -/
def negated : IntegerOop → IntegerOop
  | small a => (small 0).minus (small a)
  | large a => a.negated

end IntegerOop

end WinArmVm
