import WinArmVm.IntegerExact

namespace WinArmVm

namespace IntegerOop

def isZero (a : IntegerOop) : Bool := a.equal (small 0)

def negative (a : IntegerOop) : Bool := a.less (small 0)

def abs (a : IntegerOop) : IntegerOop := if a.less (small 0) then a.negated else a

def sign (a : IntegerOop) : Int := if a.less (small 0) then -1 else if a.greater (small 0) then 1 else 0

end IntegerOop

namespace LargeInteger

open IntegerOop (small large)

def divModBytes (d : Int) : List Nat → List Nat × Int
  | [] => ([], 0)
  | byte :: bytes =>
    let (q, rem) := divModBytes d bytes
    let part := rem * 256 + byte
    ((part.fdiv d).toNat :: q, part.fmod d)

def divMod (l : LargeInteger) (d : Int) : IntegerOop × IntegerOop :=
  let (q, rem) := divModBytes d l.bytes
  (normalize ⟨false, q⟩, small rem)

/-- The largest digit with `digit * d <= rem`, by binary search. -/
def searchDigit (d rem : IntegerOop) : Nat → Int → Int → Int → Option Int
  | 0, _, _, _ => none
  | fuel + 1, lo, hi, digit =>
    if lo ≤ hi then do
      let mid := (lo + hi).fdiv 2
      if (← (small mid).times d).lessEq rem then searchDigit d rem fuel (mid + 1) hi mid
      else searchDigit d rem fuel lo (mid - 1) digit
    else some digit

def divideBytes (d : IntegerOop) : List Nat → Option (List Nat × IntegerOop)
  | [] => some ([], small 0)
  | byte :: bytes => do
    let (q, rem) ← divideBytes d bytes
    let rem := (← rem.times (small 256)).plus (small byte)
    let digit ← searchDigit d rem 257 0 255 0
    return (digit.toNat :: q, rem.minus (← (small digit).times d))

def longDivision (l : LargeInteger) (d : IntegerOop) : Option (IntegerOop × IntegerOop) := do
  let (q, rem) ← divideBytes d l.bytes
  return (normalize ⟨false, q⟩, rem)

/-- Short division where `256 * d` is still a SmallInteger, long division otherwise. -/
def divideMagnitudeBy (l : LargeInteger) (d : IntegerOop) : Option (IntegerOop × IntegerOop) :=
  if d.isZero then none
  else
    match d with
    | small v => do
      match ← (small v).times (small 256) with
      | small _ => return l.divMod v
      | large _ => l.longDivision d
    | large _ => l.longDivision d

/-- SmallInteger does not understand `divideMagnitudeBy:`. -/
def flooredDivMod (l : LargeInteger) (aNumber : IntegerOop) : Option (IntegerOop × IntegerOop) :=
  if aNumber.isZero then none
  else do
    let negA := (large l).negative
    let negB := aNumber.negative
    let (q, r) ←
      match (large l).abs with
      | small _ => none
      | large m => m.divideMagnitudeBy aNumber.abs
    if r.isZero then return (if negA = negB then q else q.negated, small 0)
    if negA = negB then return (q, if negB then r.negated else r)
    let short := aNumber.abs.minus r
    return ((q.plus (small 1)).negated, if negB then short.negated else short)

end LargeInteger

namespace IntegerOop

open SmallInteger

/-- `//` -/
def floorDiv : IntegerOop → IntegerOop → Option IntegerOop
  | small a, small b => if b = 0 then none else if fits (a.fdiv b) then some (small (a.fdiv b)) else none
  | small _, large _ => none
  | large l, b => (l.flooredDivMod b).map Prod.fst

/-- `\\` -/
def floorMod : IntegerOop → IntegerOop → Option IntegerOop
  | small a, small b => if b = 0 then none else if fits (a.fmod b) then some (small (a.fmod b)) else none
  | small _, large _ => none
  | large l, b => (l.flooredDivMod b).map Prod.snd

def gcdLoop : Nat → IntegerOop → IntegerOop → Option IntegerOop
  | 0, _, _ => none
  | fuel + 1, a, b => if b.isZero then some a else do gcdLoop fuel b (← a.floorMod b)

def gcd (a anInteger : IntegerOop) : Option IntegerOop := gcdLoop (anInteger.toInt.natAbs + 1) a.abs anInteger.abs

def quo (a aNumber : IntegerOop) : Option IntegerOop := do
  (← a.abs.floorDiv aNumber.abs).times (← (small a.sign).times (small aNumber.sign))

def rem (a aNumber : IntegerOop) : Option IntegerOop := do
  return a.minus (← (← a.quo aNumber).times aNumber)

/-- What `Fraction numerator:denominator:` answers. -/
inductive Rational
  | integer (n : IntegerOop)
  | fraction (numerator denominator : IntegerOop)
deriving DecidableEq

/-- `Fraction numerator:denominator:` -/
def fraction (n d : IntegerOop) : Option Rational :=
  if d.equal (small 0) then none
  else do
    let sign := if d.less (small 0) then small (-1) else small 1
    let num ← n.times sign
    let den ← d.times sign
    let g ← num.gcd den
    let num ← num.floorDiv g
    let den ← den.floorDiv g
    return if den.equal (small 1) then .integer num else .fraction num den

def sqrtLoop (n : IntegerOop) : Nat → IntegerOop → IntegerOop → Option IntegerOop
  | 0, _, _ => none
  | fuel + 1, guess, next =>
    if next.less guess then do
      sqrtLoop n fuel next (← (next.plus (← n.floorDiv next)).floorDiv (small 2))
    else some guess

def sqrtFloor (n : IntegerOop) : Option IntegerOop :=
  if n.less (small 0) then none
  else if n.less (small 2) then some n
  else do
    sqrtLoop n (n.toInt.natAbs + 1) n (← (n.plus (← n.floorDiv n)).floorDiv (small 2))

end IntegerOop

end WinArmVm
