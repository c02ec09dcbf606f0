import WinArmVm.IntegerAnswers
import Mathlib.Data.List.Basic
import Mathlib.Data.Int.Order.Basic

namespace WinArmVm

open Int List Option

/-- An arithmetic progression of the integers, from `start` on and not past `stop`. -/
structure Progression where
  start : Int
  stop : Int
  step : Int
deriving DecidableEq, Repr

namespace Progression

variable (r : Progression)

def size : Int :=
  if r.step > 0 then max ((r.stop - r.start).fdiv r.step + 1) 0 else max ((r.start - r.stop).fdiv (0 - r.step) + 1) 0

def elements : List Int := (List.range r.size.toNat).map fun k : Nat => r.start + (k : Int) * r.step

variable {r}

theorem size_nonneg : 0 ≤ r.size := by
  unfold size
  split
  next => exact le_max_right ..
  next => exact le_max_right ..

theorem lt_size_iff (hstep : r.step ≠ 0) (k : Nat) : (k : Int) < r.size ↔
    if r.step < 0 then r.start + k * r.step ≥ r.stop else r.start + k * r.step ≤ r.stop := by
  unfold size
  by_cases hpos : r.step > 0
  · have hquot : (k : Int) ≤ (r.stop - r.start).fdiv r.step ↔ k * r.step ≤ r.stop - r.start := by
      rw [Int.fdiv_eq_ediv_of_nonneg _ (by omega), Int.le_ediv_iff_mul_le hpos]
    rw [if_pos hpos, if_neg (by omega)]
    omega
  · have hneg : 0 < 0 - r.step := by omega
    have hquot : (k : Int) ≤ (r.start - r.stop).fdiv (0 - r.step) ↔ k * (0 - r.step) ≤ r.start - r.stop := by
      rw [Int.fdiv_eq_ediv_of_nonneg _ (by omega), Int.le_ediv_iff_mul_le hneg]
    have hmul : (k : Int) * (0 - r.step) = -(k * r.step) := by rw [Int.zero_sub, Int.mul_neg]
    rw [if_neg hpos, if_pos (by omega)]
    omega

theorem length_elements : r.elements.length = r.size.toNat := by simp [elements]

theorem getElem_elements {k : Nat} (hk : k < r.elements.length) : r.elements[k] = r.start + (k : Int) * r.step := by
  simp [elements]

theorem mem_elements {x : Int} : x ∈ r.elements ↔ ∃ k : Nat, (k : Int) < r.size ∧ x = r.start + k * r.step := by
  unfold elements
  rw [List.mem_map]
  constructor
  · rintro ⟨k, hk, rfl⟩
    have := mem_range.mp hk
    exact ⟨k, by omega, rfl⟩
  · rintro ⟨k, hk, rfl⟩
    exact ⟨k, mem_range.mpr (by omega), rfl⟩

theorem exists_turn {x : Int} (hmod : (x - r.start).fmod r.step = 0)
    (hside : r.step > 0 ∧ x ≥ r.start ∨ r.step < 0 ∧ x ≤ r.start) : ∃ k : Nat, x = r.start + k * r.step := by
  obtain ⟨q, hq⟩ := dvd_of_fmod_eq_zero hmod
  have hnonneg : 0 ≤ q := by
    obtain ⟨hpos, hx⟩ | ⟨hneg, hx⟩ := hside
    · exact nonneg_of_mul_nonneg_right (by omega : 0 ≤ r.step * q) hpos
    · exact nonneg_of_mul_nonpos_right (by omega : r.step * q ≤ 0) hneg
  obtain ⟨k, rfl⟩ := eq_ofNat_of_zero_le hnonneg
  exact ⟨k, by rw [mul_comm] at hq; omega⟩

variable (r) in
/-- Between the ends of the progression. -/
def Within (x : Int) : Prop := if r.step > 0 then r.start ≤ x ∧ x ≤ r.stop else x ≤ r.start ∧ r.stop ≤ x

theorem within_of_lt_size (hstep : r.step ≠ 0) {k : Nat} (hk : (k : Int) < r.size) : r.Within (r.start + k * r.step) := by
  have hin := (lt_size_iff hstep k).mp hk
  unfold Within
  split
  next hpos =>
    have hle : 0 ≤ (k : Int) * r.step := mul_nonneg (natCast_nonneg k) (by omega)
    rw [if_neg (by omega)] at hin
    exact ⟨by omega, hin⟩
  next hneg =>
    have hle : (k : Int) * r.step ≤ 0 := mul_nonpos_of_nonneg_of_nonpos (natCast_nonneg k) (by omega)
    rw [if_pos (by omega)] at hin
    exact ⟨by omega, hin⟩

theorem mem_elements_iff (hstep : r.step ≠ 0) (x : Int) : x ∈ r.elements ↔ r.Within x ∧ (x - r.start).fmod r.step = 0 := by
  rw [mem_elements]
  constructor
  · rintro ⟨k, hk, rfl⟩
    exact ⟨within_of_lt_size hstep hk, fmod_eq_zero_of_dvd ⟨k, by rw [mul_comm]; omega⟩⟩
  · rintro ⟨hwithin, hmod⟩
    unfold Within at hwithin
    split at hwithin
    next hpos =>
      obtain ⟨k, rfl⟩ := exists_turn hmod (.inl ⟨hpos, hwithin.1⟩)
      refine ⟨k, (lt_size_iff hstep k).mpr ?_, rfl⟩
      rw [if_neg (by omega)]
      exact hwithin.2
    next hneg =>
      obtain ⟨k, rfl⟩ := exists_turn hmod (.inr ⟨by omega, hwithin.1⟩)
      refine ⟨k, (lt_size_iff hstep k).mpr ?_, rfl⟩
      rw [if_pos (by omega)]
      exact hwithin.2

end Progression

namespace IntegerOop

variable (a b : IntegerOop)

def AddsExactly : Prop := (a.plus b).Is (a.toInt + b.toInt)

def SubtractsExactly : Prop := (a.minus b).Is (a.toInt - b.toInt)

def MultipliesExactly : Prop := ∃ r, a.times b = some r ∧ r.Is (a.toInt * b.toInt)

def DividesExactly : Prop := ∃ q, a.floorDiv b = some q ∧ q.Is (a.toInt.fdiv b.toInt)

def RemaindersExactly : Prop := ∃ m, a.floorMod b = some m ∧ m.Is (a.toInt.fmod b.toInt)

section Small

open SmallInteger

variable {x y : Int}

theorem adds_small (h : fits (x + y) = true) : (small x).AddsExactly (small y) := by
  rw [AddsExactly, small_plus h]
  exact Is.small h

theorem subtracts_small (h : fits (x - y) = true) : (small x).SubtractsExactly (small y) := by
  rw [SubtractsExactly, small_minus h]
  exact Is.small h

theorem multiplies_small (h : fits (x * y) = true) : (small x).MultipliesExactly (small y) :=
  ⟨_, small_times h, Is.small h⟩

theorem divides_small (hx : fits x = true) (hy : 0 < y) : (small x).DividesExactly (small y) := by
  have hmin : ¬ (x = minVal ∧ y = -1) := by omega
  have hfit := (fits_fdiv hx (by omega)).mpr hmin
  refine ⟨small (x.fdiv y), ?_, Is.small hfit⟩
  rw [floorDiv_small, if_neg (by omega), if_pos hfit]

theorem remainders_small (hy : y ≠ 0) (hfits : fits y = true) : (small x).RemaindersExactly (small y) := by
  have hfit := fits_fmod (x := x) hy hfits
  refine ⟨small (x.fmod y), ?_, Is.small hfit⟩
  rw [floorMod_small, if_neg hy, if_pos hfit]

end Small

/-- `max:` of Magnitude -/
def max (aMagnitude : IntegerOop) : IntegerOop := if a.less aMagnitude then aMagnitude else a

/-- `between:and:` of Magnitude -/
def between (lo hi : IntegerOop) : Bool := a.greaterEq lo && a.lessEq hi

end IntegerOop

open IntegerOop (small)

/-- An interval of integers. The answers are `none` where an error is signalled. -/
structure Interval where
  start : IntegerOop
  stop : IntegerOop
  step : IntegerOop
deriving DecidableEq, Repr

namespace Interval

variable (r : Interval)

def size : Option IntegerOop :=
  if r.step.greater (small 0) then do
    let quotient ← (r.stop.minus r.start).floorDiv r.step
    some ((quotient.plus (small 1)).max (small 0))
  else do
    let quotient ← (r.start.minus r.stop).floorDiv ((small 0).minus r.step)
    some ((quotient.plus (small 1)).max (small 0))

def «at» (i : IntegerOop) : Option IntegerOop := do
  let n ← r.size
  if i.between (small 1) n then do
    let offset ← (i.minus (small 1)).times r.step
    some (r.start.plus offset)
  else none

def first : IntegerOop := r.start

def last : Option IntegerOop := do
  let n ← r.size
  r.at n

/-- The values that `do:` hands to its block; none where the turns do not suffice. -/
def doFrom (n step : IntegerOop) : Nat → IntegerOop → IntegerOop → Option (List IntegerOop)
  | 0, _, _ => none
  | turns + 1, i, v =>
    if i.less n then (doFrom n step turns (i.plus (small 1)) (v.plus step)).map (v :: ·) else some []

def «do» (turns : Nat) : Option (List IntegerOop) := do
  let n ← r.size
  doFrom n r.step turns (small 0) r.start

def includes (anObject : IntegerOop) : Option Bool :=
  if r.step.greater (small 0) then
    if anObject.greaterEq r.start && anObject.lessEq r.stop then
      ((anObject.minus r.start).floorMod r.step).map fun m => m.equal (small 0)
    else some false
  else
    if anObject.lessEq r.start && anObject.greaterEq r.stop then
      ((anObject.minus r.start).floorMod r.step).map fun m => m.equal (small 0)
    else some false

def collectFrom {β : Type} (aBlock : IntegerOop → β) (n : IntegerOop) : Nat → IntegerOop → Option (List β)
  | 0, _ => none
  | turns + 1, i =>
    if i.lessEq n then do
      let v ← r.at i
      let rest ← collectFrom aBlock n turns (i.plus (small 1))
      some (aBlock v :: rest)
    else some []

def collect {β : Type} (aBlock : IntegerOop → β) (turns : Nat) : Option (List β) := do
  let n ← r.size
  r.collectFrom aBlock n turns (small 1)

/-- The values that `to:by:do:` hands to its block; none where the turns do not suffice. -/
def toByDo (stop step : IntegerOop) : Nat → IntegerOop → Option (List IntegerOop)
  | 0, _ => none
  | turns + 1, i =>
    if (if step.less (small 0) then i.greaterEq stop else i.lessEq stop) then
      (toByDo stop step turns (i.plus step)).map (i :: ·)
    else some []

def ints : Progression := ⟨r.start.toInt, r.stop.toInt, r.step.toInt⟩

def elements : List Int := r.ints.elements

/-- The messages tell of one sequence of integers. -/
structure Describes (xs : List Int) : Prop where
  size : ∃ n, r.size = some n ∧ n.Is xs.length
  «at» : ∀ i z, i.Is z → (r.at i).map IntegerOop.toInt = if 1 ≤ z then xs[(z - 1).toNat]? else none
  «do» : ∀ turns, xs.length < turns → (r.do turns).map (List.map IntegerOop.toInt) = some xs
  collect : ∀ {β : Type} (aBlock : IntegerOop → β) turns, xs.length < turns →
    ∃ vs : List IntegerOop, r.collect aBlock turns = some (vs.map aBlock) ∧ vs.map IntegerOop.toInt = xs
  includes : ∀ x : IntegerOop, x.Answered → r.includes x = some (decide (x.toInt ∈ xs))
  last : r.last.map IntegerOop.toInt = xs.getLast?
  toByDo : ∀ turns, xs.length < turns →
    (Interval.toByDo r.stop r.step turns r.start).map (List.map IntegerOop.toInt) = some xs

/-- The arithmetic of integers answers exactly what the messages ask of it: no carry is lost, and no
SmallInteger is divided by a LargeInteger. -/
structure Exact : Prop where
  start : r.start.Answered
  stop : r.stop.Answered
  step : r.step.Answered
  nonzero : r.step.toInt ≠ 0
  up : 0 < r.step.toInt → r.stop.SubtractsExactly r.start ∧ (r.stop.minus r.start).DividesExactly r.step
  down : r.step.toInt < 0 → r.start.SubtractsExactly r.stop ∧ (small 0).SubtractsExactly r.step ∧
    (r.start.minus r.stop).DividesExactly ((small 0).minus r.step)
  offset : ∀ k : IntegerOop, k.Answered → 0 ≤ k.toInt → k.toInt < r.ints.size → k.MultipliesExactly r.step
  nth : ∀ d : IntegerOop, d.Answered → r.start.toInt + d.toInt ∈ r.elements → r.start.AddsExactly d
  next : ∀ v : IntegerOop, v.Answered → v.toInt ∈ r.elements → v.AddsExactly r.step
  member : ∀ x : IntegerOop, x.Answered → r.ints.Within x.toInt →
    x.SubtractsExactly r.start ∧ (x.minus r.start).RemaindersExactly r.step

namespace Exact

variable {r}

theorem zero_answered : (small 0).Answered := (rfl : SmallInteger.fits 0 = true)

theorem one_answered : (small 1).Answered := (rfl : SmallInteger.fits 1 = true)

theorem length_eq : (r.elements.length : Int) = r.ints.size := by
  have hsize := @Progression.size_nonneg r.ints
  have hlen := @Progression.length_elements r.ints
  show ((r.ints.elements.length : Nat) : Int) = _
  omega

theorem drop_eq {v : IntegerOop} {k : Nat} (hk : k < r.elements.length) (hv : v.Is (r.start.toInt + k * r.step.toInt)) :
    r.elements.drop k = v.toInt :: r.elements.drop (k + 1) := by
  rw [drop_eq_getElem_cons hk, hv.value]
  congr 1
  exact Progression.getElem_elements hk

variable (h : r.Exact)

include h

theorem up_iff : r.step.greater (small 0) = decide (0 < r.step.toInt) := h.step.greater zero_answered

theorem size_is : ∃ n, r.size = some n ∧ n.Is r.ints.size := by
  have hclip {q : IntegerOop} {z : Int} (hq : q.Is z) : ((q.plus (small 1)).max (small 0)).Is (max (z + 1) 0) := by
    have hplus := IntegerOop.Is.plus_const hq.answered.valid (by decide : (0 : Int) ≤ 1) (by decide)
    rw [hq.value] at hplus
    unfold IntegerOop.max
    rw [hplus.answered.less zero_answered, hplus.value]
    by_cases hneg : z + 1 < 0
    · rw [decide_eq_true (show z + 1 < (small 0).toInt from hneg), if_pos rfl, Int.max_eq_right (by omega)]
      exact IntegerOop.Is.small (by decide)
    · rw [decide_eq_false (show ¬ z + 1 < (small 0).toInt from hneg), if_neg (by decide), Int.max_eq_left (by omega)]
      exact hplus
  unfold Interval.size Progression.size
  rw [h.up_iff]
  by_cases hpos : 0 < r.step.toInt
  · obtain ⟨hwidth, q, hq, hqi⟩ := h.up hpos
    rw [hwidth.value] at hqi
    refine ⟨(q.plus (small 1)).max (small 0), ?_, ?_⟩
    · rw [if_pos (decide_eq_true hpos), hq]
      rfl
    · rw [if_pos (show r.ints.step > 0 from hpos)]
      exact hclip hqi
  · obtain ⟨hwidth, hstep, q, hq, hqi⟩ := h.down (by have := h.nonzero; omega)
    rw [hwidth.value, hstep.value] at hqi
    refine ⟨(q.plus (small 1)).max (small 0), ?_, ?_⟩
    · rw [if_neg (by rw [decide_eq_true_eq]; exact hpos), hq]
      rfl
    · rw [if_neg (show ¬ r.ints.step > 0 from hpos)]
      exact hclip hqi

theorem at_is {i : IntegerOop} {z : Int} (hi : i.Is z) :
    (r.at i).map IntegerOop.toInt = if 1 ≤ z then r.elements[(z - 1).toNat]? else none := by
  obtain ⟨n, hn, hni⟩ := h.size_is
  have hlen := @length_eq r
  have hbetween : i.between (small 1) n = decide (1 ≤ z ∧ z ≤ r.ints.size) := by
    unfold IntegerOop.between
    rw [hi.answered.greaterEq one_answered, hi.answered.lessEq hni.answered, hi.value, hni.value, ← Bool.decide_and]
    rfl
  unfold Interval.at
  rw [hn]
  simp only [bind_eq_bind, bind_some, hbetween]
  by_cases hin : 1 ≤ z ∧ z ≤ r.ints.size
  · have hk : (z - 1).toNat < r.elements.length := by omega
    have hone : (i.minus (small 1)).Is (z - 1) := hi.minus_const (by decide) (by decide) (by
      intro hpower
      have := hpower.bounds
      omega)
    obtain ⟨d, hd, hdi⟩ := h.offset _ hone.answered (by rw [hone.value]; omega) (by rw [hone.value]; omega)
    rw [hone.value] at hdi
    have hget : r.elements[(z - 1).toNat] = r.start.toInt + d.toInt := by
      rw [hdi.value]
      refine (Progression.getElem_elements hk).trans ?_
      rw [toNat_of_nonneg (by omega)]
      rfl
    have hadd := h.nth d hdi.answered (hget ▸ getElem_mem hk)
    rw [if_pos (decide_eq_true hin), hd, if_pos hin.1, getElem?_eq_getElem hk, hget]
    exact congrArg some hadd.value
  · rw [if_neg (by rw [decide_eq_true_eq]; exact hin)]
    split
    next hone => rw [getElem?_eq_none (by omega)]; rfl
    next => rfl

theorem next_is {v : IntegerOop} {k : Nat} (hk : k < r.elements.length) (hv : v.Is (r.start.toInt + k * r.step.toInt)) :
    (v.plus r.step).Is (r.start.toInt + ((k + 1 : Nat) : Int) * r.step.toInt) := by
  have hmem : v.toInt ∈ r.elements := by
    rw [hv.value]
    exact mem_of_getElem (Progression.getElem_elements hk)
  have hnext := h.next v hv.answered hmem
  have hvalue : v.toInt + r.step.toInt = r.start.toInt + ((k + 1 : Nat) : Int) * r.step.toInt := by
    rw [hv.value, natCast_succ, add_mul, one_mul, add_assoc]
  rw [← hvalue]
  exact hnext

theorem start_is : r.start.Is (r.start.toInt + ((0 : Nat) : Int) * r.step.toInt) := ⟨h.start, by simp⟩

theorem doFrom_is {n : IntegerOop} (hn : n.Is r.ints.size) (turns k : Nat) {i v : IntegerOop} (hk : k ≤ r.elements.length)
    (hturns : r.elements.length < turns + k) (hi : i.Is k) (hv : v.Is (r.start.toInt + k * r.step.toInt)) :
    (doFrom n r.step turns i v).map (List.map IntegerOop.toInt) = some (r.elements.drop k) := by
  have hlen := @length_eq r
  induction turns generalizing k i v with
  | zero => omega
  | succ turns ih =>
    rw [doFrom, hi.answered.less hn.answered, hi.value, hn.value]
    by_cases hlt : k < r.elements.length
    · have hsucc : (i.plus (small 1)).Is ((k + 1 : Nat) : Int) := by
        have hplus := IntegerOop.Is.plus_const hi.answered.valid (by decide : (0 : Int) ≤ 1) (by decide)
        rw [hi.value] at hplus
        exact hplus
      have hrest := ih (k + 1) hlt (by omega) hsucc (h.next_is hlt hv)
      obtain ⟨vs, hvs, hmap⟩ := map_eq_some_iff.mp hrest
      rw [if_pos (decide_eq_true (by omega)), hvs, drop_eq hlt hv, ← hmap]
      rfl
    · rw [if_neg (by rw [decide_eq_true_eq]; omega), drop_of_length_le (by omega)]
      rfl

theorem toByDo_is (turns k : Nat) {v : IntegerOop} (hk : k ≤ r.elements.length) (hturns : r.elements.length < turns + k)
    (hv : v.Is (r.start.toInt + k * r.step.toInt)) :
    (Interval.toByDo r.stop r.step turns v).map (List.map IntegerOop.toInt) = some (r.elements.drop k) := by
  have hlen := @length_eq r
  induction turns generalizing k v with
  | zero => omega
  | succ turns ih =>
    have htest : (if r.step.less (small 0) then v.greaterEq r.stop else v.lessEq r.stop) = decide (k < r.elements.length) := by
      rw [h.step.less zero_answered, hv.answered.greaterEq h.stop, hv.answered.lessEq h.stop, hv.value]
      have hin := Progression.lt_size_iff (r := r.ints) h.nonzero k
      rw [← hlen, Nat.cast_lt] at hin
      by_cases hneg : r.step.toInt < 0
      · have hdown : decide (r.step.toInt < (small 0).toInt) = true := decide_eq_true hneg
        rw [if_pos hdown, decide_eq_decide, hin, if_pos (show r.ints.step < 0 from hneg)]
        rfl
      · have hup : ¬ decide (r.step.toInt < (small 0).toInt) = true := by rw [decide_eq_true_eq]; exact hneg
        rw [if_neg hup, decide_eq_decide, hin, if_neg (show ¬ r.ints.step < 0 from hneg)]
        rfl
    rw [Interval.toByDo, htest]
    by_cases hlt : k < r.elements.length
    · obtain ⟨vs, hvs, hmap⟩ := map_eq_some_iff.mp (ih (k + 1) hlt (by omega) (h.next_is hlt hv))
      rw [if_pos (decide_eq_true hlt), hvs, drop_eq hlt hv, ← hmap]
      rfl
    · rw [if_neg (by rw [decide_eq_true_eq]; exact hlt), drop_of_length_le (by omega)]
      rfl

theorem collectFrom_is {β : Type} (aBlock : IntegerOop → β) {n : IntegerOop} (hn : n.Is r.ints.size) (turns k : Nat)
    {i : IntegerOop} (hk : k ≤ r.elements.length) (hturns : r.elements.length < turns + k) (hi : i.Is ((k + 1 : Nat) : Int)) :
    ∃ vs : List IntegerOop, r.collectFrom aBlock n turns i = some (vs.map aBlock) ∧ vs.map IntegerOop.toInt = r.elements.drop k := by
  have hlen := @length_eq r
  induction turns generalizing k i with
  | zero => omega
  | succ turns ih =>
    rw [collectFrom, hi.answered.lessEq hn.answered, hi.value, hn.value]
    by_cases hlt : k < r.elements.length
    · have hsucc : (i.plus (small 1)).Is ((k + 1 + 1 : Nat) : Int) := by
        have hplus := IntegerOop.Is.plus_const hi.answered.valid (by decide : (0 : Int) ≤ 1) (by decide)
        rw [hi.value] at hplus
        exact hplus
      obtain ⟨vs, hvs, hmap⟩ := ih (k + 1) hlt (by omega) hsucc
      have hat := h.at_is hi
      rw [if_pos (by omega), show ((k + 1 : Nat) : Int) - 1 = k by omega, toNat_natCast,
        getElem?_eq_getElem hlt] at hat
      obtain ⟨v, hv, hvalue⟩ := map_eq_some_iff.mp hat
      refine ⟨v :: vs, ?_, ?_⟩
      · rw [if_pos (decide_eq_true (by omega)), hv]
        simp only [bind_eq_bind, bind_some, hvs, map_cons]
      · rw [map_cons, hmap, hvalue, drop_eq_getElem_cons hlt]
    · rw [if_neg (by rw [decide_eq_true_eq]; omega)]
      exact ⟨[], rfl, by rw [drop_of_length_le (by omega)]; rfl⟩

theorem includes_is {x : IntegerOop} (hx : x.Answered) : r.includes x = some (decide (x.toInt ∈ r.elements)) := by
  have hmem := Progression.mem_elements_iff (r := r.ints) h.nonzero x.toInt
  have hwithin : (if r.step.greater (small 0) then x.greaterEq r.start && x.lessEq r.stop
      else x.lessEq r.start && x.greaterEq r.stop) = true ↔ r.ints.Within x.toInt := by
    rw [h.up_iff, hx.greaterEq h.start, hx.lessEq h.stop, hx.lessEq h.start, hx.greaterEq h.stop]
    unfold Progression.Within
    by_cases hpos : 0 < r.step.toInt
    · rw [if_pos (decide_eq_true hpos), if_pos (show r.ints.step > 0 from hpos), ← Bool.decide_and, decide_eq_true_eq]
      rfl
    · rw [if_neg (by rw [decide_eq_true_eq]; exact hpos), if_neg (show ¬ r.ints.step > 0 from hpos), ← Bool.decide_and,
        decide_eq_true_eq]
      rfl
  have hrun : r.includes x = if (if r.step.greater (small 0) then x.greaterEq r.start && x.lessEq r.stop
      else x.lessEq r.start && x.greaterEq r.stop) then ((x.minus r.start).floorMod r.step).map fun m => m.equal (small 0)
      else some false := by
    unfold Interval.includes
    cases r.step.greater (small 0) <;> rfl
  rw [hrun]
  by_cases hin : r.ints.Within x.toInt
  · obtain ⟨hsub, m, hm, hmi⟩ := h.member x hx hin
    rw [hsub.value] at hmi
    rw [if_pos (hwithin.mpr hin), hm, map_some, hmi.answered.equal_iff zero_answered, hmi.value, Option.some.injEq,
      decide_eq_decide]
    exact ⟨fun hzero => hmem.mpr ⟨hin, hzero⟩, fun hel => (hmem.mp hel).2⟩
  · have hout : x.toInt ∉ r.elements := fun hel => hin (hmem.mp hel).1
    rw [if_neg fun htrue => hin (hwithin.mp htrue), decide_eq_false hout]

theorem describes : r.Describes r.elements where
  size := by
    rw [@length_eq r]
    exact h.size_is
  «at» i z hi := h.at_is hi
  «do» turns hturns := by
    obtain ⟨n, hn, hni⟩ := h.size_is
    rw [Interval.do, hn]
    exact h.doFrom_is hni turns 0 (Nat.zero_le _) hturns (IntegerOop.Is.small (by decide)) h.start_is
  collect aBlock turns hturns := by
    obtain ⟨n, hn, hni⟩ := h.size_is
    rw [Interval.collect, hn]
    exact h.collectFrom_is aBlock hni turns 0 (Nat.zero_le _) hturns (IntegerOop.Is.small (by decide))
  includes x hx := h.includes_is hx
  last := by
    obtain ⟨n, hn, hni⟩ := h.size_is
    have hlen := @length_eq r
    rw [Interval.last, hn]
    refine (h.at_is hni).trans ?_
    rw [getLast?_eq_getElem?]
    split
    next => congr 1; omega
    next => rw [getElem?_eq_none (by omega)]
  toByDo turns hturns := h.toByDo_is turns 0 (Nat.zero_le _) hturns h.start_is

end Exact

theorem exact_of_small {a b c : Int} (ha : a.natAbs < 2 ^ 60) (hb : b.natAbs < 2 ^ 60) (hc : c.natAbs < 2 ^ 60) (hne : c ≠ 0) :
    (⟨small a, small b, small c⟩ : Interval).Exact := by
  have hfits {z : Int} (hz : z.natAbs < 2 ^ 61) : SmallInteger.fits z = true := IntegerOop.fits_iff.mpr (by omega)
  have hwithin {x : Int} (hx : (⟨a, b, c⟩ : Progression).Within x) : x.natAbs < 2 ^ 60 := by
    unfold Progression.Within at hx
    split at hx
    all_goals
      obtain ⟨hlow, hhigh⟩ := hx
      dsimp only at hlow hhigh
      omega
  have hmember {x : Int} (hx : x ∈ (⟨a, b, c⟩ : Progression).elements) : x.natAbs < 2 ^ 60 :=
    hwithin ((Progression.mem_elements_iff hne x).mp hx).1
  exact {
    start := hfits (by omega)
    stop := hfits (by omega)
    step := hfits (by omega)
    nonzero := hne
    up := fun hpos => by
      have hfit : SmallInteger.fits (b - a) = true := hfits (by omega)
      refine ⟨IntegerOop.subtracts_small hfit, ?_⟩
      rw [IntegerOop.small_minus hfit]
      exact IntegerOop.divides_small hfit hpos
    down := fun hneg => by
      have hneg : c < 0 := hneg
      have hfit : SmallInteger.fits (a - b) = true := hfits (by omega)
      have hfit' : SmallInteger.fits (0 - c) = true := hfits (by omega)
      refine ⟨IntegerOop.subtracts_small hfit, IntegerOop.subtracts_small hfit', ?_⟩
      rw [IntegerOop.small_minus hfit, IntegerOop.small_minus hfit']
      exact IntegerOop.divides_small hfit (by omega)
    offset := fun k hk hlow hhigh => by
      obtain ⟨n, hn⟩ := eq_ofNat_of_zero_le hlow
      have hlt := hmember (Progression.mem_elements.mpr ⟨n, hn ▸ hhigh, rfl⟩)
      dsimp only at hlt
      have hone : 1 ≤ c.natAbs := by omega
      have hprod : ((n : Int) * c).natAbs < 2 ^ 61 := by omega
      have hle : n ≤ ((n : Int) * c).natAbs := by
        rw [natAbs_mul, natAbs_natCast]
        exact Nat.le_mul_of_pos_right n hone
      have hsmall : k = small n := IntegerOop.Is.eq_small ⟨hk, hn⟩ (by omega)
      rw [hsmall]
      exact IntegerOop.multiplies_small (hfits hprod)
    nth := fun d hd hmem => by
      have hlt : (a + d.toInt).natAbs < 2 ^ 60 := hmember hmem
      have hsmall : d = small d.toInt := IntegerOop.Is.eq_small ⟨hd, rfl⟩ (by omega)
      rw [hsmall]
      exact IntegerOop.adds_small (hfits (by omega))
    next := fun v hv hmem => by
      have hlt : v.toInt.natAbs < 2 ^ 60 := hmember hmem
      have hsmall : v = small v.toInt := IntegerOop.Is.eq_small ⟨hv, rfl⟩ (by omega)
      rw [hsmall]
      exact IntegerOop.adds_small (hfits (by omega))
    member := fun x hx hin => by
      have hlt : x.toInt.natAbs < 2 ^ 60 := hwithin hin
      have hsmall : x = small x.toInt := IntegerOop.Is.eq_small ⟨hx, rfl⟩ (by omega)
      rw [hsmall]
      have hfit : SmallInteger.fits (x.toInt - a) = true := hfits (by omega)
      refine ⟨IntegerOop.subtracts_small hfit, ?_⟩
      rw [IntegerOop.small_minus hfit]
      exact IntegerOop.remainders_small hne (hfits (by omega)) }

end Interval

/-- What the other objects are and do: integers and characters among them, their `=` and their hash. -/
structure Atoms (α : Type) where
  int : Int → α
  char : UInt8 → α
  same : α → α → Bool
  hash : α → Int

/-- Their `=` is symmetric and transitive, and is equality on integers. -/
structure Atoms.Lawful {α : Type} (atoms : Atoms α) : Prop where
  symm : ∀ a b, atoms.same a b = atoms.same b a
  trans : ∀ a b c, atoms.same a b = true → atoms.same b c = true → atoms.same a c = true
  int : ∀ i j, atoms.same (atoms.int i) (atoms.int j) = true → i = j
  char : ∀ c, atoms.same (atoms.char c) (atoms.char c) = true

/-- Collections of any contents; an ordered collection by its elements, an interval where integer arithmetic
is exact on it. -/
inductive Obj (α : Type) where
  | atom (a : α)
  | interval (r : { r : Interval // r.Exact })
  | array (es : List (Obj α))
  | ordered (es : List (Obj α))
  | string (bytes : List UInt8)

namespace Obj

variable {α : Type} (atoms : Atoms α)

/-- What `at:` answers at `1`, `2`, …; none of what is no sequenceable collection. -/
def sequence : Obj α → Option (List (Obj α))
  | .atom _ => none
  | .interval r => some ((r.1.elements.map atoms.int).map .atom)
  | .array es => some es
  | .ordered es => some es
  | .string bytes => some ((bytes.map atoms.char).map .atom)

def atomEq (a : α) : Obj α → Bool
  | .atom b => atoms.same a b
  | _ => false

def atomsEq : List α → List (Obj α) → Bool
  | [], [] => true
  | a :: as, y :: ys => atomEq atoms a y && atomsEq as ys
  | _, _ => false

mutual

/-- `=`, an interval's own and that of the other collections, which asks for the same class first. -/
def eq : Obj α → Obj α → Bool
  | .atom a, y => atomEq atoms a y
  | .interval r, y => (sequence atoms y).any (atomsEq atoms (r.1.elements.map atoms.int))
  | .array es, .array es' => eqEach es es'
  | .ordered es, .ordered es' => eqEach es es'
  | .string bytes, .string bytes' => bytes == bytes'
  | _, _ => false

def eqEach : List (Obj α) → List (Obj α) → Bool
  | [], [] => true
  | x :: xs, y :: ys => eq x y && eqEach xs ys
  | _, _ => false

end

def hashBytes (bytes : List UInt8) : Int :=
  (bytes.foldl (fun h b => (h ^^^ b.toNat) * 0x100000001B3 % 2 ^ 64) 0xcbf29ce484222325 % 2 ^ 30 : Nat)

/-- `hash`, where it is of the contents. -/
def hash : Obj α → Option Int
  | .interval r => do
    let n ← r.1.size
    if n.equal (small 0) then some 0
    else do
      let last ← r.1.last
      some (atoms.hash (atoms.int r.1.first.toInt) + atoms.hash (atoms.int last.toInt) + n.toInt)
  | .string bytes => some (hashBytes bytes)
  | _ => none

mutual

/-- Intervals stand against intervals only. -/
def aligned : Obj α → Obj α → Bool
  | .interval _, .interval _ => true
  | .interval _, _ => false
  | _, .interval _ => false
  | .array es, .array es' => alignedEach es es'
  | .ordered es, .ordered es' => alignedEach es es'
  | _, _ => true

def alignedEach : List (Obj α) → List (Obj α) → Bool
  | x :: xs, y :: ys => aligned x y && alignedEach xs ys
  | _, _ => true

end

variable {atoms}

theorem eqEach_atoms (as : List α) (ys : List (Obj α)) : eqEach atoms (as.map .atom) ys = atomsEq atoms as ys := by
  induction as generalizing ys with
  | nil => cases ys <;> simp [eqEach, atomsEq]
  | cons a as ih => cases ys <;> simp [eqEach, atomsEq, eq, ih]

theorem interval_eq_iff {r : { r : Interval // r.Exact }} {y : Obj α} : eq atoms (.interval r) y = true ↔
    ∃ ys, sequence atoms y = some ys ∧ atomsEq atoms (r.1.elements.map atoms.int) ys = true := by
  rw [eq]
  cases sequence atoms y with
  | none => simp
  | some ys => simp

section Laws

variable (h : atoms.Lawful)

include h

theorem atomEq_trans {a : α} {y z : Obj α} (hy : atomEq atoms a y = true) (hz : eq atoms y z = true) :
    atomEq atoms a z = true := by
  cases y with
  | atom b =>
    rw [eq] at hz
    cases z with
    | atom c => exact h.trans a b c hy hz
    | _ => cases hz
  | _ => cases hy

theorem atomsEq_trans {as : List α} {ys zs : List (Obj α)} (hy : atomsEq atoms as ys = true) (hz : eqEach atoms ys zs = true) :
    atomsEq atoms as zs = true := by
  induction as generalizing ys zs with
  | nil =>
    cases ys with
    | nil => exact (eqEach_atoms [] zs).symm.trans hz
    | cons y ys => cases hy
  | cons a as ih =>
    cases ys with
    | nil => cases hy
    | cons y ys =>
      cases zs with
      | nil => simp [eqEach] at hz
      | cons z zs =>
        rw [atomsEq, Bool.and_eq_true] at hy ⊢
        rw [eqEach, Bool.and_eq_true] at hz
        exact ⟨atomEq_trans h hy.1 hz.1, ih hy.2 hz.2⟩

theorem atomsEq_refl (bytes : List UInt8) :
    atomsEq atoms (bytes.map atoms.char) ((bytes.map atoms.char).map .atom) = true := by
  induction bytes with
  | nil => rfl
  | cons c bytes ih =>
    rw [map_cons, map_cons, atomsEq, Bool.and_eq_true]
    exact ⟨h.char c, ih⟩

theorem sequence_of_eq {y z : Obj α} {ys : List (Obj α)} (hy : sequence atoms y = some ys) (hz : eq atoms y z = true) :
    ∃ zs, sequence atoms z = some zs ∧ eqEach atoms ys zs = true := by
  cases y with
  | atom a => cases hy
  | interval r =>
    cases hy
    obtain ⟨zs, hzs, heach⟩ := interval_eq_iff.mp hz
    exact ⟨zs, hzs, by rwa [eqEach_atoms]⟩
  | array es =>
    cases hy
    cases z with
    | array es' => exact ⟨es', rfl, by rwa [eq] at hz⟩
    | _ => simp [eq] at hz
  | ordered es =>
    cases hy
    cases z with
    | ordered es' => exact ⟨es', rfl, by rwa [eq] at hz⟩
    | _ => simp [eq] at hz
  | string bytes =>
    cases hy
    cases z with
    | string bytes' =>
      rw [eq] at hz
      cases eq_of_beq hz
      exact ⟨_, rfl, by rw [eqEach_atoms]; exact atomsEq_refl h bytes⟩
    | _ => simp [eq] at hz

omit h

mutual

theorem eq_trans (h : atoms.Lawful) : ∀ {x y z : Obj α}, eq atoms x y = true → eq atoms y z = true → eq atoms x z = true
  | .atom a, y, z, hy, hz => by
    rw [eq] at hy ⊢
    exact atomEq_trans h hy hz
  | .interval r, y, z, hy, hz => by
    obtain ⟨ys, hys, heach⟩ := interval_eq_iff.mp hy
    obtain ⟨zs, hzs, heach'⟩ := sequence_of_eq h hys hz
    exact interval_eq_iff.mpr ⟨zs, hzs, atomsEq_trans h heach heach'⟩
  | .array es, y, z, hy, hz => by
    cases y with
    | array es' =>
      cases z with
      | array es'' =>
        rw [eq] at hy hz ⊢
        exact eqEach_trans h hy hz
      | _ => simp [eq] at hz
    | _ => simp [eq] at hy
  | .ordered es, y, z, hy, hz => by
    cases y with
    | ordered es' =>
      cases z with
      | ordered es'' =>
        rw [eq] at hy hz ⊢
        exact eqEach_trans h hy hz
      | _ => simp [eq] at hz
    | _ => simp [eq] at hy
  | .string bytes, y, z, hy, hz => by
    cases y with
    | string bytes' =>
      rw [eq] at hy
      cases eq_of_beq hy
      exact hz
    | _ => simp [eq] at hy

theorem eqEach_trans (h : atoms.Lawful) : ∀ {xs ys zs : List (Obj α)}, eqEach atoms xs ys = true →
    eqEach atoms ys zs = true → eqEach atoms xs zs = true
  | [], [], zs, _, hz => hz
  | x :: xs, y :: ys, z :: zs, hy, hz => by
    rw [eqEach, Bool.and_eq_true] at hy hz ⊢
    exact ⟨eq_trans h hy.1 hz.1, eqEach_trans h hy.2 hz.2⟩
  | [], _ :: _, _, hy, _ => by simp [eqEach] at hy
  | _ :: _, [], _, hy, _ => by simp [eqEach] at hy
  | _ :: _, _ :: _, [], _, hz => by simp [eqEach] at hz

end

theorem sequence_array {y : Obj α} {r : { r : Interval // r.Exact }} (hy : ∀ r', y ≠ .interval r') :
    eq atoms y (.interval r) = false := by
  cases y with
  | interval r' => exact absurd rfl (hy r')
  | atom a => simp [eq, atomEq]
  | _ => simp [eq]

theorem atomsEq_symm (h : atoms.Lawful) (as bs : List α) : atomsEq atoms as (bs.map .atom) = atomsEq atoms bs (as.map .atom) := by
  induction as generalizing bs with
  | nil => cases bs <;> simp [atomsEq]
  | cons a as ih =>
    cases bs with
    | nil => simp [atomsEq]
    | cons b bs => simp [atomsEq, atomEq, ih, h.symm a b]

mutual

theorem eq_symm (h : atoms.Lawful) : ∀ {x y : Obj α}, aligned x y = true → eq atoms x y = eq atoms y x
  | .atom a, y, hal => by
    cases y with
    | atom b => simp [eq, atomEq, h.symm a b]
    | interval r => simp [aligned] at hal
    | _ => simp [eq, atomEq]
  | .interval r, y, hal => by
    cases y with
    | interval r' =>
      rw [eq, eq]
      exact atomsEq_symm h _ _
    | _ => simp [aligned] at hal
  | .array es, y, hal => by
    cases y with
    | array es' =>
      rw [eq, eq]
      exact eqEach_symm h (by rwa [aligned] at hal)
    | atom a => simp [eq, atomEq]
    | interval r => simp [aligned] at hal
    | _ => simp [eq]
  | .ordered es, y, hal => by
    cases y with
    | ordered es' =>
      rw [eq, eq]
      exact eqEach_symm h (by rwa [aligned] at hal)
    | atom a => simp [eq, atomEq]
    | interval r => simp [aligned] at hal
    | _ => simp [eq]
  | .string bytes, y, hal => by
    cases y with
    | string bytes' => rw [eq, eq, Bool.eq_iff_iff, beq_iff_eq, beq_iff_eq, eq_comm]
    | atom a => simp [eq, atomEq]
    | interval r => simp [aligned] at hal
    | _ => simp [eq]

theorem eqEach_symm (h : atoms.Lawful) : ∀ {xs ys : List (Obj α)}, alignedEach xs ys = true →
    eqEach atoms xs ys = eqEach atoms ys xs
  | [], [], _ => rfl
  | [], _ :: _, _ | _ :: _, [], _ => by simp [eqEach]
  | x :: xs, y :: ys, hal => by
    rw [alignedEach, Bool.and_eq_true] at hal
    rw [eqEach, eqEach, eq_symm h hal.1, eqEach_symm h hal.2]

end

theorem int_of_atomsEq (h : atoms.Lawful) {is js : List Int} (he : atomsEq atoms (is.map atoms.int) ((js.map atoms.int).map .atom) = true) :
    is = js := by
  induction is generalizing js with
  | nil =>
    cases js with
    | nil => rfl
    | cons j js => cases he
  | cons i is ih =>
    cases js with
    | nil => cases he
    | cons j js =>
      simp only [map_cons, atomsEq, Bool.and_eq_true] at he
      rw [h.int i j he.1, ih he.2]

theorem hash_interval (r : { r : Interval // r.Exact }) : hash atoms (.interval r) = some (if r.1.elements = [] then 0
      else atoms.hash (atoms.int (r.1.elements.headD 0)) + atoms.hash (atoms.int (r.1.elements.getLastD 0)) +
        r.1.elements.length) := by
  obtain ⟨n, hn, hni⟩ := r.2.describes.size
  have hlast := r.2.describes.last
  have hempty : n.equal (small 0) = decide (r.1.elements = []) := by
    rw [hni.answered.equal_iff Interval.Exact.zero_answered, hni.value, decide_eq_decide, ← length_eq_zero_iff]
    exact natCast_eq_zero
  simp only [hash, hn, bind_eq_bind, bind_some, hempty]
  by_cases hnil : r.1.elements = []
  · rw [if_pos (decide_eq_true hnil), if_pos hnil]
  · obtain ⟨last, hrun, hvalue⟩ := map_eq_some_iff.mp (hlast.trans (getLast?_eq_some_getLast hnil))
    have hpos : 0 < r.1.elements.length := length_pos_iff.mpr hnil
    have hhead : r.1.elements.headD 0 = r.1.first.toInt := by
      rw [headD_eq_head?_getD, head?_eq_getElem?, getElem?_eq_getElem hpos, getD_some]
      exact (Progression.getElem_elements hpos).trans (by simp [Interval.ints, Interval.first])
    rw [if_neg (by rw [decide_eq_true_eq]; exact hnil), if_neg hnil, hrun, bind_some, hhead, hvalue, hni.value,
      getLastD_eq_getLast?, getLast?_eq_some_getLast hnil, getD_some]

theorem hash_eq (h : atoms.Lawful) {x y : Obj α} (hal : aligned x y = true) (heq : eq atoms x y = true) : hash atoms x = hash atoms y := by
  cases x with
  | interval r =>
    cases y with
    | interval r' =>
      obtain ⟨ys, hys, heach⟩ := interval_eq_iff.mp heq
      cases hys
      rw [hash_interval, hash_interval, int_of_atomsEq h heach]
    | _ => simp [aligned] at hal
  | string bytes =>
    cases y with
    | string bytes' =>
      rw [eq] at heq
      rw [eq_of_beq heq]
    | _ => simp [eq] at heq
  | atom a =>
    cases y with
    | atom b => rfl
    | _ => simp [eq, atomEq] at heq
  | _ =>
    cases y with
    | interval r => simp [aligned] at hal
    | string bytes => simp [eq] at heq
    | _ => rfl

end Laws

/-- The messages of an interval tell of one sequence wherever integer arithmetic is exact on it, as it is between
`-2 ^ 60` and `2 ^ 60`. An interval is equal to what has its elements, and nothing else is equal to an interval; but for
that, `=` is symmetric, and it is transitive; and what is equal hashes alike where both hash their contents, an interval
against an interval. -/
theorem interval_and_equality (h : atoms.Lawful) : (∀ r : Interval, r.Exact → r.Describes r.elements) ∧
    (∀ a b c : Int, a.natAbs < 2 ^ 60 → b.natAbs < 2 ^ 60 → c.natAbs < 2 ^ 60 → c ≠ 0 →
      (⟨small a, small b, small c⟩ : Interval).Exact) ∧
    (∀ (r : { r : Interval // r.Exact }) (y : Obj α), eq atoms (.interval r) y = true ↔
      ∃ ys, sequence atoms y = some ys ∧ atomsEq atoms (r.1.elements.map atoms.int) ys = true) ∧
    (∀ (r : { r : Interval // r.Exact }) (y : Obj α), (∀ r', y ≠ .interval r') → eq atoms y (.interval r) = false) ∧
    (∀ x y : Obj α, aligned x y = true → eq atoms x y = eq atoms y x) ∧
    (∀ x y z : Obj α, eq atoms x y = true → eq atoms y z = true → eq atoms x z = true) ∧
    ∀ x y : Obj α, aligned x y = true → eq atoms x y = true → hash atoms x = hash atoms y :=
  ⟨fun _ hexact => hexact.describes, fun _ _ _ => Interval.exact_of_small, fun _ _ => interval_eq_iff,
    fun _ _ hy => sequence_array hy, fun _ _ hal => eq_symm h hal, fun _ _ _ hy hz => eq_trans h hy hz,
    fun _ _ hal heq => hash_eq h hal heq⟩

def intsAndChars : Atoms (Int ⊕ UInt8) := ⟨.inl, .inr, fun a b => decide (a = b), Sum.elim id fun c => c.toNat⟩

theorem intsAndChars_lawful : intsAndChars.Lawful where
  symm _ _ := decide_eq_decide.mpr eq_comm
  trans _ _ _ hab hbc := decide_eq_true ((of_decide_eq_true hab).trans (of_decide_eq_true hbc))
  int _ _ hij := Sum.inl.inj (of_decide_eq_true hij)
  char _ := decide_eq_true rfl

def byThrees (stop : Nat) (hstop : stop < 2 ^ 60) : { r : Interval // r.Exact } :=
  ⟨⟨small 1, small stop, small 3⟩, Interval.exact_of_small (by decide) (by omega) (by decide) (by decide)⟩

theorem interval_and_equality_oneToThree : (byThrees 7 (by decide)).1.Describes [1, 4, 7] ∧
    eq intsAndChars (.interval (byThrees 7 (by decide))) (.interval (byThrees 9 (by decide))) =
      eq intsAndChars (.interval (byThrees 9 (by decide))) (.interval (byThrees 7 (by decide))) :=
  ⟨(interval_and_equality intsAndChars_lawful).1 (byThrees 7 (by decide)).1
      ((interval_and_equality intsAndChars_lawful).2.1 1 7 3 (by decide) (by decide) (by decide) (by decide)),
    (interval_and_equality intsAndChars_lawful).2.2.2.2.1 _ _ (by decide)⟩

/-- An interval is equal to the array of its elements, which is not equal to it; and an empty one to the empty string, which
has another hash. -/
theorem interval_asymmetric : (¬ ∀ x y : Obj (Int ⊕ UInt8), eq intsAndChars x y = eq intsAndChars y x) ∧
    ¬ ∀ (x y : Obj (Int ⊕ UInt8)) (i j : Int), eq intsAndChars x y = true → hash intsAndChars x = some i →
      hash intsAndChars y = some j → i = j := by
  constructor
  · intro h
    have hsymm := h (.interval (byThrees 7 (by decide))) (.array [.atom (.inl 1), .atom (.inl 4), .atom (.inl 7)])
    revert hsymm
    decide
  · intro h
    have hhash := h (.interval (byThrees 0 (by decide))) (.string []) 0 (hashBytes []) (by decide) (by decide) rfl
    revert hhash
    decide

end Obj

end WinArmVm
