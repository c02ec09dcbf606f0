import WinArmVm.TruncatedDivision
import Mathlib.Data.Rat.Lemmas
import Mathlib.Algebra.Order.Field.Rat
import Mathlib.Algebra.Order.Field.Basic
import Mathlib.Tactic.FieldSimp

namespace WinArmVm

open Nat Option

namespace IntegerOop

def raisedToLoop : Nat → IntegerOop → IntegerOop → Nat → Option IntegerOop
  | 0, _, _, _ => none
  | fuel + 1, result, base, n =>
    if 0 < n then do
      let result ← (if n % 2 = 1 then result.times base else some result)
      let n := n / 2
      let base ← (if 0 < n then base.times base else some base)
      raisedToLoop fuel result base n
    else some result

def raisedTo (a : IntegerOop) (aNumber : Nat) : Option IntegerOop :=
  if aNumber = 0 then some (small 1) else raisedToLoop (aNumber + 1) (small 1) a aNumber

namespace Rational

def numerator : Rational → IntegerOop
  | integer n => n
  | fraction n _ => n

def abs : Rational → Option Rational
  | integer n => some (integer n.abs)
  | fraction n d => do
    if n.less (← (small 0).times d) then n.negated.fraction d else some (fraction n d)

/-- `*` by an Integer. -/
def times : Rational → IntegerOop → Option Rational
  | integer n, aNumber => do return integer (← n.times aNumber)
  | fraction n d, aNumber => do (← n.times aNumber).fraction d

def rounded : Rational → Option IntegerOop
  | integer n => some n
  | fraction n d => do ((← (small 2).times n).plus d).floorDiv (← (small 2).times d)

end Rational

end IntegerOop

open IntegerOop (small Rational)

structure ScaledDecimal where
  numerator : IntegerOop
  denominator : IntegerOop
  scale : Nat
deriving DecidableEq

namespace ScaledDecimal

/-- `numerator:denominator:scale:` -/
def fromParts (n d : IntegerOop) (s : Nat) : Option ScaledDecimal :=
  if d.equal (small 0) then none
  else do
    let sign := if d.less (small 0) then small (-1) else small 1
    let num ← n.times sign
    let den ← d.times sign
    let g ← num.gcd den
    let g := if g.isZero then small 1 else g
    return ⟨← num.floorDiv g, ← den.floorDiv g, s⟩

def asFraction (d : ScaledDecimal) : Option Rational := d.numerator.fraction d.denominator

def printOn (d : ScaledDecimal) : Option (List Char) := do
  let sign := if d.numerator.less (small 0) then ['-'] else []
  let den ← (small 10).raisedTo d.scale
  let scaled ← (← (← d.asFraction).abs).times den
  let scaled ← scaled.rounded
  let intPart ← scaled.floorDiv den
  let fracPart ← scaled.floorMod den
  let whole ← intPart.printString
  let digits ← fracPart.printString
  let places := if 0 < d.scale then '.' :: (List.replicate (d.scale - digits.length) '0' ++ digits) else []
  return sign ++ whole ++ places ++ 's' :: Nat.toDigits 10 d.scale

end ScaledDecimal

namespace IntegerOop

open SmallInteger

variable {a base result : IntegerOop} {m n b : Nat}

theorem raisedToLoop_spec {fuel : Nat} (hr : Exact result (m : Int)) (hb : base.Counts b) (hfuel : n < fuel) :
    ∃ r, raisedToLoop fuel result base n = some r ∧ Exact r ((m * b ^ n : Nat) : Int) := by
  induction fuel generalizing result base m n b with
  | zero => omega
  | succ fuel ih =>
    unfold raisedToLoop
    by_cases hn : 0 < n
    · rw [if_pos hn]
      obtain ⟨r, hrun, hre⟩ : ∃ r, (if n % 2 = 1 then result.times base else some result) = some r ∧
          Exact r ((m * b ^ (n % 2) : Nat) : Int) := by
        rcases mod_two_eq_zero_or_one n with h | h
        · rw [h, if_neg (by decide)]
          refine ⟨result, rfl, ?_⟩
          rw [pow_zero, mul_one]
          exact hr
        · rw [h, if_pos rfl, pow_one]
          exact hr.counts.times hb
      obtain ⟨c, hc, hce⟩ : ∃ c, (if 0 < n / 2 then base.times base else some base) = some c ∧
          (0 < n / 2 → c.Counts (b * b)) ∧ c.Counts (if 0 < n / 2 then b * b else b) := by
        by_cases hhalf : 0 < n / 2
        · rw [if_pos hhalf, if_pos hhalf]
          obtain ⟨c, hc, hce⟩ := hb.times hb
          exact ⟨c, hc, fun _ => hce.counts, hce.counts⟩
        · rw [if_neg hhalf, if_neg hhalf]
          exact ⟨base, rfl, fun h => absurd h hhalf, hb⟩
      obtain ⟨r', hrun', hre'⟩ := ih hre hce.2 (show n / 2 < fuel by omega)
      refine ⟨r', ?_, ?_⟩
      · exact answers hrun (answers hc hrun')
      · have hpow : m * b ^ (n % 2) * (if 0 < n / 2 then b * b else b) ^ (n / 2) = m * b ^ n := by
          by_cases hhalf : 0 < n / 2
          · rw [if_pos hhalf, mul_assoc, ← pow_two, ← pow_mul, ← pow_add, mod_add_div]
          · rw [if_neg hhalf, mul_assoc, ← pow_add]
            congr 2
            omega
        rw [hpow] at hre'
        exact hre'
    · rw [if_neg hn, show n = 0 by omega, pow_zero, mul_one]
      exact ⟨result, rfl, hr⟩

theorem raisedTo_exact (ha : a.Counts b) (n : Nat) : ∃ r, a.raisedTo n = some r ∧ Exact r ((b ^ n : Nat) : Int) := by
  have hone : Exact (small 1) ((1 : Nat) : Int) := exact_small_nat (by decide)
  unfold raisedTo
  by_cases hn : n = 0
  · rw [if_pos hn, hn]
    exact ⟨_, rfl, hone⟩
  · rw [if_neg hn]
    have h := raisedToLoop_spec (n := n) hone ha (lt_succ_self n)
    rw [one_mul] at h
    exact h

/-- Of the value `v`, in lowest terms. -/
def Rational.Is : Rational → ℚ → Prop
  | .integer n, v => n.Is v.num ∧ v.den = 1
  | .fraction n d, v => n.Is v.num ∧ d.Is v.den ∧ v.den ≠ 1

theorem Lowest.num_den {x y : Int} {num den : IntegerOop} (h : Lowest x y num den) (hy : y ≠ 0) :
    ((x : ℚ) / y).num = num.toInt ∧ (((x : ℚ) / y).den : Int) = den.toInt := by
  have hpos := h.positive
  have hden : (den.toInt : ℚ) ≠ 0 := by
    rw [Int.cast_ne_zero]
    omega
  have heq : (x : ℚ) / y = num.toInt / den.toInt := by
    rw [div_eq_div_iff (Int.cast_ne_zero.mpr hy) hden]
    exact_mod_cast h.value.symm
  rw [heq]
  exact ⟨Rat.num_div_eq_of_coprime hpos h.coprime, Rat.den_div_eq_of_coprime hpos h.coprime⟩

theorem fraction_is {n d : IntegerOop} (hn : n.Valid) (hd : d.Valid) (hd0 : d.toInt ≠ 0) (h : n.ReducesWhen d) :
    ∃ r, n.fraction d = some r ∧ r.Is (n.toInt / d.toInt) := by
  obtain ⟨num, den, hrun, hlow⟩ := (lowest_iff hn hd hd0).1 h
  obtain ⟨hnum, hden⟩ := hlow.num_den hd0
  have hzero : d.equal (small 0) = false := (isZero_eq hd).trans (decide_eq_false hd0)
  rw [fraction_eq, hzero, if_neg Bool.false_ne_true, hrun, map_some]
  refine ⟨_, rfl, ?_⟩
  rw [equal_one hlow.answered.2.valid hlow.positive]
  by_cases hone : den.toInt = 1
  · rw [decide_eq_true hone, if_pos rfl]
    exact ⟨⟨hlow.answered.1, hnum.symm⟩, by omega⟩
  · rw [decide_eq_false hone, if_neg Bool.false_ne_true]
    exact ⟨⟨hlow.answered.1, hnum.symm⟩, ⟨hlow.answered.2, hden.symm⟩, by omega⟩

theorem Is.counts {z : Int} (h : a.Is z) (hz : 0 ≤ z) : a.Counts z.natAbs := ⟨h.answered.valid, by rw [h.value]; omega⟩

theorem Is.exact {z : Int} (h : a.Is z) (hz : 0 ≤ z) : Exact a z := by
  have he := h.answered.exact (by rw [h.value]; exact hz)
  rw [h.value] at he
  exact he

theorem reducesWhen_of_nonneg {n d : IntegerOop} (hpos : 0 ≤ n.toInt) (h : 2 ^ 61 ≤ n.toInt.natAbs ∨ d.toInt.natAbs < 2 ^ 61) :
    n.ReducesWhen d := by
  refine ⟨h, fun hmin => ?_⟩
  have hv : minVal = -2 ^ 61 := by decide
  have := hmin.2.1
  omega

namespace Rational

variable {r : Rational} {v : ℚ}

theorem Is.numerator (h : r.Is v) : r.numerator.Is v.num := by
  cases r with
  | integer n => exact h.1
  | fraction n d => exact h.1

def Divisible (v : ℚ) : Prop := 2 ^ 61 ≤ v.num.natAbs ∨ v.den < 2 ^ 61

theorem Divisible.reduces {n d : IntegerOop} (hn : n.Is v.num) (hd : d.Is v.den) (h : Divisible v) : n.ReducesWhen d := by
  constructor
  · rw [hn.value, hd.value]
    exact h
  · rintro ⟨-, hmin, -, hdvd⟩
    have hv : minVal = -2 ^ 61 := by decide
    rw [hn.value, hv] at hmin
    rw [hd.value] at hdvd
    have hdvd : 2 ^ 61 ∣ v.den := by exact_mod_cast hdvd
    have hgcd := Nat.dvd_gcd (show 2 ^ 61 ∣ v.num.natAbs by rw [hmin]; decide) hdvd
    rw [v.reduced.gcd_eq_one] at hgcd
    exact absurd hgcd (by decide)

theorem Divisible.fraction {n d : IntegerOop} (hn : n.Is v.num) (hd : d.Is v.den) (h : Divisible v) :
    ∃ r, n.fraction d = some r ∧ r.Is v := by
  have hd0 : d.toInt ≠ 0 := by
    rw [hd.value]
    exact_mod_cast v.den_nz
  obtain ⟨r, hrun, hr⟩ := fraction_is hn.answered.valid hd.answered.valid hd0 (h.reduces hn hd)
  rw [hn.value, hd.value, Int.cast_natCast, Rat.num_div_den] at hr
  exact ⟨r, hrun, hr⟩

theorem Is.abs (hr : r.Is v) (h : Divisible v) : ∃ r', r.abs = some r' ∧ r'.Is |v| := by
  cases r with
  | integer n =>
    refine ⟨_, rfl, ?_, ?_⟩
    · rw [Rat.num_abs_eq_abs_num]
      have he := abs_exact hr.1.answered
      rw [hr.1.value] at he
      exact IntegerOop.Is.of_exact (by rw [Int.abs_eq_natAbs]; exact he)
    · rw [Rat.den_abs_eq_den]
      exact hr.2
  | fraction n d =>
    obtain ⟨hn, hd, hone⟩ := hr
    obtain ⟨z, hz, hze⟩ := (counts_small (n := 0) (by decide)).times (hd.counts (Int.natCast_nonneg _))
    have hzs : z = small 0 := by
      rw [zero_mul] at hze
      exact hze.eq_small (by decide)
    subst hzs
    have hneg : n.less (small 0) = decide (v.num < 0) := by
      have h := negative_eq hn.answered.valid
      rw [hn.value] at h
      exact h
    have hrun : (Rational.fraction n d).abs = if v.num < 0 then n.negated.fraction d else some (.fraction n d) := by
      unfold Rational.abs
      refine (congrArg (fun x : Option IntegerOop => x.bind _) hz).trans ?_
      show (if n.less (small 0) = true then _ else _) = _
      rw [hneg]
      simp only [decide_eq_true_eq]
    rw [hrun]
    by_cases hlt : v.num < 0
    · rw [if_pos hlt]
      have hnum : |v|.num = v.num.natAbs := by rw [Rat.num_abs_eq_abs_num, Int.abs_eq_natAbs]
      have he := negated_exact hn.answered.valid (by rw [hn.value]; exact hlt)
      rw [hn.value, ← hnum] at he
      refine Divisible.fraction (IntegerOop.Is.of_exact he) ?_ ?_
      · rw [Rat.den_abs_eq_den]
        exact hd
      · unfold Divisible
        rw [hnum, Rat.den_abs_eq_den]
        exact h
    · rw [if_neg hlt, abs_of_nonneg (Rat.num_nonneg.mp (by omega))]
      exact ⟨_, rfl, hn, hd, hone⟩

theorem Is.times {k : IntegerOop} {m : Nat} (hr : r.Is v) (hv : 0 ≤ v) (h : Divisible v) (hk : k.Counts m) (hm : 0 < m) :
    ∃ r', r.times k = some r' ∧ r'.Is (v * m) := by
  have hnum : 0 ≤ v.num := Rat.num_nonneg.mpr hv
  obtain ⟨p, hp, hpe⟩ := (hr.numerator.counts hnum).times hk
  have hvalue : v.num = (v.num.natAbs : Int) := by omega
  cases r with
  | integer n =>
    refine ⟨.integer p, congrArg (fun x : Option IntegerOop => x.bind _) hp, ?_⟩
    have hvi : v * m = ((v.num.natAbs * m : Nat) : ℚ) := by
      have hint : v = ((v.num.natAbs : Nat) : ℚ) := by
        rw [← Int.cast_natCast, ← hvalue]
        exact (Rat.den_eq_one_iff v).mp hr.2 |>.symm
      rw [Nat.cast_mul, ← hint]
    rw [hvi]
    exact ⟨by rw [Rat.num_natCast]; exact IntegerOop.Is.of_exact hpe, Rat.den_natCast _⟩
  | fraction n d =>
    obtain ⟨-, hd, -⟩ := hr
    have hpv : p.toInt = ((v.num.natAbs * m : Nat) : Int) := hpe.toInt
    have hdv := hd.value
    have hpos := v.den_pos
    have hle : v.num.natAbs ≤ v.num.natAbs * m := Nat.le_mul_of_pos_right _ hm
    obtain ⟨r', hrun, hr'⟩ := fraction_is (n := p) hpe.valid hd.answered.valid (by omega) (by
      refine reducesWhen_of_nonneg (by omega) ?_
      rw [hpv, hdv]
      refine h.imp (fun h => ?_) (fun h => h)
      exact le_trans h hle)
    refine ⟨r', answers hp hrun, ?_⟩
    rw [hpv, hdv] at hr'
    have heq : (((v.num.natAbs * m : Nat) : Int) : ℚ) / ((v.den : Int) : ℚ) = v * m := by
      rw [Nat.cast_mul, Int.cast_mul, ← hvalue, Int.cast_natCast, Int.cast_natCast, mul_div_right_comm, Rat.num_div_den]
    rw [heq] at hr'
    exact hr'

def nearest (v : ℚ) : Nat := (2 * v.num.natAbs + v.den) / (2 * v.den)

theorem Is.rounded (hr : r.Is v) (hv : 0 ≤ v) (h : v.den = 1 ∨ 2 ^ 61 ≤ 2 * v.num.natAbs + v.den ∨ 2 * v.den < 2 ^ 61) :
    ∃ i, r.rounded = some i ∧ Exact i (nearest v) := by
  have hnum : 0 ≤ v.num := Rat.num_nonneg.mpr hv
  have hvalue : v.num = (v.num.natAbs : Int) := by omega
  cases r with
  | integer n =>
    refine ⟨n, rfl, ?_⟩
    have hn : nearest v = v.num.natAbs := by
      unfold nearest
      rw [hr.2]
      omega
    rw [hn, ← hvalue]
    exact hr.1.exact hnum
  | fraction n d =>
    obtain ⟨hn, hd, hone⟩ := hr
    have htwo : (small 2).Counts 2 := counts_small (by decide)
    have hnc := hn.counts hnum
    have hdc : d.Counts v.den := hd.counts (Int.natCast_nonneg _)
    obtain ⟨p, hp, hpe⟩ := htwo.times hnc
    obtain ⟨q, hq, hqe⟩ := htwo.times hdc
    have hsum := hpe.counts.plus hdc
    have hpos := v.den_pos
    obtain ⟨i, -, hi, -, hie, -⟩ := hsum.counts.floored hqe.counts (by omega) (by
      rw [hsum.isLarge_iff, Bool.eq_false_iff, ne_eq, hqe.isLarge_iff]
      omega)
    exact ⟨i, answers hp (answers hq hi), hie⟩

theorem nearest_sub (hv : 0 ≤ v) : |(nearest v : ℚ) - v| ≤ 1 / 2 := by
  have hnum : v.num = (v.num.natAbs : Int) := by
    have := Rat.num_nonneg.mpr hv
    omega
  have hpos := v.den_pos
  have hdiv : 2 * v.den * nearest v + (2 * v.num.natAbs + v.den) % (2 * v.den) = 2 * v.num.natAbs + v.den :=
    div_add_mod ..
  have hmod : (2 * v.num.natAbs + v.den) % (2 * v.den) < 2 * v.den := mod_lt _ (by omega)
  have hden : (0 : ℚ) < v.den := by exact_mod_cast hpos
  have hvq : v * v.den = v.num.natAbs := by
    rw [Rat.mul_den_eq_num, hnum, Int.cast_natCast, Int.natAbs_natCast]
  have hdivq : 2 * (v.den : ℚ) * nearest v + ((2 * v.num.natAbs + v.den) % (2 * v.den) : Nat) =
      2 * (v * v.den) + v.den := by
    rw [hvq]
    exact_mod_cast hdiv
  have hmodq : (((2 * v.num.natAbs + v.den) % (2 * v.den) : Nat) : ℚ) < 2 * v.den := by exact_mod_cast hmod
  have hmod0 : (0 : ℚ) ≤ ((2 * v.num.natAbs + v.den) % (2 * v.den) : Nat) := cast_nonneg _
  rw [abs_le]
  constructor
  · by_contra hlow
    nlinarith
  · by_contra hhigh
    nlinarith

end Rational

end IntegerOop

namespace ScaledDecimal

open IntegerOop SmallInteger Rational

variable {d : ScaledDecimal} {r : Rational} {v : ℚ} {s : Nat}

/-- Of the value `v` and the scale `s`, in lowest terms. -/
structure Is (d : ScaledDecimal) (v : ℚ) (s : Nat) : Prop where
  numerator : d.numerator.Is v.num
  denominator : d.denominator.Is v.den
  scale : d.scale = s

theorem fromParts_eq {n d : IntegerOop} (hn : n.Valid) (hd : d.Valid) (hd0 : d.toInt ≠ 0) (s : Nat) :
    fromParts n d s = (lowest n d).map fun p => ⟨p.1, p.2, s⟩ := by
  have hzero : d.equal (small 0) = false := (isZero_eq hd).trans (decide_eq_false hd0)
  obtain ⟨u, hu, husign⟩ : ∃ u : Int, (u = 1 ∨ u = -1) ∧ (if d.less (small 0) then small (-1) else small 1) = small u := by
    split
    · exact ⟨-1, .inr rfl, rfl⟩
    · exact ⟨1, .inl rfl, rfl⟩
  obtain ⟨num, hnum, hna, -, -⟩ := times_unit hn hu
  obtain ⟨den, hden, hda, hdv, -⟩ := times_unit hd hu
  have hden0 : den.toInt ≠ 0 := by
    rw [hdv]
    rcases hu with rfl | rfl
    all_goals omega
  unfold fromParts lowest
  rw [hzero, if_neg Bool.false_ne_true, husign]
  simp only [hnum, hden, bind_eq_bind, bind_some]
  by_cases hrep : num.abs.isLarge = true ∨ den.abs.isLarge = false
  · obtain ⟨g, hg, hgc, -⟩ := gcd_spec hna.valid hda.valid hrep
    have hgpos : 0 < Int.gcd num.toInt den.toInt := Int.gcd_pos_of_ne_zero_right _ hden0
    have hgz : g.isZero = false := by
      rw [hgc.isZero]
      exact decide_eq_false (by omega)
    simp only [hg, bind_some, hgz, Bool.false_eq_true, if_false]
    cases num.floorDiv g with
    | none => rfl
    | some num' => cases den.floorDiv g <;> rfl
  · rw [gcd_none hda.valid hden0 hrep]
    rfl

theorem fromParts_is {n d : IntegerOop} (hn : n.Valid) (hd : d.Valid) (hd0 : d.toInt ≠ 0) (h : n.ReducesWhen d) (s : Nat) :
    ∃ x, fromParts n d s = some x ∧ x.Is (n.toInt / d.toInt) s := by
  obtain ⟨num, den, hrun, hlow⟩ := (lowest_iff hn hd hd0).1 h
  obtain ⟨hnum, hden⟩ := hlow.num_den hd0
  refine ⟨⟨num, den, s⟩, ?_, ⟨hlow.answered.1, hnum.symm⟩, ⟨hlow.answered.2, hden.symm⟩, rfl⟩
  rw [fromParts_eq hn hd hd0, hrun]
  rfl

theorem fromParts_lowest {n d : IntegerOop} (hn : n.Is v.num) (hd : d.Is v.den) (h : Divisible v) (s : Nat) :
    ∃ x, fromParts n d s = some x ∧ x.Is v s := by
  have hd0 : d.toInt ≠ 0 := by
    rw [hd.value]
    exact_mod_cast v.den_nz
  obtain ⟨x, hrun, hx⟩ := fromParts_is hn.answered.valid hd.answered.valid hd0 (h.reduces hn hd) s
  rw [hn.value, hd.value, Int.cast_natCast, Rat.num_div_den] at hx
  exact ⟨x, hrun, hx⟩

def units (v : ℚ) (s : Nat) : Nat := nearest (|v| * (10 ^ s : Nat))

/-- No SmallInteger is divided by a LargeInteger: not in lowest terms, not in rounding, and not by the power of ten. -/
structure Printable (v : ℚ) (s : Nat) : Prop where
  divisible : Divisible v
  rounds : (|v| * (10 ^ s : Nat)).den = 1 ∨
    2 ^ 61 ≤ 2 * (|v| * (10 ^ s : Nat)).num.natAbs + (|v| * (10 ^ s : Nat)).den ∨ 2 * (|v| * (10 ^ s : Nat)).den < 2 ^ 61
  splits : 2 ^ 61 ≤ units v s ∨ 10 ^ s < 2 ^ 61

def placesText (s n : Nat) : List Char := List.replicate (s - (Nat.toDigits 10 n).length) '0' ++ Nat.toDigits 10 n

def text (v : ℚ) (s : Nat) : List Char := (if v < 0 then ['-'] else []) ++ Nat.toDigits 10 (units v s / 10 ^ s) ++
    (if 0 < s then '.' :: placesText s (units v s % 10 ^ s) else []) ++ 's' :: Nat.toDigits 10 s

theorem printString_nat {i : IntegerOop} {n : Nat} (h : Exact i (n : Int)) : i.printString = some (Nat.toDigits 10 n) := by
  rw [printString_eq h.valid, h.toInt]
  unfold numeral
  rw [if_neg (by omega), Int.natAbs_natCast]
  rfl

theorem Is.prints (hd : d.Is v s) (h : Printable v s) : d.printOn = some (text v s) := by
  have hpow : 0 < 10 ^ s := Nat.pow_pos (by decide)
  obtain ⟨den, hden, hdene⟩ := raisedTo_exact (counts_small (n := 10) (by decide)) s
  obtain ⟨r, hr, hri⟩ := h.divisible.fraction hd.numerator hd.denominator
  obtain ⟨r₁, hr₁, hr₁i⟩ := hri.abs h.divisible
  have habs : Divisible |v| := by
    unfold Divisible
    rw [Rat.num_abs_eq_abs_num, Rat.den_abs_eq_den, Int.natAbs_abs]
    exact h.divisible
  obtain ⟨r₂, hr₂, hr₂i⟩ := hr₁i.times (abs_nonneg v) habs hdene.counts hpow
  have hnonneg : 0 ≤ |v| * (10 ^ s : Nat) := mul_nonneg (abs_nonneg v) (Nat.cast_nonneg _)
  obtain ⟨i, hi, hie⟩ := hr₂i.rounded hnonneg h.rounds
  have hie : Exact i (units v s) := hie
  obtain ⟨q, m, hq, hm, hqe, hme⟩ := hie.counts.floored hdene.counts hpow (by
    rw [hie.isLarge_iff, Bool.eq_false_iff, ne_eq, hdene.isLarge_iff, not_le]
    exact h.splits)
  have hsign : d.numerator.less (small 0) = decide (v < 0) := by
    have hneg := negative_eq hd.numerator.answered.valid
    rw [hd.numerator.value] at hneg
    exact hneg.trans (decide_eq_decide.mpr Rat.num_neg)
  have hfrac : d.asFraction = some r := hr
  have hscale : (small 10).raisedTo d.scale = some den := by rw [hd.scale]; exact hden
  unfold printOn
  refine answers hscale (answers hfrac ?_)
  refine answers hr₁ (answers hr₂ ?_)
  refine answers hi (answers hq ?_)
  refine answers hm (answers (printString_nat hqe) ?_)
  refine answers (printString_nat hme) ?_
  rw [hsign, hd.scale]
  simp only [decide_eq_true_eq]
  rfl

end ScaledDecimal

end WinArmVm
