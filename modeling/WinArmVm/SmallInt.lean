import Mathlib.Tactic.Ring
import Mathlib.Tactic.Linarith

namespace WinArmVm.Oops

open Int

def SMI_MAX : Int64 := 2305843009213693951
def SMI_MIN : Int64 := -2305843009213693952

structure SmallInt where
  raw : UInt64
  tag : raw.toNat % 4 = 0
deriving DecidableEq

/-- What fits in an `i64`. -/
def inI64 (z : Int) : Bool := -2 ^ 63 ≤ z && z < 2 ^ 63

/-- `i64::checked_add` and its siblings, of the exact result. -/
def checkedI64 (z : Int) : Option Int64 := if inI64 z then some (Int64.ofInt z) else none

theorem shift_tag (v : UInt64) : (v <<< 2).toNat % 4 = 0 := by
  have h : (v <<< 2).toNat = v.toNat * 4 % 2 ^ 64 := by
    simp [UInt64.toNat_shiftLeft, Nat.shiftLeft_eq]
  omega

def floorDiv (a b : Int64) : Int64 :=
  let q := a / b
  let r := a % b
  if r ≠ 0 ∧ (decide (r < 0) ≠ decide (b < 0)) then q - 1 else q

def floorMod (a b : Int64) : Int64 :=
  let r := a % b
  if r ≠ 0 ∧ (decide (r < 0) ≠ decide (b < 0)) then r + b else r

namespace SmallInt

def tryNew (v : Int64) : Option SmallInt :=
  if SMI_MIN ≤ v ∧ v ≤ SMI_MAX then some ⟨v.toUInt64 <<< 2, shift_tag _⟩ else none

def value (s : SmallInt) : Int64 := s.raw.toInt64 >>> 2

def checkedAdd (s rhs : SmallInt) : Option SmallInt := (checkedI64 (s.value.toInt + rhs.value.toInt)).bind tryNew

def checkedSub (s rhs : SmallInt) : Option SmallInt := (checkedI64 (s.value.toInt - rhs.value.toInt)).bind tryNew

def checkedMul (s rhs : SmallInt) : Option SmallInt := (checkedI64 (s.value.toInt * rhs.value.toInt)).bind tryNew

def checkedDiv (s rhs : SmallInt) : Option SmallInt :=
  let a := s.value
  let b := rhs.value
  if b = 0 then none else tryNew (floorDiv a b)

def checkedRem (s rhs : SmallInt) : Option SmallInt :=
  let a := s.value
  let b := rhs.value
  if b = 0 then none else tryNew (floorMod a b)

/-- The value as an `i128`, shifted. -/
def shifted (s : SmallInt) (by_ : UInt32) : BitVec 128 := s.value.toBitVec.signExtend 128 <<< by_.toNat

def checkedShl (s : SmallInt) (by_ : UInt32) : Option SmallInt :=
  if 64 ≤ by_ then none
  else
    let shifted := s.shifted by_
    if (SMI_MAX.toBitVec.signExtend 128).slt shifted ∨ shifted.slt (SMI_MIN.toBitVec.signExtend 128) then none
    else tryNew (Int64.ofBitVec (shifted.setWidth 64))

/-- What an operation with the exact result `z` should answer. -/
def ExactAt (o : Option SmallInt) (z : Int) : Prop :=
  ∀ r : SmallInt, o = some r ↔ (-2 ^ 61 ≤ z ∧ z < 2 ^ 61) ∧ r.value.toInt = z

theorem toInt_max : SMI_MAX.toInt = 2 ^ 61 - 1 := by decide

theorem toInt_min : SMI_MIN.toInt = -2 ^ 61 := by decide

theorem raw_toInt (s : SmallInt) : s.raw.toInt64.toInt = 4 * s.value.toInt := by
  have htag := s.tag
  have hlt := s.raw.toNat_lt
  have hv : s.value.toInt = s.raw.toInt64.toInt / 4 := by
    have h : s.value.toInt = (s.raw.toInt64.toBitVec.sshiftRight 2).toInt := rfl
    rw [h, BitVec.toInt_sshiftRight, shiftRight_eq_div_pow]
    rfl
  have hr : s.raw.toInt64.toInt = (s.raw.toNat : Int).bmod (2 ^ 64) := by
    have h : s.raw.toInt64.toInt = s.raw.toBitVec.toInt := rfl
    rw [h, BitVec.toInt_eq_toNat_bmod]
    rfl
  have hdvd : s.raw.toInt64.toInt % 4 = 0 := by
    rw [hr, bmod_def]
    split <;> omega
  omega

theorem value_bounds (s : SmallInt) : -2 ^ 61 ≤ s.value.toInt ∧ s.value.toInt < 2 ^ 61 := by
  have h := s.raw_toInt
  have hle := s.raw.toInt64.le_toInt
  have hlt := s.raw.toInt64.toInt_lt
  omega

theorem value_inj {s t : SmallInt} (h : s.value.toInt = t.value.toInt) : s = t := by
  obtain ⟨raw, hs⟩ := s
  obtain ⟨raw', ht⟩ := t
  have h1 := raw_toInt ⟨raw, hs⟩
  have h2 := raw_toInt ⟨raw', ht⟩
  have heq : raw.toInt64 = raw'.toInt64 := Int64.toInt_inj.mp (by rw [h1, h2, h])
  have hraw : raw = raw' := by
    rw [← UInt64.toUInt64_toInt64 raw, heq, UInt64.toUInt64_toInt64]
  subst hraw
  rfl

theorem tryNew_exact (v : Int64) : ExactAt (tryNew v) v.toInt := by
  intro r
  unfold tryNew
  have hmin : SMI_MIN ≤ v ↔ -2 ^ 61 ≤ v.toInt := by
    rw [Int64.le_iff_toInt_le, toInt_min]
  have hmax : v ≤ SMI_MAX ↔ v.toInt < 2 ^ 61 := by
    rw [Int64.le_iff_toInt_le, toInt_max]
    omega
  rw [← hmin, ← hmax]
  split
  next hv =>
    have hlow := hmin.mp hv.1
    have hhigh := hmax.mp hv.2
    have hval : (⟨v.toUInt64 <<< 2, shift_tag _⟩ : SmallInt).value.toInt = v.toInt := by
      have hraw := raw_toInt ⟨v.toUInt64 <<< 2, shift_tag _⟩
      have hshift : (v.toUInt64 <<< 2).toInt64.toInt = (v.toInt * 4).bmod (2 ^ 64) := by
        have h : (v.toUInt64 <<< 2).toInt64.toInt = (v.toBitVec <<< 2).toInt := rfl
        have hto : v.toInt = (v.toBitVec.toNat : Int).bmod (2 ^ 64) := BitVec.toInt_eq_toNat_bmod _
        rw [h, BitVec.toInt_shiftLeft, Nat.shiftLeft_eq, hto, bmod_mul_bmod]
        push_cast
        rfl
      have hbmod : (v.toInt * 4).bmod (2 ^ 64) = v.toInt * 4 := bmod_eq_of_le (by omega) (by omega)
      rw [hshift, hbmod] at hraw
      omega
    constructor
    · intro h
      cases h
      exact ⟨hv, hval⟩
    · rintro ⟨-, hr⟩
      rw [value_inj (hval.trans hr.symm)]
  next hv =>
    constructor
    · intro h
      cases h
    · rintro ⟨hr, -⟩
      exact absurd hr hv

theorem checkedI64_bind {z : Int} (h : -2 ^ 63 ≤ z ∧ z < 2 ^ 63) : ExactAt ((checkedI64 z).bind tryNew) z := by
  have hin : inI64 z = true := by
    unfold inI64
    simp only [Bool.and_eq_true, decide_eq_true_eq]
    exact h
  have hz : (Int64.ofInt z).toInt = z := by
    rw [Int64.toInt_ofInt]
    exact bmod_eq_of_le (by simp only [Int64.size]; omega) (by simp only [Int64.size]; omega)
  unfold checkedI64
  rw [if_pos hin]
  have hexact := tryNew_exact (Int64.ofInt z)
  rwa [hz] at hexact

theorem checkedI64_none {z : Int} (h : ¬ (-2 ^ 63 ≤ z ∧ z < 2 ^ 63)) : ExactAt ((checkedI64 z).bind tryNew) z := by
  have hin : ¬ inI64 z = true := by
    unfold inI64
    simp only [Bool.and_eq_true, decide_eq_true_eq]
    exact h
  intro r
  unfold checkedI64
  rw [if_neg hin]
  constructor
  · intro hr
    cases hr
  · rintro ⟨hz, -⟩
    omega

theorem checked_exact (z : Int) : ExactAt ((checkedI64 z).bind tryNew) z := by
  by_cases h : -2 ^ 63 ≤ z ∧ z < 2 ^ 63
  · exact checkedI64_bind h
  · exact checkedI64_none h

end SmallInt

theorem floor_of_trunc {a b : Int} (hb : b ≠ 0) : (a.tmod b ≠ 0 ∧ decide (a.tmod b < 0) ≠ decide (b < 0) →
      a.fdiv b = a.tdiv b - 1 ∧ a.fmod b = a.tmod b + b) ∧
    (¬ (a.tmod b ≠ 0 ∧ decide (a.tmod b < 0) ≠ decide (b < 0)) →
      a.fdiv b = a.tdiv b ∧ a.fmod b = a.tmod b) := by
  have hsum := Int.mul_tdiv_add_tmod a b
  have habs := Int.natAbs_tmod a b
  have hlt : (a.tmod b).natAbs < b.natAbs := by
    rw [habs]
    exact Nat.mod_lt _ (by omega)
  have hprev : a.tmod b + b + b * (a.tdiv b - 1) = a := by
    have hring : b * (a.tdiv b - 1) = b * a.tdiv b - b := by ring
    omega
  have hsame : a.tmod b + b * a.tdiv b = a := by omega
  simp only [ne_eq, decide_eq_decide]
  rcases Int.lt_or_gt_of_ne hb with hneg | hpos
  · constructor
    · intro hr
      exact (Int.fdiv_fmod_unique' hneg).mpr ⟨hprev, by omega, by omega⟩
    · intro hr
      exact (Int.fdiv_fmod_unique' hneg).mpr ⟨hsame, by omega, by omega⟩
  · constructor
    · intro hr
      exact (Int.fdiv_fmod_unique hpos).mpr ⟨hprev, by omega, by omega⟩
    · intro hr
      exact (Int.fdiv_fmod_unique hpos).mpr ⟨hsame, by omega, by omega⟩

namespace SmallInt

variable (a b : SmallInt)

theorem division_exact (hb : b.value.toInt ≠ 0) : (a.value / b.value).toInt = a.value.toInt.tdiv b.value.toInt ∧
      (a.value / b.value - 1).toInt = a.value.toInt.tdiv b.value.toInt - 1 ∧
      (a.value % b.value + b.value).toInt = a.value.toInt.tmod b.value.toInt + b.value.toInt := by
  obtain ⟨ha1, ha2⟩ := a.value_bounds
  obtain ⟨hb1, hb2⟩ := b.value_bounds
  have hq := natAbs_tdiv_le_natAbs a.value.toInt b.value.toInt
  have hr : (a.value.toInt.tmod b.value.toInt).natAbs < b.value.toInt.natAbs := by
    rw [natAbs_tmod]
    exact Nat.mod_lt _ (by omega)
  have hdiv : (a.value / b.value).toInt = a.value.toInt.tdiv b.value.toInt := by
    rw [Int64.toInt_div]
    exact bmod_eq_of_le (by omega) (by omega)
  refine ⟨hdiv, ?_, ?_⟩
  · rw [Int64.toInt_sub, hdiv]
    exact bmod_eq_of_le (by simp; omega) (by simp; omega)
  · rw [Int64.toInt_add, Int64.toInt_mod]
    exact bmod_eq_of_le (by omega) (by omega)

theorem floor_exact (hb : b.value.toInt ≠ 0) : (floorDiv a.value b.value).toInt = a.value.toInt.fdiv b.value.toInt ∧
      (floorMod a.value b.value).toInt = a.value.toInt.fmod b.value.toInt := by
  obtain ⟨hq, hq', hr'⟩ := division_exact a b hb
  obtain ⟨hadjust, hkeep⟩ := @floor_of_trunc a.value.toInt b.value.toInt hb
  have hcond : (a.value % b.value ≠ 0 ∧ decide (a.value % b.value < 0) ≠ decide (b.value < 0)) ↔
      (a.value.toInt.tmod b.value.toInt ≠ 0 ∧
        decide (a.value.toInt.tmod b.value.toInt < 0) ≠ decide (b.value.toInt < 0)) := by
    simp only [ne_eq, ← Int64.toInt_inj, decide_eq_decide, Int64.lt_iff_toInt_lt, Int64.toInt_mod, Int64.toInt_zero]
  unfold floorDiv floorMod
  by_cases h : a.value % b.value ≠ 0 ∧ decide (a.value % b.value < 0) ≠ decide (b.value < 0)
  · rw [if_pos h, if_pos h]
    obtain ⟨h1, h2⟩ := hadjust (hcond.mp h)
    exact ⟨hq'.trans h1.symm, hr'.trans h2.symm⟩
  · rw [if_neg h, if_neg h]
    obtain ⟨h1, h2⟩ := hkeep fun hc => h (hcond.mpr hc)
    refine ⟨hq.trans h1.symm, ?_⟩
    rw [Int64.toInt_mod]
    exact h2.symm

theorem value_eq_zero {b : SmallInt} : b.value = 0 ↔ b.value.toInt = 0 := by
  rw [← Int64.toInt_inj]
  simp

theorem checkedDiv_exact (hb : b.value.toInt ≠ 0) : ExactAt (a.checkedDiv b) (a.value.toInt.fdiv b.value.toInt) := by
  unfold checkedDiv
  rw [if_neg fun h => hb (value_eq_zero.mp h), ← (floor_exact a b hb).1]
  exact tryNew_exact _

theorem checkedRem_exact (hb : b.value.toInt ≠ 0) : ExactAt (a.checkedRem b) (a.value.toInt.fmod b.value.toInt) := by
  unfold checkedRem
  rw [if_neg fun h => hb (value_eq_zero.mp h), ← (floor_exact a b hb).2]
  exact tryNew_exact _

theorem shifted_toInt (s : SmallInt) {n : UInt32} (hn : n < 64) :
    (s.shifted n).toInt = s.value.toInt * 2 ^ n.toNat := by
  obtain ⟨hlow, hhigh⟩ := s.value_bounds
  have hlt : n.toNat < 64 := UInt32.lt_iff_toNat_lt.mp hn
  have hext : (s.value.toBitVec.signExtend 128).toInt = s.value.toInt := BitVec.toInt_signExtend_of_le (by decide)
  have hpow : (2 : Int) ^ n.toNat ≤ 2 ^ 63 := by
    exact_mod_cast Nat.pow_le_pow_right (by decide) (by omega)
  have hpos : (0 : Int) < 2 ^ n.toNat := by positivity
  have hto : s.value.toInt =
      ((s.value.toBitVec.signExtend 128).toNat : Int).bmod (2 ^ 128) := by
    rw [← hext]
    exact BitVec.toInt_eq_toNat_bmod _
  have hbmod : (s.value.toInt * 2 ^ n.toNat).bmod (2 ^ 128) = s.value.toInt * 2 ^ n.toNat := by
    have hbelow : -2 ^ 124 ≤ s.value.toInt * 2 ^ n.toNat := by nlinarith
    have habove : s.value.toInt * 2 ^ n.toNat ≤ 2 ^ 124 := by nlinarith
    generalize s.value.toInt * 2 ^ n.toNat = z at hbelow habove ⊢
    exact bmod_eq_of_le (by omega) (by omega)
  unfold shifted
  rw [BitVec.toInt_shiftLeft, Nat.shiftLeft_eq, ← hbmod]
  conv_rhs => rw [hto, bmod_mul_bmod]
  push_cast
  rfl

theorem checkedShl_exact (s : SmallInt) {n : UInt32} (hn : n < 64) :
    ExactAt (s.checkedShl n) (s.value.toInt * 2 ^ n.toNat) := by
  have hshift := s.shifted_toInt hn
  have hmax : (SMI_MAX.toBitVec.signExtend 128).toInt = 2 ^ 61 - 1 := by decide
  have hmin : (SMI_MIN.toBitVec.signExtend 128).toInt = -2 ^ 61 := by decide
  have hn' : ¬ 64 ≤ n := by
    rw [UInt32.le_iff_toNat_le]
    have hlt := UInt32.lt_iff_toNat_lt.mp hn
    omega
  unfold checkedShl
  rw [if_neg hn']
  simp only [BitVec.slt_iff_toInt_lt, hmax, hmin, hshift]
  split
  next hout =>
    intro r
    constructor
    · intro hr
      cases hr
    · rintro ⟨hfit, -⟩
      omega
  next hin =>
    have hnarrow : (Int64.ofBitVec ((s.shifted n).setWidth 64)).toInt =
        s.value.toInt * 2 ^ n.toNat := by
      have h : (Int64.ofBitVec ((s.shifted n).setWidth 64)).toInt = ((s.shifted n).setWidth 64).toInt := rfl
      rw [h, BitVec.toInt_setWidth]
      have hto : (s.shifted n).toInt = ((s.shifted n).toNat : Int).bmod (2 ^ 128) := BitVec.toInt_eq_toNat_bmod _
      have hdvd : ((s.shifted n).toNat : Int).bmod (2 ^ 64) =
          (s.shifted n).toInt.bmod (2 ^ 64) := by
        rw [hto, bmod_bmod_of_dvd (by norm_num)]
      rw [hdvd, hshift]
      exact bmod_eq_of_le (by omega) (by omega)
    rw [← hnarrow]
    exact tryNew_exact _

/-- What the operations rely on in their machine words: a tagged word holds four times its value,
and no sum, difference, division step or shift leaves the word it is computed in. -/
structure WordsHold (a b : SmallInt) (n : UInt32) : Prop where
  tagged : a.raw.toInt64.toInt = 4 * a.value.toInt
  sum : inI64 (a.value.toInt + b.value.toInt)
  difference : inI64 (a.value.toInt - b.value.toInt)
  quotient : b.value.toInt ≠ 0 → (a.value / b.value).toInt = a.value.toInt.tdiv b.value.toInt ∧
      (a.value / b.value - 1).toInt = a.value.toInt.tdiv b.value.toInt - 1 ∧
      (a.value % b.value + b.value).toInt = a.value.toInt.tmod b.value.toInt + b.value.toInt
  shift : n < 64 → (a.shifted n).toInt = a.value.toInt * 2 ^ n.toNat

theorem wordsHold (n : UInt32) : WordsHold a b n := by
  obtain ⟨ha1, ha2⟩ := a.value_bounds
  obtain ⟨hb1, hb2⟩ := b.value_bounds
  refine ⟨a.raw_toInt, ?_, ?_, division_exact a b, fun hn => a.shifted_toInt hn⟩
  · unfold inI64
    simp only [Bool.and_eq_true, decide_eq_true_eq]
    omega
  · unfold inI64
    simp only [Bool.and_eq_true, decide_eq_true_eq]
    omega

theorem shl_out_of_range {v : Int} {n : Nat} (hv : v ≠ 0) (hn : 64 ≤ n) :
    ¬ (-2 ^ 61 ≤ v * 2 ^ n ∧ v * 2 ^ n < 2 ^ 61) := by
  have hpow : (2 : Int) ^ 64 ≤ 2 ^ n := by
    exact_mod_cast Nat.pow_le_pow_right (by decide) hn
  rcases lt_or_gt_of_ne hv with hneg | hpos
  · intro h
    nlinarith
  · intro h
    nlinarith

/-- Every operation answers the exact result when that is a small integer and nothing when it is
not; a shift of 64 places or more answers nothing whatever it shifts. -/
theorem arithmetic_exact (a b : SmallInt) (n : UInt32) : ExactAt (a.checkedAdd b) (a.value.toInt + b.value.toInt) ∧
      ExactAt (a.checkedSub b) (a.value.toInt - b.value.toInt) ∧
      ExactAt (a.checkedMul b) (a.value.toInt * b.value.toInt) ∧
      (b.value.toInt ≠ 0 → ExactAt (a.checkedDiv b) (a.value.toInt.fdiv b.value.toInt) ∧
        ExactAt (a.checkedRem b) (a.value.toInt.fmod b.value.toInt)) ∧
      (b.value.toInt = 0 → a.checkedDiv b = none ∧ a.checkedRem b = none) ∧
      (n < 64 ∨ a.value.toInt ≠ 0 → ExactAt (a.checkedShl n) (a.value.toInt * 2 ^ n.toNat)) ∧
      (64 ≤ n → a.checkedShl n = none) ∧
      (∀ q r, a.checkedDiv b = some q → a.checkedRem b = some r →
        a.value.toInt = q.value.toInt * b.value.toInt + r.value.toInt ∧
          (0 ≤ r.value.toInt ∧ r.value.toInt < b.value.toInt ∨ b.value.toInt < r.value.toInt ∧ r.value.toInt ≤ 0)) ∧
      WordsHold a b n := by
  have hzero : b.value.toInt = 0 → a.checkedDiv b = none ∧ a.checkedRem b = none := by
    intro hb
    unfold checkedDiv checkedRem
    simp only [value_eq_zero.mpr hb, if_true, and_self]
  have hover : 64 ≤ n → a.checkedShl n = none := fun hn => if_pos hn
  refine ⟨checked_exact _, checked_exact _, checked_exact _, fun hb =>
    ⟨checkedDiv_exact a b hb, checkedRem_exact a b hb⟩, hzero, ?_, hover, ?_, wordsHold a b n⟩
  · intro h
    by_cases hn : n < 64
    · exact checkedShl_exact a hn
    · have hge : 64 ≤ n := by
        rw [UInt32.le_iff_toNat_le]
        rw [UInt32.lt_iff_toNat_lt] at hn
        exact Nat.not_lt.mp hn
      have hv : a.value.toInt ≠ 0 := h.resolve_left hn
      rw [hover hge]
      intro r
      constructor
      · intro hr
        cases hr
      · rintro ⟨hfit, -⟩
        exact absurd hfit (shl_out_of_range hv (UInt32.le_iff_toNat_le.mp hge))
  · intro q r hq hr
    by_cases hb : b.value.toInt = 0
    · rw [(hzero hb).1] at hq
      cases hq
    · obtain ⟨-, hqv⟩ := (checkedDiv_exact a b hb q).mp hq
      obtain ⟨-, hrv⟩ := (checkedRem_exact a b hb r).mp hr
      rw [hqv, hrv]
      refine ⟨(Int.mul_comm _ _ ▸ (Int.mul_fdiv_add_fmod _ _)).symm, ?_⟩
      rcases Int.lt_or_gt_of_ne hb with hneg | hpos
      · have h := ((Int.fdiv_fmod_unique' hneg).mp ⟨rfl, rfl⟩ :
          _ + b.value.toInt * a.value.toInt.fdiv b.value.toInt = a.value.toInt ∧ _)
        exact .inr h.2
      · have h := ((Int.fdiv_fmod_unique hpos).mp ⟨rfl, rfl⟩ :
          _ + b.value.toInt * a.value.toInt.fdiv b.value.toInt = a.value.toInt ∧ _)
        exact .inl h.2

theorem arithmetic_exact_seven : checkedDiv ⟨UInt64.ofNat (2 ^ 64 - 28), by decide⟩ ⟨8, rfl⟩ =
        some ⟨UInt64.ofNat (2 ^ 64 - 16), by decide⟩ ∧
      checkedRem ⟨UInt64.ofNat (2 ^ 64 - 28), by decide⟩ ⟨8, rfl⟩ = some ⟨4, rfl⟩ ∧
      checkedShl ⟨4, rfl⟩ 60 = some ⟨UInt64.ofNat (2 ^ 62), by decide⟩ := by
  obtain ⟨-, -, -, hdiv, -⟩ := arithmetic_exact ⟨UInt64.ofNat (2 ^ 64 - 28), by decide⟩ ⟨8, rfl⟩ 0
  obtain ⟨-, -, -, -, -, hshl, -⟩ := arithmetic_exact ⟨4, rfl⟩ ⟨8, rfl⟩ 60
  obtain ⟨hq, hr⟩ := hdiv (by decide)
  exact ⟨(hq _).mpr ⟨by decide, by decide⟩, (hr _).mpr ⟨by decide, by decide⟩,
    (hshl (.inl (by decide)) _).mpr ⟨by decide, by decide⟩⟩

/-- Zero shifted by 64 places is zero. -/
theorem zero_shl_none : ¬ ExactAt (checkedShl ⟨0, rfl⟩ 64) (0 * 2 ^ 64) := by
  intro h
  have hnone : checkedShl ⟨0, rfl⟩ 64 = none := rfl
  rw [hnone] at h
  have hsome := (h ⟨0, rfl⟩).mpr ⟨by decide, by decide⟩
  cases hsome

end SmallInt

end WinArmVm.Oops
