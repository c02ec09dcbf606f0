import WinArmVm.IntegerText

namespace WinArmVm

open Int DigitArithmetic
open Nat (ofDigits)

def CarryPower (n : Nat) : Prop := ∃ k, 1 ≤ k ∧ k ≤ 7 ∧ n = 256 ^ k

theorem CarryPower.bounds {n : Nat} (h : CarryPower n) : 256 ≤ n ∧ n ≤ 2 ^ 56 := by
  obtain ⟨k, hk, hk7, rfl⟩ := h
  exact ⟨Nat.pow_le_pow_right (n := 256) (by decide) hk, Nat.pow_le_pow_right (n := 256) (by decide) hk7⟩

/-- Floored division: the remainder is zero or has the sign of the divisor, and is smaller. -/
structure FlooredBy (a b q r : Int) : Prop where
  parts : a = q * b + r
  sign : r = 0 ∨ r.sign = b.sign
  smaller : r.natAbs < b.natAbs

namespace FlooredBy

variable {a b q r : Int}

theorem eq (h : FlooredBy a b q r) : q = a.fdiv b ∧ r = a.fmod b := by
  obtain ⟨hparts, hsign, hsmaller⟩ := h
  have hcomm : r + b * q = a := by rw [hparts, Int.mul_comm]; omega
  rcases Int.lt_or_gt_of_ne (show b ≠ 0 by omega) with hb | hb
  · have hr : r ≤ 0 := by
      rcases hsign with h | h
      · omega
      · rw [Int.sign_eq_neg_one_of_neg hb] at h
        have := Int.sign_eq_neg_one_iff_neg.mp h
        omega
    obtain ⟨hd, hm⟩ := (Int.fdiv_fmod_unique' hb).mpr ⟨hcomm, by omega, hr⟩
    exact ⟨hd.symm, hm.symm⟩
  · have hr : 0 ≤ r := by
      rcases hsign with h | h
      · omega
      · rw [Int.sign_eq_one_of_pos hb] at h
        have := Int.sign_eq_one_iff_pos.mp h
        omega
    obtain ⟨hd, hm⟩ := (Int.fdiv_fmod_unique hb).mpr ⟨hcomm, hr, by omega⟩
    exact ⟨hd.symm, hm.symm⟩

theorem fdiv_fmod (a : Int) (hb : b ≠ 0) : FlooredBy a b (a.fdiv b) (a.fmod b) := by
  have hparts := Int.fmod_add_fdiv_mul a b
  rcases Int.lt_or_gt_of_ne hb with hb | hb
  · obtain ⟨-, hlow, hhigh⟩ := (Int.fdiv_fmod_unique' (a := a) hb).mp ⟨rfl, rfl⟩
    refine ⟨by omega, ?_, by omega⟩
    rw [Int.sign_eq_neg_one_of_neg hb, Int.sign_eq_neg_one_iff_neg]
    omega
  · obtain ⟨-, hlow, hhigh⟩ := (Int.fdiv_fmod_unique (a := a) hb).mp ⟨rfl, rfl⟩
    refine ⟨by omega, ?_, by omega⟩
    rw [Int.sign_eq_one_of_pos hb, Int.sign_eq_one_iff_pos]
    omega

theorem negate (h : FlooredBy a b q r) : FlooredBy (-a) (-b) q (-r) := by
  obtain ⟨hparts, hsign, hsmaller⟩ := h
  refine ⟨by rw [hparts]; ring, ?_, by omega⟩
  rw [sign_neg, sign_neg]
  rcases hsign with h | h
  · exact .inl (by omega)
  · exact .inr (by rw [h])

theorem signed {x y : Int} (h : FlooredBy a b q r) (hneg : y < 0 → x = -a ∧ y = -b) (hpos : ¬ y < 0 → x = a ∧ y = b) :
    FlooredBy x y q (if y < 0 then -r else r) := by
  by_cases hy : y < 0
  · rw [if_pos hy, (hneg hy).1, (hneg hy).2]
    exact h.negate
  · rw [if_neg hy, (hpos hy).1, (hpos hy).2]
    exact h

theorem of_nat {m n x y : Nat} (h : x * n + y = m) (hlt : y < n) : FlooredBy m n x y := by
  refine ⟨by exact_mod_cast h.symm, ?_, by omega⟩
  rw [sign_eq_one_of_pos (show (0 : Int) < n by omega), sign_eq_one_iff_pos]
  omega

theorem of_neg_exact {m n x : Nat} (h : x * n = m) (hn : 0 < n) : FlooredBy (-(m : Int)) n (-(x : Int)) 0 := by
  refine ⟨?_, .inl rfl, by omega⟩
  rw [← h]
  push_cast
  ring

theorem of_neg {m n x y : Nat} (h : x * n + y = m) (hpos : 0 < y) (hlt : y < n) :
    FlooredBy (-(m : Int)) n (-((x + 1 : Nat) : Int)) (n - y : Nat) := by
  refine ⟨?_, .inr ?_, by omega⟩
  · rw [← h, ofNat_sub (by omega)]
    push_cast
    ring
  · rw [sign_eq_one_of_pos (show (0 : Int) < n by omega), sign_eq_one_iff_pos]
    omega

end FlooredBy

namespace IntegerOop

open SmallInteger LargeInteger

variable {a b q r : IntegerOop} {m n : Nat}

theorem carryPower_iff : CarryPower n ↔ fits (-(n : Int)) = true ∧ CarryLost (-(n : Int)) := by
  constructor
  · rintro ⟨k, hk, hk7, rfl⟩
    have hle := Nat.pow_le_pow_right (n := 256) (by decide) hk7
    refine ⟨fits_iff.mpr ?_, k, hk, rfl⟩
    generalize 256 ^ k = p at hle ⊢
    omega
  · rintro ⟨hf, k, hk, he⟩
    have hlow := (fits_iff.mp hf).1
    refine ⟨k, hk, ?_, by omega⟩
    by_contra hbig
    have := Nat.pow_le_pow_right (n := 256) (by decide) (show 8 ≤ k by omega)
    omega

theorem isZero_eq (ha : a.Valid) : a.isZero = decide (a.toInt = 0) := by
  cases a with
  | small v => rfl
  | large l => exact equal_exact (b := small 0) ha (show fits 0 = true by decide) (fun h => h) (not_carryLost_nonneg le_rfl)

theorem negative_eq (ha : a.Valid) : a.negative = decide (a.toInt < 0) := by
  cases a with
  | small v => rfl
  | large l => exact less_exact (b := small 0) ha (show fits 0 = true by decide) (fun h => h) (not_carryLost_nonneg le_rfl)

theorem sign_eq (ha : a.Valid) : a.sign = a.toInt.sign := by
  have hless : a.less (small 0) = decide (a.toInt < 0) := negative_eq ha
  have hgreater : a.greater (small 0) = decide (0 < a.toInt) := by
    cases a with
    | small v => rfl
    | large l =>
      exact greater_exact (b := small 0) ha (show fits 0 = true by decide) (fun h => h) (not_carryLost_nonneg le_rfl)
  unfold IntegerOop.sign
  rw [hless, hgreater]
  rcases lt_trichotomy a.toInt 0 with h | h | h
  · rw [decide_eq_true h, if_pos rfl, sign_eq_neg_one_of_neg h]
  · rw [h]
    rfl
  · rw [decide_eq_false (by omega), decide_eq_true h, if_neg Bool.false_ne_true, if_pos rfl, sign_eq_one_of_pos h]

theorem Answered.exact (ha : a.Answered) (hpos : 0 ≤ a.toInt) : Exact a a.toInt := by
  cases a with
  | small v => exact exact_small ha
  | large l =>
    have hpos : 0 ≤ l.toInt := hpos
    have hbig : 2 ^ 61 ≤ l.toInt.natAbs := ha.big rfl
    unfold Exact
    rw [if_neg (fun hf => by have hf : fits l.toInt = true := hf; have := fits_iff.mp hf; omega)]
    exact ⟨l, rfl, ha.1, rfl⟩

theorem negated_exact (ha : a.Valid) (hneg : a.toInt < 0) : Exact a.negated (a.toInt.natAbs : Nat) := by
  have hz : -a.toInt = ((a.toInt.natAbs : Nat) : Int) := by omega
  cases a with
  | small v =>
    have hlow := fits_iff.mp ha
    have hneg : v < 0 := hneg
    by_cases hlost : v = minVal
    · have h := (negated_exact_iff (a := small v) ha (hlost ▸ not_carryLost_min)).mpr (by
        show v ≠ -minVal
        have hmin : minVal = -2 ^ 61 := by decide
        omega)
      rw [hz] at h
      exact h
    · have hmin : minVal = -2 ^ 61 := by decide
      have hfit : fits (0 - v) = true := fits_iff.mpr (by omega)
      have hrun : (small v).negated = small (0 - v) := if_pos hfit
      have hv : ((v.natAbs : Nat) : Int) = 0 - v := by omega
      show Exact (small v).negated ((v.natAbs : Nat) : Int)
      rw [hrun, hv]
      exact exact_small hfit
  | large l =>
    have hok : l.Ok := ha
    have hn := negated_normal hok.trimmed.1
    have hz : -l.toInt = ((l.toInt.natAbs : Nat) : Int) := hz
    rw [hz] at hn
    exact hn.exact_iff.mpr (Counts.ne_min _)

theorem abs_eq (ha : a.Valid) : a.abs = if a.toInt < 0 then a.negated else a := by
  have hless : a.less (small 0) = decide (a.toInt < 0) := negative_eq ha
  unfold IntegerOop.abs
  rw [hless]
  by_cases hneg : a.toInt < 0
  · rw [decide_eq_true hneg, if_pos rfl, if_pos hneg]
  · rw [decide_eq_false hneg, if_neg Bool.false_ne_true, if_neg hneg]

theorem abs_counts (ha : a.Valid) : a.abs.Counts a.toInt.natAbs := by
  rw [abs_eq ha]
  split
  next hneg => exact (negated_exact ha hneg).counts
  next hpos => exact ⟨ha, by omega⟩

theorem abs_exact (ha : a.Answered) : Exact a.abs (a.toInt.natAbs : Nat) := by
  rw [abs_eq ha.valid]
  split
  next hneg => exact negated_exact ha.valid hneg
  next hpos =>
    have hz : a.toInt = ((a.toInt.natAbs : Nat) : Int) := by omega
    rw [← hz]
    exact ha.exact (by omega)

theorem Counts.negated (h : a.Counts n) : a.negated.Answered ∧ a.negated.toInt = -(n : Int) := by
  cases a with
  | small v =>
    have hv : v = n := h.value
    have := fits_iff.mp h.valid
    have hfit : fits (0 - v) = true := fits_iff.mpr (by omega)
    have hrun : (small v).negated = small (0 - v) := if_pos hfit
    rw [hrun]
    exact ⟨hfit, by show 0 - v = -(n : Int); omega⟩
  | large l =>
    have hok : l.Ok := h.valid
    have hvalue : l.toInt = n := h.value
    have hn := negated_normal hok.trimmed.1
    rw [hvalue] at hn
    exact ⟨hn.answered, hn.toInt⟩

theorem Counts.plus_eq {k : Nat} (ha : a.Counts m) (hb : b.Counts n) (hk : m + n = k) : Exact (a.plus b) (k : Int) :=
  hk ▸ ha.plus hb

theorem Counts.minus_kept (ha : a.Counts m) (hr : Exact r (n : Int)) (hlt : n < m)
    (hkeep : a.isLarge = true → ¬ CarryPower n) : Exact (a.minus r) ((m - n : Nat) : Int) := by
  have hrc := hr.counts
  have h := (minus_exact_iff ha.valid hrc.valid ha.not_lost hrc.not_lost).mpr
  rw [ha.value, hrc.value, ← ofNat_sub (by omega)] at h
  refine h ⟨fun hbig hlost => ?_, fun _ => Counts.ne_min _⟩
  obtain ⟨hf, hcarry, -⟩ := hlost
  rw [hrc.value] at hf hcarry
  have hpower := carryPower_iff.mpr ⟨hf, hcarry⟩
  cases a with
  | large l => exact hkeep rfl hpower
  | small v =>
    have hv : v = m := ha.value
    have hrange := fits_iff.mp ha.valid
    have hfit : fits ((m - n : Nat) : Int) = true := fits_iff.mpr (by omega)
    rw [hr.eq_small (by omega), hfit] at hbig
    cases hbig

variable {l : LargeInteger}

theorem Counts.minus_lost (ha : (large l).Counts m) (hr : Exact r (n : Int)) (hlt : n < m)
    (hpower : CarryPower n) : Exact ((large l).minus r) m := by
  have hok : l.Ok := ha.valid
  have hvalue : l.toInt = m := ha.value
  obtain ⟨hro, hrv⟩ := asLargeInteger_ok hr.valid hr.counts.not_lost
  obtain ⟨hf, hcarry⟩ := carryPower_iff.mp hpower
  rcases large_minus hok hro with ⟨-, hn⟩ | ⟨hsafe, -⟩
  · rw [hvalue] at hn
    exact hn.exact_iff.mpr (Counts.ne_min _)
  · rw [hrv, hr.toInt, hvalue] at hsafe
    exact absurd ⟨hf, hcarry, by omega⟩ hsafe

def corrected (negA negB : Bool) (d q r : IntegerOop) : IntegerOop × IntegerOop :=
  if r.isZero then (if negA = negB then q else q.negated, small 0)
  else if negA = negB then (q, if negB then r.negated else r)
  else ((q.plus (small 1)).negated, if negB then (d.minus r).negated else d.minus r)

theorem flooredDivMod_eq {l mag : LargeInteger} {b : IntegerOop} (habs : (large l).abs = large mag)
    (hzero : b.isZero = false) (hrun : mag.divideMagnitudeBy b.abs = some (q, r)) :
    l.flooredDivMod b = some (corrected (large l).negative b.negative b.abs q r) := by
  unfold flooredDivMod corrected
  rw [hzero, if_neg Bool.false_ne_true, habs]
  simp only [hrun, Option.bind_eq_bind, Option.bind_some]
  split
  next => rfl
  next =>
    split
    next => rfl
    next => rfl

variable {x y : Int} {d : IntegerOop}

theorem Exact.signed (h : Exact r (n : Int)) (y : Int) : (if decide (y < 0) = true then r.negated else r).Answered ∧
      (if decide (y < 0) = true then r.negated else r).toInt = if y < 0 then -(n : Int) else n := by
  obtain ⟨hna, hnv⟩ := h.counts.negated
  by_cases hneg : y < 0
  · rw [decide_eq_true hneg, if_pos rfl, if_pos hneg]
    exact ⟨hna, hnv⟩
  · rw [decide_eq_false hneg, if_neg Bool.false_ne_true, if_neg hneg]
    exact ⟨h.answered, h.toInt⟩

theorem corrected_same (hy : y ≠ 0) (hsign : x < 0 ↔ y < 0) (hq : Exact q (x.natAbs / y.natAbs : Nat))
    (hr : Exact r (x.natAbs % y.natAbs : Nat)) :
    ∃ q' r', corrected (decide (x < 0)) (decide (y < 0)) d q r = (q', r') ∧ q'.Answered ∧ r'.Answered ∧
      FlooredBy x y q'.toInt r'.toInt := by
  have hlt := Nat.mod_lt x.natAbs (show 0 < y.natAbs by omega)
  have hparts := (FlooredBy.of_nat (Nat.div_add_mod' x.natAbs y.natAbs) hlt).signed (x := x) (y := y) (by omega) (by omega)
  have hsame : decide (x < 0) = decide (y < 0) := decide_eq_decide.mpr hsign
  unfold corrected
  rw [hr.counts.isZero, hsame]
  by_cases hzero : x.natAbs % y.natAbs = 0
  · rw [decide_eq_true hzero, if_pos rfl, if_pos rfl]
    refine ⟨q, small 0, rfl, hq.answered, show fits 0 = true by decide, ?_⟩
    rw [hzero, Nat.cast_zero, neg_zero, ite_self] at hparts
    rw [hq.toInt]
    exact hparts
  · obtain ⟨hra, hrv⟩ := hr.signed y
    rw [decide_eq_false hzero, if_neg Bool.false_ne_true, if_pos rfl]
    refine ⟨q, _, rfl, hq.answered, hra, ?_⟩
    rw [hq.toInt, hrv]
    exact hparts

theorem corrected_opposite (hy : y ≠ 0) (hsign : ¬ (x < 0 ↔ y < 0)) (hd : d.Counts y.natAbs)
    (hq : Exact q (x.natAbs / y.natAbs : Nat)) (hr : Exact r (x.natAbs % y.natAbs : Nat)) :
    ∃ q' r', corrected (decide (x < 0)) (decide (y < 0)) d q r = (q', r') ∧ q'.Answered ∧ r'.Answered ∧
      (d.isLarge = true ∧ CarryPower (x.natAbs % y.natAbs) → q'.toInt = x.fdiv y ∧ r'.toInt = y) ∧
      (¬ (d.isLarge = true ∧ CarryPower (x.natAbs % y.natAbs)) → FlooredBy x y q'.toInt r'.toInt) := by
  have hpos : 0 < y.natAbs := by omega
  have hlt := Nat.mod_lt x.natAbs hpos
  have hdiffer : ¬ decide (x < 0) = decide (y < 0) := mt decide_eq_decide.mp hsign
  have hparts := Nat.div_add_mod' x.natAbs y.natAbs
  unfold corrected
  rw [hr.counts.isZero]
  by_cases hzero : x.natAbs % y.natAbs = 0
  · rw [decide_eq_true hzero, if_pos rfl, if_neg hdiffer]
    obtain ⟨hqa, hqv⟩ := hq.counts.negated
    refine ⟨q.negated, small 0, rfl, hqa, show fits 0 = true by decide, fun h => ?_, fun _ => ?_⟩
    · have := h.2.bounds.1
      omega
    · rw [hzero, Nat.add_zero] at hparts
      have hexact := (FlooredBy.of_neg_exact hparts hpos).signed (x := x) (y := y) (by omega) (by omega)
      rw [neg_zero, ite_self] at hexact
      rw [hqv]
      exact hexact
  · rw [decide_eq_false hzero, if_neg Bool.false_ne_true, if_neg hdiffer]
    obtain ⟨next, hnext⟩ : ∃ next, x.natAbs / y.natAbs + 1 = next := ⟨_, rfl⟩
    obtain ⟨hqa, hqv⟩ := (hq.counts.plus_eq (counts_small (n := 1) (by decide)) hnext).counts.negated
    have hqv : (q.plus (small 1)).negated.toInt = -(next : Int) := hqv
    have hbelow := FlooredBy.of_neg hparts (Nat.pos_of_ne_zero hzero) hlt
    rw [hnext] at hbelow
    have hfloor := hbelow.signed (x := x) (y := y) (by omega) (by omega)
    -- The remainder before its sign is given: what is taken off `d`, or `d` itself.
    by_cases hlost : d.isLarge = true ∧ CarryPower (x.natAbs % y.natAbs)
    · obtain ⟨hlarge, hpower⟩ := hlost
      cases d with
      | small v => cases hlarge
      | large mag =>
        obtain ⟨hsa, hsv⟩ := (hd.minus_lost hr hlt hpower).signed y
        refine ⟨_, _, rfl, hqa, hsa, fun _ => ⟨?_, ?_⟩, fun h => absurd ⟨hlarge, hpower⟩ h⟩
        · rw [hqv]
          exact hfloor.eq.1
        · rw [hsv]
          split
          all_goals omega
    · obtain ⟨hsa, hsv⟩ := (hd.minus_kept hr hlt fun hlarge hpower => hlost ⟨hlarge, hpower⟩).signed y
      refine ⟨_, _, rfl, hqa, hsa, fun h => absurd h hlost, fun _ => ?_⟩
      rw [hqv, hsv]
      exact hfloor

def RemainderLost (a b : IntegerOop) : Prop :=
  ¬ (a.toInt < 0 ↔ b.toInt < 0) ∧ b.abs.isLarge = true ∧ CarryPower (a.toInt.natAbs % b.toInt.natAbs)

theorem flooredDivMod_signed (hl : l.Ok) (hb : b.Valid) (hb0 : b.toInt ≠ 0) (habs : (large l).abs.isLarge = true) :
    ∃ q r, l.flooredDivMod b = some (q, r) ∧ q.Answered ∧ r.Answered ∧
      (RemainderLost (large l) b → q.toInt = l.toInt.fdiv b.toInt ∧ r.toInt = b.toInt) ∧
      (¬ RemainderLost (large l) b → FlooredBy l.toInt b.toInt q.toInt r.toInt) := by
  have hlc := abs_counts (a := large l) hl
  have hbc := abs_counts hb
  cases hcase : (large l).abs with
  | small v =>
    rw [hcase] at habs
    cases habs
  | large mag =>
    rw [hcase] at hlc
    have hok : mag.Ok := hlc.valid
    obtain ⟨q, r, hrun, hq, hr⟩ := divideMagnitudeBy_spec hok.trimmed.1 hbc (by omega)
    rw [hlc.magnitude] at hq hr
    have hzero : b.isZero = false := (isZero_eq hb).trans (decide_eq_false hb0)
    rw [flooredDivMod_eq hcase hzero hrun, negative_eq (a := large l) hl, negative_eq hb]
    by_cases hsign : (large l).toInt < 0 ↔ b.toInt < 0
    · obtain ⟨q', r', he, hqa, hra, hfloor⟩ := @corrected_same q r _ _ b.abs hb0 hsign hq hr
      exact ⟨q', r', congrArg some he, hqa, hra, fun h => absurd hsign h.1, fun _ => hfloor⟩
    · obtain ⟨q', r', he, hqa, hra, hlost, hfloor⟩ := corrected_opposite hb0 hsign hbc hq hr
      exact ⟨q', r', congrArg some he, hqa, hra, fun h => hlost h.2, fun h => hfloor fun h' => h ⟨hsign, h'⟩⟩

/-- `//` and `\\\\` answer, and the answers are those of floored division. -/
def Floors (a b : IntegerOop) : Prop := ∃ q r, a.floorDiv b = some q ∧ a.floorMod b = some r ∧ q.Valid ∧ r.Valid ∧
    FlooredBy a.toInt b.toInt q.toInt r.toInt

/-- A SmallInteger is divided by SmallIntegers, but `minVal` by -1; a LargeInteger in form by
every integer that loses no remainder. -/
structure FloorsWhen (a b : IntegerOop) : Prop where
  small : a.isLarge = false → b.isLarge = false ∧ ¬ (a.toInt = minVal ∧ b.toInt = -1)
  large : a.isLarge = true → a.abs.isLarge = true ∧ ¬ RemainderLost a b

theorem fits_fdiv {x y : Int} (hx : fits x = true) (hy : y ≠ 0) : fits (x.fdiv y) = true ↔ ¬ (x = minVal ∧ y = -1) := by
  have hmin : minVal = -2 ^ 61 := by decide
  obtain ⟨hlow, hhigh⟩ := fits_iff.mp hx
  obtain ⟨hparts, -, hsmaller⟩ := FlooredBy.fdiv_fmod x hy
  rw [fits_iff]
  generalize x.fdiv y = q at hparts ⊢
  generalize x.fmod y = r at hparts hsmaller
  by_cases hone : y = 1 ∨ y = -1
  · have hr : r = 0 := by omega
    rcases hone with rfl | rfl
    all_goals omega
  · refine iff_of_true ?_ (by omega)
    -- A divisor of magnitude two or more leaves a quotient well within the range.
    rcases (show 2 ≤ y ∨ y ≤ -2 by omega) with htwo | htwo
    · have hr : -y < r ∧ r < y := by omega
      constructor
      all_goals
        by_contra hq
        nlinarith
    · have hr : y < r ∧ r < -y := by omega
      constructor
      all_goals
        by_contra hq
        nlinarith

theorem fits_fmod {x y : Int} (hy : y ≠ 0) (hyv : fits y = true) : fits (x.fmod y) = true := by
  have := (FlooredBy.fdiv_fmod x hy).smaller
  have := fits_iff.mp hyv
  exact fits_iff.mpr (by omega)

theorem flooredDivMod_none (habs : ¬ (large l).abs.isLarge = true) (hb : b.isZero = false) :
    l.flooredDivMod b = none := by
  unfold flooredDivMod
  rw [hb, if_neg Bool.false_ne_true]
  cases hcase : (large l).abs with
  | large mag =>
    rw [hcase] at habs
    exact absurd rfl habs
  | small v => rfl

theorem floors_iff (ha : a.Valid) (hb : b.Valid) (hb0 : b.toInt ≠ 0) : a.Floors b ↔ a.FloorsWhen b := by
  have hzero : b.isZero = false := (isZero_eq hb).trans (decide_eq_false hb0)
  cases a with
  | small x =>
    refine Iff.trans ?_ ⟨fun h => ⟨fun _ => h, fun h => (by cases h)⟩, fun h => h.small rfl⟩
    cases b with
    | large l =>
      refine iff_of_false ?_ fun h => (by cases h.1)
      rintro ⟨q, r, hq, -⟩
      cases hq
    | small y =>
      have hy0 : y ≠ 0 := hb0
      have hq := floorDiv_small x y
      have hr := floorMod_small x y
      have hfm := fits_fmod (x := x) hy0 hb
      rw [if_neg hy0] at hq hr
      rw [if_pos hfm] at hr
      have hiff := fits_fdiv (x := x) ha hy0
      constructor
      · rintro ⟨q, -, hrun, -⟩
        refine ⟨rfl, hiff.mp ?_⟩
        by_contra hfit
        rw [if_neg hfit, hrun] at hq
        cases hq
      · intro h
        have hfit := hiff.mpr h.2
        rw [if_pos hfit] at hq
        exact ⟨_, _, hq, hr, hfit, hfm, FlooredBy.fdiv_fmod x hy0⟩
  | large l =>
    refine Iff.trans ?_ ⟨fun h => ⟨fun h => (by cases h), fun _ => h⟩, fun h => h.large rfl⟩
    by_cases habs : (large l).abs.isLarge = true
    · obtain ⟨q, r, hrun, hqa, hra, hlost, hfloor⟩ := flooredDivMod_signed (b := b) ha hb hb0 habs
      have hdiv : (large l).floorDiv b = some q := by rw [floorDiv_large, hrun]; rfl
      have hmod : (large l).floorMod b = some r := by rw [floorMod_large, hrun]; rfl
      constructor
      · rintro ⟨q', r', -, hr', -, -, hfloored⟩
        refine ⟨habs, fun h => ?_⟩
        rw [hmod] at hr'
        cases hr'
        have := hfloored.smaller
        rw [(hlost h).2] at this
        omega
      · intro h
        exact ⟨q, r, hdiv, hmod, hqa.valid, hra.valid, hfloor h.2⟩
    · refine iff_of_false ?_ fun h => habs h.1
      rintro ⟨q, r, hq, -⟩
      rw [floorDiv_large, flooredDivMod_none habs hzero] at hq
      cases hq

end IntegerOop

end WinArmVm
