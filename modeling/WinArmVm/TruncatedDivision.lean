import WinArmVm.IntegerAnswers

namespace WinArmVm

open Nat Int Option DigitArithmetic

theorem tdiv_eq_natAbs (x y : Int) : x.tdiv y = ((x.natAbs / y.natAbs : Nat) : Int) * (x * y).sign := by
  rw [sign_mul, ← sign_mul_natAbs (x.tdiv y), sign_tdiv, natAbs_tdiv, mul_comm]
  show ((x.natAbs / y.natAbs : Nat) : Int) * _ = _
  split
  next h =>
    rw [div_eq_of_lt h]
    exact (zero_mul _).symm
  next => rfl

namespace IntegerOop

open SmallInteger LargeInteger

variable {a b q r : IntegerOop} {m n : Nat}

theorem gcdLoop_spec {fuel : Nat} (ha : a.Counts m) (hb : b.Counts n) (hfuel : n < fuel)
    (hrep : n = 0 ∨ a.isLarge = true ∨ b.isLarge = false) :
    ∃ g, gcdLoop fuel a b = some g ∧ g.Counts (Nat.gcd m n) ∧
      (Exact a m → Exact b n → Exact g (Nat.gcd m n : Nat)) := by
  induction fuel generalizing a b m n with
  | zero => omega
  | succ fuel ih =>
    unfold gcdLoop
    rw [hb.isZero]
    by_cases hn : n = 0
    · rw [decide_eq_true hn, if_pos rfl, hn, Nat.gcd_zero_right]
      exact ⟨a, rfl, ha, fun hae _ => hae⟩
    · rw [decide_eq_false hn, if_neg Bool.false_ne_true]
      obtain ⟨q, r, -, hr, -, hre⟩ := ha.floored hb (Nat.pos_of_ne_zero hn) (hrep.resolve_left hn)
      have hlt := Nat.mod_lt m (Nat.pos_of_ne_zero hn)
      simp only [hr, bind_eq_bind, bind_some]
      have hnext : b.isLarge = true ∨ r.isLarge = false := by
        cases b with
        | large l => exact .inl rfl
        | small v =>
          have hv : v = n := hb.value
          have := fits_iff.mp hb.valid
          rw [hre.eq_small (by omega)]
          exact .inr rfl
      obtain ⟨g, hg, hgc, hge⟩ := ih hb hre.counts (by omega) (.inr hnext)
      have hgcd : Nat.gcd n (m % n) = Nat.gcd m n := by
        rw [Nat.gcd_comm, ← Nat.gcd_rec, Nat.gcd_comm]
      rw [hgcd] at hgc hge
      exact ⟨g, hg, hgc, fun _ hbe => hge hbe hre⟩

theorem gcdLoop_none {x : Int} {l : LargeInteger} (hl : (large l).Counts n) (hn : n ≠ 0) (fuel : Nat) :
    gcdLoop fuel (small x) (large l) = none := by
  cases fuel with
  | zero => rfl
  | succ fuel =>
    unfold gcdLoop
    rw [hl.isZero, decide_eq_false hn, if_neg Bool.false_ne_true]
    rfl

/-- `gcd:` answers the greatest common divisor. -/
def Divides (a b : IntegerOop) : Prop := ∃ g, a.gcd b = some g ∧ g.Valid ∧ g.toInt = (Int.gcd a.toInt b.toInt : Int)

theorem gcd_spec (ha : a.Valid) (hb : b.Valid) (hrep : a.abs.isLarge = true ∨ b.abs.isLarge = false) :
    ∃ g, a.gcd b = some g ∧ g.Counts (Int.gcd a.toInt b.toInt) ∧
      (Exact a.abs (a.toInt.natAbs : Nat) → Exact b.abs (b.toInt.natAbs : Nat) → Exact g (Int.gcd a.toInt b.toInt : Nat)) :=
  gcdLoop_spec (abs_counts ha) (abs_counts hb) (lt_succ_self _) (.inr hrep)

theorem small_by_large (h : ¬ (a.isLarge = true ∨ b.isLarge = false)) : ∃ x l, a = small x ∧ b = large l := by
  cases a with
  | large l => exact absurd (.inl rfl) h
  | small x =>
    cases b with
    | small y => exact absurd (.inr rfl) h
    | large l => exact ⟨x, l, rfl, rfl⟩

theorem gcd_none (hb : b.Valid) (hb0 : b.toInt ≠ 0) (hrep : ¬ (a.abs.isLarge = true ∨ b.abs.isLarge = false)) :
    a.gcd b = none := by
  obtain ⟨x, l, hx, hl⟩ := small_by_large hrep
  have hbc := abs_counts hb
  unfold gcd
  rw [hl] at hbc
  rw [hx, hl]
  exact gcdLoop_none hbc (by omega) _

theorem divides_iff (ha : a.Valid) (hb : b.Valid) (hb0 : b.toInt ≠ 0) :
    a.Divides b ↔ a.abs.isLarge = true ∨ b.abs.isLarge = false := by
  constructor
  · rintro ⟨g, hg, -⟩
    by_contra hrep
    rw [gcd_none hb hb0 hrep] at hg
    cases hg
  · intro hrep
    obtain ⟨g, hg, hgc, -⟩ := gcd_spec ha hb hrep
    exact ⟨g, hg, hgc.valid, hgc.value⟩

/-- `quo:` answers the truncated quotient. -/
def Truncates (a b : IntegerOop) : Prop := ∃ q, a.quo b = some q ∧ q.Valid ∧ q.toInt = a.toInt.tdiv b.toInt

theorem quo_spec (ha : a.Valid) (hb : b.Valid) (hb0 : b.toInt ≠ 0)
    (hrep : a.abs.isLarge = true ∨ b.abs.isLarge = false) :
    ∃ q, a.quo b = some q ∧ q.Answered ∧ q.toInt = a.toInt.tdiv b.toInt := by
  have hac := abs_counts ha
  have hbc := abs_counts hb
  obtain ⟨q, -, hq, -, hqe, -⟩ := hac.floored hbc (by omega) hrep
  have hunit : (a.toInt * b.toInt).sign.natAbs ≤ 1 := by
    rw [natAbs_sign]
    split <;> omega
  have hfit : fits (a.toInt * b.toInt).sign = true := fits_iff.mpr (by omega)
  have hsigns : (small a.sign).times (small b.sign) = some (small (a.toInt * b.toInt).sign) := by
    rw [sign_eq ha, sign_eq hb]
    rw [sign_mul] at hfit ⊢
    exact if_pos hfit
  obtain ⟨p, hp, hpath⟩ :=
    times_path (b := small (a.toInt * b.toInt).sign) hqe.valid hfit hqe.counts.not_lost (not_carryLost_unit hunit)
  have hvalue : q.toInt * (small (a.toInt * b.toInt).sign).toInt = a.toInt.tdiv b.toInt := by
    rw [hqe.toInt]
    exact (tdiv_eq_natAbs a.toInt b.toInt).symm
  rw [hvalue] at hpath
  refine ⟨p, ?_, answered_of_path hpath⟩
  unfold quo
  simp only [hq, hsigns, hp, bind_eq_bind, bind_some]

theorem quo_none (hrep : ¬ (a.abs.isLarge = true ∨ b.abs.isLarge = false)) : a.quo b = none := by
  obtain ⟨x, l, hx, hl⟩ := small_by_large hrep
  unfold quo
  rw [hx, hl]
  rfl

theorem truncates_iff (ha : a.Valid) (hb : b.Valid) (hb0 : b.toInt ≠ 0) :
    a.Truncates b ↔ a.abs.isLarge = true ∨ b.abs.isLarge = false := by
  constructor
  · rintro ⟨q, hq, -⟩
    by_contra hrep
    rw [quo_none hrep] at hq
    cases hq
  · intro hrep
    obtain ⟨q, hq, hqa, hqv⟩ := quo_spec ha hb hb0 hrep
    exact ⟨q, hq, hqa.valid, hqv⟩

/-- `rem:` answers what the truncated quotient leaves. -/
def Remains (a b : IntegerOop) : Prop := ∃ r, a.rem b = some r ∧ r.Valid ∧ r.toInt = a.toInt.tmod b.toInt

/-- The quotient or the divisor counts for zero in the product that `rem:` subtracts. -/
def ProductLost (a b : IntegerOop) : Prop :=
  (a.toInt.tdiv b.toInt < 0 ∧ CarryPower (a.toInt.tdiv b.toInt).natAbs ∨ b.Lost) ∧
    (b.isLarge = true ∨ ¬ fits (a.toInt.tdiv b.toInt * b.toInt) = true)

def SubtractionLost (a b : IntegerOop) : Prop := a.isLarge = true ∧ CarryPower (a.toInt.tdiv b.toInt * b.toInt).natAbs

theorem productLost_iff (hb : b.Valid) (hq : q.Answered) (hv : q.toInt = a.toInt.tdiv b.toInt) :
    a.ProductLost b ↔ (q.Lost ∨ b.Lost) ∧ q.Slow b := by
  unfold ProductLost Slow
  rw [hq.lost_iff, hv]
  constructor
  · rintro ⟨hlost, hslow⟩
    exact ⟨hlost, .inr hslow⟩
  · rintro ⟨hlost, hlarge | hslow⟩
    · refine ⟨hlost, .inr fun hfit => ?_⟩
      have hbig := hq.big hlarge
      rw [hv] at hbig
      rcases hlost with ⟨-, hpower⟩ | hlost
      · have := hpower.bounds.2
        omega
      · have hbb : 256 ≤ b.toInt.natAbs := by
          cases b with
          | large l => exact absurd hlost fun h => h
          | small v => exact ((Answered.lost_iff (a := small v) hb).mp hlost).2.bounds.1
        have hrange := fits_iff.mp hfit
        have hprod := mul_le_mul hbig hbb
        rw [← natAbs_mul] at hprod
        omega
    · exact ⟨hlost, hslow⟩

theorem natAbs_tdiv_mul_le (x y : Int) : (x.tdiv y * y).natAbs ≤ x.natAbs := by
  rw [natAbs_mul, natAbs_tdiv]
  exact div_mul_le_self _ _

theorem tmod_eq_sub (x y : Int) : x.tmod y = x - x.tdiv y * y := by
  have := tmod_add_tdiv_mul x y
  omega

theorem fits_tmod {x : Int} (hx : fits x = true) (y : Int) : fits (x.tmod y) = true := by
  obtain ⟨hlow, hhigh⟩ := fits_iff.mp hx
  have hle := mod_le x.natAbs y.natAbs
  rw [← natAbs_tmod] at hle
  have hsign : x < 0 → x.tmod y ≤ 0 := by
    intro hneg
    have := tmod_nonneg y (show 0 ≤ -x by omega)
    rw [neg_tmod] at this
    omega
  exact fits_iff.mpr (by omega)

theorem minus_product {p : IntegerOop} (ha : a.Valid) (hp : p.Answered)
    (hv : p.toInt = a.toInt.tdiv b.toInt * b.toInt) :
    (a.SubtractionLost b → (a.minus p).toInt = a.toInt) ∧
      (¬ a.SubtractionLost b → (a.minus p).Answered ∧ (a.minus p).toInt = a.toInt.tmod b.toInt) := by
  have hle := natAbs_tdiv_mul_le a.toInt b.toInt
  have hmod := tmod_eq_sub a.toInt b.toInt
  unfold SubtractionLost
  rw [← hv] at hle hmod ⊢
  cases a with
  | large l =>
    obtain ⟨hlost, hkeep⟩ := large_minus_answered (l := l) ha hp
    have hrun : (large l).minus p = l.minus p := rfl
    have hle : p.toInt.natAbs ≤ l.toInt.natAbs := hle
    rw [hrun]
    refine ⟨fun h => (hlost h.2 (by omega)).toInt, fun h => ?_⟩
    have hn := hkeep fun hpower => h ⟨rfl, hpower⟩
    refine ⟨hn.answered, ?_⟩
    rw [hn.toInt, hmod]
    rfl
  | small x =>
    refine ⟨fun h => (by cases h.1), fun _ => ?_⟩
    have hfit : fits ((small x).toInt.tmod b.toInt) = true := fits_tmod ha b.toInt
    rw [hmod] at hfit ⊢
    have hrange := fits_iff.mp ha
    have hle : p.toInt.natAbs ≤ x.natAbs := hle
    cases p with
    | small v =>
      have hrun : (small x).minus (small v) = small (x - v) := if_pos hfit
      rw [hrun]
      exact ⟨hfit, rfl⟩
    | large l =>
      -- Only `minVal` leaves a large product, itself.
      have hbig : 2 ^ 61 ≤ l.toInt.natAbs := hp.big rfl
      have hle : l.toInt.natAbs ≤ x.natAbs := hle
      have hmin : minVal = -2 ^ 61 := by decide
      have hx : x = minVal := by omega
      obtain ⟨hok, hval⟩ := asLargeInteger_ok (a := small x) ha (by rw [hx]; exact not_carryLost_min)
      have hn := (large_minus_answered hok hp).2 fun hpower => by
        have hbound : l.toInt.natAbs ≤ 2 ^ 56 := hpower.bounds.2
        omega
      rw [hval] at hn
      exact ⟨hn.answered, hn.toInt⟩

theorem remains_iff (ha : a.Valid) (hb : b.Valid) (hb0 : b.toInt ≠ 0) :
    a.Remains b ↔ (a.abs.isLarge = true ∨ b.abs.isLarge = false) ∧ ¬ a.ProductLost b ∧ ¬ a.SubtractionLost b := by
  by_cases hrep : a.abs.isLarge = true ∨ b.abs.isLarge = false
  · obtain ⟨q, hq, hqa, hqv⟩ := quo_spec ha hb hb0 hrep
    have hiff := productLost_iff (a := a) hb hqa hqv
    have hmod := tmod_eq_sub a.toInt b.toInt
    have hrun : ∀ {p : IntegerOop}, q.times b = some p → a.rem b = some (a.minus p) := by
      intro p hp
      unfold rem
      simp only [hq, hp, bind_eq_bind, bind_some]
      rfl
    by_cases hlost : a.ProductLost b
    · refine iff_of_false ?_ fun h => h.2.1 hlost
      rintro ⟨r, hr, -, hrv⟩
      have hzero := times_lost hqa.valid hb (hiff.mp hlost).1 (hiff.mp hlost).2
      rw [hrun hzero] at hr
      cases hr
      have hsame : (a.minus (small 0)).toInt = a.toInt := by
        cases a with
        | small x =>
          have hfit : fits (x - 0) = true := by rw [sub_zero]; exact ha
          have : (small x).minus (small 0) = small (x - 0) := if_pos hfit
          rw [this]
          exact sub_zero x
        | large l =>
          have hzero : (small 0).Answered := show fits 0 = true by decide
          have hn := (large_minus_answered (l := l) ha hzero).2 fun h => absurd h.bounds.1 (by decide)
          rw [show (small 0).toInt = 0 from rfl, sub_zero] at hn
          exact hn.toInt
      -- The quotient is not zero: a lost number is not, and no product with zero is slow.
      have hproduct : a.toInt.tdiv b.toInt * b.toInt = 0 := by omega
      rcases mul_eq_zero.mp hproduct with hq0 | h0
      · obtain ⟨hwho, hslow⟩ := hlost
        rw [hq0] at hwho hslow
        rcases hwho with h | h
        · omega
        · rcases hslow with hslow | hslow
          · cases b with
            | small y => cases hslow
            | large l => exact h
          · rw [zero_mul] at hslow
            exact hslow (by decide)
      · exact hb0 h0
    · obtain ⟨p, hp, hpa, hpv⟩ := times_kept hqa.valid hb (mt hiff.mpr hlost)
      rw [hqv] at hpv
      obtain ⟨hsub, hkeep⟩ := minus_product ha hpa hpv
      constructor
      · rintro ⟨r, hr, -, hrv⟩
        refine ⟨hrep, hlost, fun h => ?_⟩
        rw [hrun hp] at hr
        cases hr
        have := h.2.bounds.1
        rw [hsub h] at hrv
        omega
      · intro h
        obtain ⟨hra, hrv⟩ := hkeep h.2.2
        exact ⟨a.minus p, hrun hp, hra.valid, hrv⟩
  · refine iff_of_false ?_ fun h => hrep h.1
    rintro ⟨r, hr, -⟩
    unfold rem at hr
    rw [quo_none hrep] at hr
    cases hr

/-- In lowest terms and of the value `n / d`. -/
def Rational.LowestTerms (n d : Int) : Rational → Prop
  | .integer i => i.Valid ∧ i.toInt * d = n
  | .fraction num den => num.Valid ∧ den.Valid ∧ 1 < den.toInt ∧ Int.gcd num.toInt den.toInt = 1 ∧
      num.toInt * d = n * den.toInt

/-- `Fraction numerator:denominator:` answers in lowest terms. -/
def Reduces (n d : IntegerOop) : Prop := ∃ f, n.fraction d = some f ∧ f.LowestTerms n.toInt d.toInt

/-- No SmallInteger is divided by a LargeInteger: neither by the denominator nor by the common
divisor. -/
structure ReducesWhen (n d : IntegerOop) : Prop where
  divisor : 2 ^ 61 ≤ n.toInt.natAbs ∨ d.toInt.natAbs < 2 ^ 61
  common : ¬ (n.isLarge = false ∧ n.toInt = minVal ∧ 0 < d.toInt ∧ (2 ^ 61 : Int) ∣ d.toInt)

theorem times_unit {s : Int} (ha : a.Valid) (hs : s = 1 ∨ s = -1) :
    ∃ r, a.times (small s) = some r ∧ r.Answered ∧ r.toInt = a.toInt * s ∧
      (r.isLarge = false → 2 ^ 61 ≤ a.toInt.natAbs → a.isLarge = false ∧ a.toInt = minVal ∧ s = 1) := by
  have hmin : minVal = -2 ^ 61 := by decide
  have hsv : (small s).Valid := fits_iff.mpr (by omega)
  have hsl : ¬ (small s).Lost := not_carryLost_unit (by omega)
  have hprim : ∀ {x : Int}, fits (x * s) = true → (small x).times (small s) = some (small (x * s)) := fun hf => if_pos hf
  by_cases hfit : a.isLarge = false ∧ fits (a.toInt * s) = true
  · cases a with
    | large l => cases hfit.1
    | small x =>
      refine ⟨_, hprim hfit.2, hfit.2, rfl, fun _ hbig => ⟨rfl, ?_⟩⟩
      have hx := fits_iff.mp ha
      have hxs := fits_iff.mp hfit.2
      have hbig : 2 ^ 61 ≤ x.natAbs := hbig
      show x = minVal ∧ s = 1
      have hxs : -2 ^ 61 ≤ x * s ∧ x * s < 2 ^ 61 := hxs
      rcases hs with rfl | rfl
      all_goals omega
  · have hal : ¬ a.Lost := by
      intro hlost
      cases a with
      | large l => exact hlost
      | small x =>
        have hbound := ((Answered.lost_iff (a := small x) ha).mp hlost).2.bounds
        have hbound : 256 ≤ x.natAbs ∧ x.natAbs ≤ 2 ^ 56 := hbound
        refine hfit ⟨rfl, fits_iff.mpr ?_⟩
        show -2 ^ 61 ≤ x * s ∧ x * s < 2 ^ 61
        rcases hs with rfl | rfl
        all_goals omega
    obtain ⟨r, hr, hpath⟩ := times_path ha hsv hal hsl
    rcases hpath with ⟨hsmall, he⟩ | ⟨hn, -⟩
    · have hal := (Bool.or_eq_false_iff.mp hsmall).1
      have hout : ¬ fits (a.toInt * s) = true := fun hf => hfit ⟨hal, hf⟩
      refine ⟨r, hr, he.answered, he.toInt, fun hsmall _ => ?_⟩
      unfold Exact at he
      have he : if fits (a.toInt * s) then _ else _ := he
      rw [if_neg hout] at he
      obtain ⟨l, rfl, -⟩ := he
      cases hsmall
    · refine ⟨r, hr, hn.answered, hn.toInt, fun hsmall hbig => ?_⟩
      rcases hn with ⟨hlow, -⟩ | ⟨-, l, rfl, -⟩
      · have hlow : (a.toInt * s).natAbs < 2 ^ 61 := hlow
        rcases hs with rfl | rfl
        all_goals omega
      · cases hsmall

theorem floorDiv_answered (ha : a.Valid) (hb : b.Valid) (hb0 : b.toInt ≠ 0) (h : a.floorDiv b = some q) : q.Answered := by
  cases a with
  | small x =>
    cases b with
    | large l => cases h
    | small y =>
      have hy0 : y ≠ 0 := hb0
      rw [floorDiv_small, if_neg hy0] at h
      split at h
      next hfit =>
        cases h
        exact hfit
      next => cases h
  | large l =>
    rw [floorDiv_large] at h
    by_cases habs : (large l).abs.isLarge = true
    · obtain ⟨q', r, hrun, hqa, -⟩ := flooredDivMod_signed (b := b) ha hb hb0 habs
      rw [hrun] at h
      cases h
      exact hqa
    · rw [flooredDivMod_none habs ((isZero_eq hb).trans (decide_eq_false hb0))] at h
      cases h

theorem floorDiv_dvd {g : IntegerOop} (ha : a.Answered) (hg : g.Counts n) (hn : 0 < n) (hdvd : (n : Int) ∣ a.toInt) :
    (a.isLarge = true ∨ g.isLarge = false → ∃ q, a.floorDiv g = some q ∧ q.Answered ∧ q.toInt * n = a.toInt) ∧
      (¬ (a.isLarge = true ∨ g.isLarge = false) → a.floorDiv g = none) := by
  have hg0 : g.toInt ≠ 0 := by
    have := hg.value
    omega
  have hiff := floors_iff ha.valid hg.valid hg0
  constructor
  · intro hrep
    have hwhen : a.FloorsWhen g := by
      refine ⟨fun hsmall => ⟨?_, fun h => ?_⟩, fun hlarge => ⟨?_, fun h => ?_⟩⟩
      · rw [hsmall] at hrep
        rcases hrep with h | h
        · cases h
        · exact h
      · have := hg.value
        omega
      · exact (abs_exact ha).isLarge_iff.mpr (ha.big hlarge)
      · have hzero : a.toInt.natAbs % g.toInt.natAbs = 0 := by
          rw [hg.value, Int.natAbs_natCast]
          exact mod_eq_zero_of_dvd (Int.natCast_dvd.mp hdvd)
        have := h.2.2.bounds.1
        omega
    obtain ⟨q, r, hq, -, -, -, hfloor⟩ := hiff.mpr hwhen
    refine ⟨q, hq, floorDiv_answered ha.valid hg.valid hg0 hq, ?_⟩
    rw [hfloor.eq.1, hg.value, Int.fdiv_mul_cancel hdvd]
  · intro hrep
    obtain ⟨x, l, rfl, rfl⟩ := small_by_large hrep
    rfl

theorem common_iff {n d num g : IntegerOop} {s : Int} {w : Nat} (hnum : n.times (small s) = some num)
    (hnrep : num.isLarge = false → 2 ^ 61 ≤ n.toInt.natAbs → n.isLarge = false ∧ n.toInt = minVal ∧ s = 1)
    (hs : s = 1 ∨ s = -1) (hpos : 0 < d.toInt * s) (hw : w = Int.gcd n.toInt d.toInt) (hg : Exact g (w : Int))
    (hdiv : 2 ^ 61 ≤ n.toInt.natAbs ∨ d.toInt.natAbs < 2 ^ 61) :
    ¬ (num.isLarge = true ∨ g.isLarge = false) ↔
      n.isLarge = false ∧ n.toInt = minVal ∧ 0 < d.toInt ∧ (2 ^ 61 : Int) ∣ d.toInt := by
  have hmin : minVal = -2 ^ 61 := by decide
  have hwn : (w : Int) ∣ n.toInt := hw ▸ Int.gcd_dvd_left ..
  have hwd : (w : Int) ∣ d.toInt := hw ▸ Int.gcd_dvd_right ..
  have hd0 : d.toInt ≠ 0 := fun h => by
    rw [h] at hpos
    omega
  constructor
  · intro h
    have hnsmall : num.isLarge = false := Bool.eq_false_iff.mpr fun hl => h (.inl hl)
    have hbig : 2 ^ 61 ≤ w := hg.isLarge_iff.mp (by
      cases hl : g.isLarge with
      | true => rfl
      | false => exact absurd (.inr hl) h)
    have hwle : w ≤ d.toInt.natAbs := le_of_dvd (by omega) (natCast_dvd.mp hwd)
    obtain ⟨hsmall, hnmin, hone⟩ := hnrep hnsmall (by omega)
    refine ⟨hsmall, hnmin, by rw [hone] at hpos; omega, ?_⟩
    have hle : w ≤ n.toInt.natAbs := le_of_dvd (by omega) (natCast_dvd.mp hwn)
    rw [show (2 ^ 61 : Int) = (w : Int) by omega]
    exact hwd
  · rintro ⟨hsmall, hnmin, hdpos, hdvd⟩ h
    have hone : s = 1 := by
      rcases hs with h | h
      · exact h
      · rw [h] at hpos
        omega
    have hbig : 2 ^ 61 ≤ w := by
      refine le_of_dvd (by rw [hw]; exact gcd_pos_of_ne_zero_right _ hd0) ?_
      rw [hw]
      refine natCast_dvd_natCast.mp ?_
      refine dvd_coe_gcd ?_ ?_
      · rw [hnmin]
        exact ⟨-1, by decide⟩
      · exact hdvd
    rcases h with h | h
    · cases n with
      | large l => cases hsmall
      | small x =>
        have hx : x = minVal := hnmin
        rw [hx, hone] at hnum
        have hrun : (small minVal).times (small 1) = some (small minVal) := by decide
        rw [hrun] at hnum
        cases hnum
        cases h
    · rw [hg.isLarge_iff.mpr hbig] at h
      cases h

def lowest (n d : IntegerOop) : Option (IntegerOop × IntegerOop) := do
  let sign := if d.less (small 0) then small (-1) else small 1
  let num ← n.times sign
  let den ← d.times sign
  let g ← num.gcd den
  return (← num.floorDiv g, ← den.floorDiv g)

theorem fraction_eq (n d : IntegerOop) : n.fraction d = if d.equal (small 0) then none else
    (lowest n d).map fun p => if p.2.equal (small 1) then .integer p.1 else .fraction p.1 p.2 := by
  unfold fraction lowest
  split
  next => rfl
  next =>
    dsimp only
    generalize (if d.less (small 0) = true then small (-1) else small 1) = sign
    cases n.times sign with
    | none => rfl
    | some num =>
      cases d.times sign with
      | none => rfl
      | some den =>
        cases hg : num.gcd den with
        | none => simp [hg]
        | some g =>
          cases hn : num.floorDiv g with
          | none => simp [hg, hn]
          | some num' =>
            cases hd : den.floorDiv g with
            | none => simp [hg, hn, hd]
            | some den' => simp [hg, hn, hd]

structure Lowest (n d : Int) (num den : IntegerOop) : Prop where
  answered : num.Answered ∧ den.Answered
  positive : 0 < den.toInt
  coprime : Int.gcd num.toInt den.toInt = 1
  value : num.toInt * d = n * den.toInt

theorem lowest_iff {n d : IntegerOop} (hn : n.Valid) (hd : d.Valid) (hd0 : d.toInt ≠ 0) :
    (n.ReducesWhen d → ∃ num den, lowest n d = some (num, den) ∧ Lowest n.toInt d.toInt num den) ∧
      (¬ n.ReducesWhen d → lowest n d = none) := by
  obtain ⟨s, hs, hsd⟩ : ∃ s : Int, (s = 1 ∨ s = -1) ∧ (if d.less (small 0) then small (-1) else small 1) = small s ∧
      0 < d.toInt * s := by
    have hless : d.less (small 0) = decide (d.toInt < 0) := negative_eq hd
    rw [hless]
    by_cases hneg : d.toInt < 0
    · rw [decide_eq_true hneg, if_pos rfl]
      exact ⟨-1, .inr rfl, rfl, by omega⟩
    · rw [decide_eq_false hneg, if_neg Bool.false_ne_true]
      exact ⟨1, .inl rfl, rfl, by omega⟩
  obtain ⟨hsign, hpos⟩ := hsd
  obtain ⟨num, hnum, hna, hnv, hnrep⟩ := times_unit hn hs
  obtain ⟨den, hden, hda, hdv, -⟩ := times_unit hd hs
  have hnabs : num.toInt.natAbs = n.toInt.natAbs := by
    rw [hnv]
    rcases hs with rfl | rfl
    all_goals omega
  have hdabs : den.toInt.natAbs = d.toInt.natAbs := by
    rw [hdv]
    rcases hs with rfl | rfl
    all_goals omega
  have hrun : lowest n d = do
      let g ← num.gcd den
      return (← num.floorDiv g, ← den.floorDiv g) := by
    unfold lowest
    rw [hsign]
    simp only [hnum, hden, bind_eq_bind, bind_some]
  have hdex := hda.exact (by omega)
  have hnex := abs_exact hna
  have hdex' := abs_exact hda
  by_cases hdiv : 2 ^ 61 ≤ n.toInt.natAbs ∨ d.toInt.natAbs < 2 ^ 61
  · have hrep : num.abs.isLarge = true ∨ den.abs.isLarge = false := by
      rw [hnex.isLarge_iff, hnabs]
      refine hdiv.imp id fun hlow => ?_
      rw [Bool.eq_false_iff]
      refine mt hdex'.isLarge_iff.mp ?_
      omega
    obtain ⟨g, hg, hgc, hge⟩ := gcd_spec hna.valid hda.valid hrep
    have hge := hge hnex hdex'
    have hgcd : Int.gcd num.toInt den.toInt = Int.gcd n.toInt d.toInt := by
      unfold Int.gcd
      rw [hnabs, hdabs]
    have hgpos : 0 < Int.gcd num.toInt den.toInt := gcd_pos_of_ne_zero_right _ (by omega)
    have hgn : ((Int.gcd num.toInt den.toInt : Nat) : Int) ∣ num.toInt := Int.gcd_dvd_left ..
    have hgd : ((Int.gcd num.toInt den.toInt : Nat) : Int) ∣ den.toInt := Int.gcd_dvd_right ..
    have hgle : Int.gcd num.toInt den.toInt ≤ den.toInt.natAbs := le_of_dvd (by omega) (natCast_dvd.mp hgd)
    rw [show den.toInt = ((den.toInt.natAbs : Nat) : Int) by omega] at hdex
    have hdrep : den.isLarge = true ∨ g.isLarge = false := by
      cases hlarge : den.isLarge with
      | true => exact .inl rfl
      | false =>
        right
        rw [Bool.eq_false_iff] at hlarge ⊢
        have := mt hdex.isLarge_iff.mpr hlarge
        exact mt hge.isLarge_iff.mp (by omega)
    obtain ⟨hdkeep, -⟩ := floorDiv_dvd hda hgc hgpos hgd
    obtain ⟨den', hden', hdv', hdm⟩ := hdkeep hdrep
    obtain ⟨hnkeep, hnlose⟩ := floorDiv_dvd hna hgc hgpos hgn
    have hcommon := @common_iff n d num g s _ hnum hnrep hs hpos hgcd hge hdiv
    by_cases hnrep' : num.isLarge = true ∨ g.isLarge = false
    · obtain ⟨num', hnum', hnv', hnm⟩ := hnkeep hnrep'
      refine ⟨fun _ => ⟨num', den', ?_, ⟨hnv', hdv'⟩, ?_, ?_, ?_⟩, fun h => ?_⟩
      · rw [hrun]
        simp only [hg, hnum', hden', bind_eq_bind, bind_some]
        rfl
      all_goals
        obtain ⟨w, hw⟩ : ∃ w : Nat, w = Int.gcd num.toInt den.toInt := ⟨_, rfl⟩
        rw [← hw] at hnm hdm hgpos
      · refine pos_of_mul_pos_left (b := (w : Int)) ?_ (by omega)
        omega
      · have h := @gcd_mul_right num'.toInt w den'.toInt
        rw [hnm, hdm, ← hw, natAbs_natCast] at h
        exact eq_of_mul_eq_mul_right hgpos (by omega)
      · have h : num'.toInt * d.toInt * w = n.toInt * den'.toInt * w := by
          calc num'.toInt * d.toInt * w = num'.toInt * w * d.toInt := by ring
            _ = n.toInt * (d.toInt * s) := by rw [hnm, hnv]; ring
            _ = n.toInt * den'.toInt * w := by rw [← hdv, ← hdm]; ring
        exact Int.eq_of_mul_eq_mul_right (by omega) h
      · exact absurd ⟨hdiv, fun h' => hcommon.mpr h' hnrep'⟩ h
    · refine ⟨fun h => absurd (hcommon.mp hnrep') h.common, fun _ => ?_⟩
      rw [hrun]
      simp only [hg, hnlose hnrep', bind_eq_bind, bind_some, bind_none]
  · refine ⟨fun h => absurd h.divisor hdiv, fun _ => ?_⟩
    rw [hrun, gcd_none hda.valid (by omega)]
    · rfl
    · rw [hnex.isLarge_iff, Bool.eq_false_iff, ne_eq, hdex'.isLarge_iff]
      omega

theorem equal_one (ha : a.Valid) (hpos : 0 < a.toInt) : a.equal (small 1) = decide (a.toInt = 1) := by
  obtain ⟨v, hv⟩ := eq_ofNat_of_zero_le (show 0 ≤ a.toInt by omega)
  have hc : a.Counts v := ⟨ha, hv⟩
  rw [@Counts.equal a (small 1) v 1 hc ⟨show fits 1 = true by decide, rfl⟩, hv, decide_eq_decide]
  omega

theorem reduces_iff {n d : IntegerOop} (hn : n.Valid) (hd : d.Valid) (hd0 : d.toInt ≠ 0) :
    n.Reduces d ↔ n.ReducesWhen d := by
  have hzero : d.equal (small 0) = false := (isZero_eq hd).trans (decide_eq_false hd0)
  have hrun := fraction_eq n d
  rw [hzero, if_neg Bool.false_ne_true] at hrun
  obtain ⟨hkeep, hlose⟩ := lowest_iff hn hd hd0
  constructor
  · rintro ⟨f, hf, -⟩
    by_contra h
    rw [hrun, hlose h] at hf
    cases hf
  · intro h
    obtain ⟨num, den, hl, hlow⟩ := hkeep h
    refine ⟨if den.equal (small 1) then .integer num else .fraction num den, by rw [hrun, hl]; rfl, ?_⟩
    rw [equal_one hlow.answered.2.valid hlow.positive]
    by_cases hone : den.toInt = 1
    · rw [decide_eq_true hone, if_pos rfl]
      have hvalue := hlow.value
      rw [hone, mul_one] at hvalue
      exact ⟨hlow.answered.1.valid, hvalue⟩
    · rw [decide_eq_false hone, if_neg Bool.false_ne_true]
      have := hlow.positive
      exact ⟨hlow.answered.1.valid, hlow.answered.2.valid, by omega, hlow.coprime, hlow.value⟩

/-- Every kind of division of `a` by `b` is exact. -/
structure DivisionExact (a b : IntegerOop) : Prop where
  floors : a.Floors b
  divides : a.Divides b
  truncates : a.Truncates b
  remains : a.Remains b
  reduces : a.Reduces b

/-- Nothing small is divided by what is large, and no power of 256 is subtracted from it or
converted to it. -/
structure NoDivisionSlip (a b : IntegerOop) : Prop where
  floors : a.FloorsWhen b
  magnitudes : a.abs.isLarge = true ∨ b.abs.isLarge = false
  product : ¬ a.ProductLost b
  subtraction : ¬ a.SubtractionLost b
  reduces : a.ReducesWhen b

/-- Division is exact where nothing slips, and only there. -/
theorem divisionExact_iff (ha : a.Valid) (hb : b.Valid) (hb0 : b.toInt ≠ 0) :
    a.DivisionExact b ↔ a.NoDivisionSlip b := by
  have hremains := remains_iff ha hb hb0
  constructor
  · rintro ⟨hfloors, hdivides, -, hrem, hreduces⟩
    obtain ⟨-, hproduct, hsubtraction⟩ := hremains.mp hrem
    exact ⟨(floors_iff ha hb hb0).mp hfloors, (divides_iff ha hb hb0).mp hdivides, hproduct, hsubtraction,
      (reduces_iff ha hb hb0).mp hreduces⟩
  · rintro ⟨hfloors, hmagnitudes, hproduct, hsubtraction, hreduces⟩
    exact ⟨(floors_iff ha hb hb0).mpr hfloors, (divides_iff ha hb hb0).mpr hmagnitudes,
      (truncates_iff ha hb hb0).mpr hmagnitudes, hremains.mpr ⟨hmagnitudes, hproduct, hsubtraction⟩,
      (reduces_iff ha hb hb0).mpr hreduces⟩

theorem divisionExact_beyond_word : (large ⟨false, [0, 0, 0, 0, 0, 0, 0, 0, 1]⟩).DivisionExact (small (-3)) := by
  have hvalue : (large ⟨false, [0, 0, 0, 0, 0, 0, 0, 0, 1]⟩).toInt = 18446744073709551616 := by decide
  have hthree : (small (-3)).toInt = -3 := rfl
  have hquotient : (18446744073709551616 : Int).tdiv (-3) = -6148914691236517205 := by decide
  refine (divisionExact_iff (a := large ⟨false, [0, 0, 0, 0, 0, 0, 0, 0, 1]⟩) (b := small (-3)) ?_ ?_ (by decide)).mpr ?_
  · exact ⟨⟨by decide, by decide, fun h => absurd h (by decide)⟩, fun _ => rfl⟩
  · show fits (-3) = true
    decide
  · refine ⟨⟨fun h => (by cases h), fun _ => ⟨rfl, fun h => ?_⟩⟩, .inl rfl, fun h => ?_, fun h => ?_, ?_⟩
    · cases h.2.1
    · rcases h.1 with ⟨-, hpower⟩ | ⟨k, hk, he⟩
      · have := hpower.bounds.2
        rw [hvalue, hthree, hquotient] at this
        exact absurd this (by decide)
      · have := Nat.pow_le_pow_right (n := 256) (by decide) hk
        omega
    · have := h.2.bounds.2
      rw [hvalue, hthree, hquotient] at this
      exact absurd this (by decide)
    · refine ⟨.inl ?_, fun h => ?_⟩
      · rw [hvalue]
        decide
      · cases h.1

/-- A SmallInteger does not divide by a LargeInteger at all. -/
theorem seven_by_large : (small 7).Valid ∧ (large ⟨false, [0, 0, 0, 0, 0, 0, 0, 0, 1]⟩).Valid ∧
      (small 7).floorDiv (large ⟨false, [0, 0, 0, 0, 0, 0, 0, 0, 1]⟩) = none ∧
      (small 7).floorMod (large ⟨false, [0, 0, 0, 0, 0, 0, 0, 0, 1]⟩) = none ∧
      ¬ (small 7).DivisionExact (large ⟨false, [0, 0, 0, 0, 0, 0, 0, 0, 1]⟩) := by
  refine ⟨show fits 7 = true by decide, ⟨⟨by decide, by decide, fun h => absurd h (by decide)⟩, fun _ => rfl⟩, rfl,
    rfl, fun h => ?_⟩
  obtain ⟨q, r, hq, -⟩ := h.floors
  cases hq

end IntegerOop

end WinArmVm
