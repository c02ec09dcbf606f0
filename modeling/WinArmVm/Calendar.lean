import WinArmVm.CivilCalendar
import WinArmVm.TruncatedDivision

namespace WinArmVm

open IntegerOop (small large)

structure Date where
  dayOfMonth : IntegerOop
  monthIndex : IntegerOop
  year : IntegerOop
deriving DecidableEq

namespace Date

/-- Hinnant's civil_from_days; `none` is an error. -/
def fromEpochDays (epochDays : IntegerOop) : Option Date := do
  let z := epochDays.plus (small 719468)
  let era ← z.floorDiv (small 146097)
  let doe := z.minus (← era.times (small 146097))
  let yoe ← (((doe.minus (← doe.floorDiv (small 1460))).plus (← doe.floorDiv (small 36524))).minus
    (← doe.floorDiv (small 146096))).floorDiv (small 365)
  let y := yoe.plus (← era.times (small 400))
  let doy := doe.minus (((← (small 365).times yoe).plus (← yoe.floorDiv (small 4))).minus (← yoe.floorDiv (small 100)))
  let mp ← ((← (small 5).times doy).plus (small 2)).floorDiv (small 153)
  let d := (doy.minus (← ((← (small 153).times mp).plus (small 2)).floorDiv (small 5))).plus (small 1)
  let m := mp.plus (if mp.less (small 10) then small 3 else small (-9))
  let y := if m.lessEq (small 2) then y.plus (small 1) else y
  return ⟨d, m, y⟩

def epochDaysForDay (d m y : IntegerOop) : Option IntegerOop := do
  let yy := if m.lessEq (small 2) then y.minus (small 1) else y
  let era ← yy.floorDiv (small 400)
  let yoe := yy.minus (← era.times (small 400))
  let doy := ((← ((← (small 153).times (m.plus (if m.greater (small 2) then small (-3) else small 9))).plus
    (small 2)).floorDiv (small 5)).plus d).minus (small 1)
  let doe := (((← yoe.times (small 365)).plus (← yoe.floorDiv (small 4))).minus (← yoe.floorDiv (small 100))).plus doy
  return ((← era.times (small 146097)).plus doe).minus (small 719468)

def asEpochDays (date : Date) : Option IntegerOop := epochDaysForDay date.dayOfMonth date.monthIndex date.year

def isLeapYear (date : Date) : Option Bool := do
  if (← date.year.floorMod (small 4)).equal (small 0) then
    if (← date.year.floorMod (small 100)).equal (small 0) then
      return (← date.year.floorMod (small 400)).equal (small 0)
    else return true
  else return false

/-- `lengths at: monthIndex` fails beyond the twelve, and for what is not a SmallInteger. -/
def daysInMonth (date : Date) : Option IntegerOop := do
  let february ← if date.monthIndex.equal (small 2) then date.isLeapYear else some false
  if february then return small 29
  match date.monthIndex with
  | small m => if 1 ≤ m then [31, 28, 31, 30, 31, 30, 31, 31, 30, 31, 30, 31][(m - 1).toNat]?.map small else none
  | large _ => none

end Date

namespace Date

open CivilCalendar IntegerOop SmallInteger

structure Is (date : Date) (c : CivilDate) : Prop where
  day : date.dayOfMonth.Is c.day
  month : date.monthIndex.Is c.month
  year : date.year.Is c.year

def LostEra (era : Int) : Prop := era = -2 ^ 48 ∨ era = -2 ^ 56

theorem carryPower_mod {n : Nat} (h : CarryPower n) : n % 15 = 1 := by
  obtain ⟨k, -, -, rfl⟩ := h
  rw [Nat.pow_mod]
  show 1 ^ k % 15 = 1
  rw [Nat.one_pow]

theorem carryPower_cases {z : Int} (h : CarryPower z.natAbs) : z = -2 ^ 48 ∨ z = -2 ^ 56 ∨ -2 ^ 40 ≤ z := by
  obtain ⟨k, hk, hk7, he⟩ := h
  interval_cases k
  all_goals omega

theorem lostEra_iff {era : Int} : LostEra era ↔ era < 0 ∧ CarryPower era.natAbs ∧ ¬ fits (era * 146097) = true := by
  unfold LostEra
  rw [fits_iff]
  constructor
  · rintro (rfl | rfl)
    · exact ⟨by decide, ⟨6, by decide⟩, by decide⟩
    · exact ⟨by decide, ⟨7, by decide⟩, by decide⟩
  · rintro ⟨hneg, hpower, hout⟩
    have := carryPower_cases hpower
    omega

theorem lost_years_iff {era : Int} : era = -2 ^ 56 ↔ era < 0 ∧ CarryPower era.natAbs ∧ ¬ fits (era * 400) = true := by
  rw [fits_iff]
  constructor
  · rintro rfl
    exact ⟨by decide, ⟨7, by decide⟩, by decide⟩
  · rintro ⟨hneg, hpower, hout⟩
    have := carryPower_cases hpower
    omega

theorem not_carryPower_era {era c : Int} (hc : c = 146097 ∨ c = 400) : ¬ CarryPower (era * c).natAbs := by
  intro h
  have hmod := carryPower_mod h
  rcases hc with rfl | rfl
  all_goals omega

variable {e : IntegerOop} {date : Date}

def ofEra (era doe : IntegerOop) : Option Date := do
  let yoe ← (((doe.minus (← doe.floorDiv (small 1460))).plus (← doe.floorDiv (small 36524))).minus
    (← doe.floorDiv (small 146096))).floorDiv (small 365)
  let y := yoe.plus (← era.times (small 400))
  let doy := doe.minus (((← (small 365).times yoe).plus (← yoe.floorDiv (small 4))).minus (← yoe.floorDiv (small 100)))
  let mp ← ((← (small 5).times doy).plus (small 2)).floorDiv (small 153)
  let d := (doy.minus (← ((← (small 153).times mp).plus (small 2)).floorDiv (small 5))).plus (small 1)
  let m := mp.plus (if mp.less (small 10) then small 3 else small (-9))
  let y := if m.lessEq (small 2) then y.plus (small 1) else y
  return ⟨d, m, y⟩

theorem fromEpochDays_eq (e : IntegerOop) : fromEpochDays e = (do
    let era ← (e.plus (small 719468)).floorDiv (small 146097)
    let p ← era.times (small 146097)
    ofEra era ((e.plus (small 719468)).minus p)) := rfl

theorem fits_of_abs {v : Int} (h : v.natAbs ≤ 2 ^ 40) : fits v = true := fits_iff.mpr (by omega)

theorem ofEra_spec {eraOop p400 : IntegerOop} {E doe : Int} (hrange : 0 ≤ doe ∧ doe < 146097)
    (hp400 : eraOop.times (small 400) = some p400) (hp400Is : p400.Is (E * 400)) :
    ∃ date, ofEra eraOop (small doe) = some date ∧ date.Is (dateOf E doe) := by
  obtain ⟨yoe, doy, hparts, hd⟩ := exists_dayOf hrange
  obtain ⟨c, q, r, hyoe, hstart, hc0, hc3, hq0, hq24, hr0, hr3, hdoy⟩ := hd.digits
  have hd0 := hd.start
  obtain ⟨mp, hmp, hmp0, hmp11, hmlow, -⟩ := hd.month
  have hmrange := monthOf_back ⟨hmp0, hmp11⟩
  have hyears := hd.yearOfEra
  rw [← hparts] at hyears
  have hyIs := (Is.small (z := yoe) (fits_of_abs (by omega))).plus hp400Is (not_carryLost_nonneg (by omega))
    fun hlost => not_carryPower_era (.inr rfl) (hp400Is.lost_iff.mp hlost).2
  have hy1Is := Is.plus_const hyIs.answered.valid (c := 1) (by decide) (by decide)
  rw [hyIs.value] at hy1Is
  -- The year.
  have h1460 := small_floorDiv (x := doe) (c := 1460) (fits_of_abs (by omega)) (by decide)
  have h36524 := small_floorDiv (x := doe) (c := 36524) (fits_of_abs (by omega)) (by decide)
  have h146096 := small_floorDiv (x := doe) (c := 146096) (fits_of_abs (by omega)) (by decide)
  have hminus1 := small_minus (x := doe) (y := doe / 1460) (fits_of_abs (by omega))
  have hplus1 := small_plus (x := doe - doe / 1460) (y := doe / 36524) (fits_of_abs (by omega))
  have hminus2 := small_minus (x := doe - doe / 1460 + doe / 36524) (y := doe / 146096) (fits_of_abs (by omega))
  have h365 := small_floorDiv (x := doe - doe / 1460 + doe / 36524 - doe / 146096) (c := 365) (fits_of_abs (by omega))
    (by decide)
  rw [show (doe - doe / 1460 + doe / 36524 - doe / 146096) / 365 = yoe from hyears] at h365
  -- The day of the year.
  have hdays := small_times (x := 365) (y := yoe) (fits_of_abs (by omega))
  have h4 := small_floorDiv (x := yoe) (c := 4) (fits_of_abs (by omega)) (by decide)
  have h100 := small_floorDiv (x := yoe) (c := 100) (fits_of_abs (by omega)) (by decide)
  have hplus2 := small_plus (x := 365 * yoe) (y := yoe / 4) (fits_of_abs (by omega))
  have hminus3 := small_minus (x := 365 * yoe + yoe / 4) (y := yoe / 100) (fits_of_abs (by omega))
  rw [show 365 * yoe + yoe / 4 - yoe / 100 = yearStart yoe from rfl] at hminus3
  have hminus4 := small_minus (x := doe) (y := yearStart yoe) (fits_of_abs (by omega))
  rw [show doe - yearStart yoe = doy by omega] at hminus4
  -- The month and its day.
  have hfive := small_times (x := 5) (y := doy) (fits_of_abs (by omega))
  have hplus3 := small_plus (x := 5 * doy) (y := 2) (fits_of_abs (by omega))
  have h153 := small_floorDiv (x := 5 * doy + 2) (c := 153) (fits_of_abs (by omega)) (by decide)
  rw [hmp] at h153
  have hmonth := small_times (x := 153) (y := mp) (fits_of_abs (by omega))
  have hplus4 := small_plus (x := 153 * mp) (y := 2) (fits_of_abs (by omega))
  have h5 := small_floorDiv (x := 153 * mp + 2) (c := 5) (fits_of_abs (by omega)) (by decide)
  rw [show (153 * mp + 2) / 5 = monthStart mp from rfl] at h5
  have hstart0 : 0 ≤ monthStart mp := by
    unfold monthStart
    omega
  have hminus5 := small_minus (x := doy) (y := monthStart mp) (fits_of_abs (by omega))
  have hplus5 := small_plus (x := doy - monthStart mp) (y := 1) (fits_of_abs (by omega))
  have hm : (small mp).plus (if (small mp).less (small 10) then small 3 else small (-9)) = small (monthOf mp) := by
    have hless : (small mp).less (small 10) = decide (mp < 10) := rfl
    unfold monthOf
    rw [hless]
    by_cases h10 : mp < 10
    · rw [decide_eq_true h10, if_pos rfl, if_pos h10]
      exact small_plus (fits_of_abs (by omega))
    · rw [decide_eq_false h10, if_neg Bool.false_ne_true, if_neg h10]
      exact small_plus (fits_of_abs (by omega))
  have hdate : dateOf E doe = ⟨doy - monthStart mp + 1, monthOf mp,
      if monthOf mp ≤ 2 then yoe + E * 400 + 1 else yoe + E * 400⟩ := by
    unfold dateOf
    simp only [hyears, show doe - yearStart yoe = doy by omega, hmp]
  refine ⟨⟨small (doy - monthStart mp + 1), small (monthOf mp),
    if decide (monthOf mp ≤ 2) = true then ((small yoe).plus p400).plus (small 1) else (small yoe).plus p400⟩, ?_, ?_⟩
  · refine answers h1460 (answers h36524 (answers h146096 ?_))
    rw [hminus1, hplus1, hminus2]
    refine answers h365 (answers hp400 (answers hdays (answers h4 (answers h100 ?_))))
    rw [hplus2, hminus3, hminus4]
    refine answers hfive ?_
    rw [hplus3]
    refine answers h153 (answers hmonth ?_)
    rw [hplus4]
    refine answers h5 ?_
    rw [hminus5, hplus5, hm]
    rfl
  · rw [hdate]
    refine ⟨Is.small (fits_of_abs (by omega)), Is.small (fits_of_abs (by omega)), ?_⟩
    by_cases hm2 : monthOf mp ≤ 2
    · rw [decide_eq_true hm2, if_pos rfl, if_pos hm2]
      exact hy1Is
    · rw [decide_eq_false hm2, if_neg Bool.false_ne_true, if_neg hm2]
      exact hyIs

theorem fromEpochDays_kept (he : e.Valid) (hkeep : ¬ LostEra (era e.toInt)) :
    ∃ date, fromEpochDays e = some date ∧ date.Is (fromDays e.toInt) := by
  have hz := Is.plus_const he (c := 719468) (by decide) (by decide)
  obtain ⟨eraOop, -, hera, -, heraIs, -⟩ := hz.floored_const (c := 146097) (by decide) (by decide)
  have heraIs : eraOop.Is (era e.toInt) := heraIs
  obtain ⟨E, hE⟩ : ∃ E, era e.toInt = E := ⟨_, rfl⟩
  have hEdef : (e.toInt + 719468) / 146097 = E := hE
  rw [hE] at hkeep heraIs
  obtain ⟨p, hp, hpIs⟩ := heraIs.times_const (c := 146097) (by decide) (by decide) (mt lostEra_iff.mpr hkeep)
  obtain ⟨p400, hp400, hp400Is⟩ := heraIs.times_const (c := 400) (by decide) (by decide)
    fun h => hkeep (.inr (lost_years_iff.mpr h))
  have hdoe := hz.minus hpIs (fun hlost => by
    have hbound := (hz.lost_iff.mp hlost).2.bounds
    refine ⟨Bool.eq_false_iff.mpr fun hl => ?_, fits_iff.mpr (by omega)⟩
    have := hpIs.isLarge hl
    omega) (not_carryPower_era (.inl rfl))
  obtain ⟨date, hrun, hdate⟩ := @ofEra_spec eraOop p400 E (e.toInt + 719468 - E * 146097) (by omega) hp400 hp400Is
  refine ⟨date, ?_, ?_⟩
  · rw [fromEpochDays_eq]
    refine answers hera (answers hp ?_)
    rw [hdoe.eq_small (by omega)]
    exact hrun
  · unfold fromDays
    rw [hE]
    exact hdate

variable {c : CivilDate}

theorem yearOfEra_run {yy : IntegerOop} {Y : Int} (hyy : yy.Is Y) :
    ∃ era p W, yy.floorDiv (small 400) = some era ∧ era.Is (Y / 400) ∧ era.times (small 400) = some p ∧
      (yy.minus p).Is W ∧ (W = Y - Y / 400 * 400 ∧ Y / 400 ≠ -2 ^ 56 ∨ Y / 400 = -2 ^ 56 ∧ W = Y) := by
  obtain ⟨era, -, hera, -, heraIs, -⟩ := hyy.floored_const (c := 400) (by decide) (by decide)
  by_cases hlost : Y / 400 = -2 ^ 56
  · have hp := heraIs.times_const_lost (c := 400) (by decide) (lost_years_iff.mp hlost)
    have hW := hyy.minus_const (c := 0) le_rfl (by decide) fun h => absurd h.bounds.1 (by decide)
    rw [Int.sub_zero] at hW
    exact ⟨era, small 0, Y, hera, heraIs, hp, hW, .inr ⟨hlost, rfl⟩⟩
  · obtain ⟨p, hp, hpIs⟩ := heraIs.times_const (c := 400) (by decide) (by decide) (mt lost_years_iff.mpr hlost)
    have hW := hyy.minus hpIs (fun hl => by
      have hbound := (hyy.lost_iff.mp hl).2.bounds
      refine ⟨Bool.eq_false_iff.mpr fun hl => ?_, fits_iff.mpr (by omega)⟩
      have := hpIs.isLarge hl
      omega) (not_carryPower_era (.inr rfl))
    exact ⟨era, p, _, hera, heraIs, hp, hW, .inl ⟨rfl, hlost⟩⟩

theorem dayOfEra_run {yoe : IntegerOop} {W doy : Int} (hW : yoe.Is W) (hfar : 0 ≤ W ∨ W ≤ -2 ^ 64)
    (hpower : ¬ CarryPower (W / 100).natAbs) (hdoy : 0 ≤ doy ∧ doy ≤ 400) :
    ∃ a b c, yoe.times (small 365) = some a ∧ yoe.floorDiv (small 4) = some b ∧ yoe.floorDiv (small 100) = some c ∧
      (((a.plus b).minus c).plus (small doy)).Is (yearStart W + doy) := by
  have hkeep : ∀ {r : IntegerOop} {z : Int}, r.Is z → (0 ≤ z ∨ z < -2 ^ 56) → ¬ r.Lost := by
    intro r z hr hz hlost
    obtain ⟨hneg, hpower⟩ := hr.lost_iff.mp hlost
    have := hpower.bounds
    omega
  obtain ⟨a, ha, haIs⟩ := hW.times_const (c := 365) (by decide) (by decide) (by
    rintro ⟨hneg, hpower, -⟩
    have := hpower.bounds
    omega)
  obtain ⟨b, -, hb, -, hbIs, -⟩ := hW.floored_const (c := 4) (by decide) (by decide)
  obtain ⟨c, -, hc, -, hcIs, -⟩ := hW.floored_const (c := 100) (by decide) (by decide)
  have hsum := haIs.plus hbIs (hkeep haIs (by omega)) (hkeep hbIs (by omega))
  have hdiff := hsum.minus hcIs (fun hlost => absurd hlost (hkeep hsum (by omega))) hpower
  have hdays := hdiff.plus (Is.small (z := doy) (fits_of_abs (by omega))) (hkeep hdiff (by omega))
    (not_carryLost_nonneg hdoy.1)
  refine ⟨a, b, c, ha, hb, hc, ?_⟩
  unfold yearStart
  rw [Int.mul_comm 365 W]
  exact hdays

theorem bounds_of_valid (hc : c.Valid) : 0 ≤ c.dayOfYear ∧ c.dayOfYear ≤ 365 ∧ 1 ≤ c.day ∧ c.day ≤ 366 ∧
    0 ≤ yearStart (c.marchYear - c.marchYear / 400 * 400) + c.dayOfYear ∧
    yearStart (c.marchYear - c.marchYear / 400 * 400) + c.dayOfYear < 146097 := by
  obtain ⟨hd, mp, hmp, hday, -⟩ := hc.dayOf
  obtain ⟨c', q', r', hyoe, hstart, hc0, hc3, hq0, hq24, hr0, hr3, hdoy⟩ := hd.digits
  have hd0 := hd.start
  have hday1 := hc.day.1
  unfold monthStart at hday
  omega

theorem dayOfYear_run (hc : c.Valid) : ∃ x y, (small 153).times ((small c.month).plus
      (if (small c.month).greater (small 2) then small (-3) else small 9)) = some x ∧
    (x.plus (small 2)).floorDiv (small 5) = some y ∧ (y.plus (small c.day)).minus (small 1) = small c.dayOfYear := by
  obtain ⟨hone, htwelve⟩ := hc.month
  obtain ⟨hlow, hhigh, hday1, hday, -⟩ := bounds_of_valid hc
  obtain ⟨mp, hmp⟩ : ∃ mp, c.month + (if 2 < c.month then -3 else 9) = mp := ⟨_, rfl⟩
  have hrange : 0 ≤ mp ∧ mp ≤ 11 := by
    split at hmp
    all_goals omega
  have hadj : (small c.month).plus (if (small c.month).greater (small 2) then small (-3) else small 9) = small mp := by
    have hgreater : (small c.month).greater (small 2) = decide (2 < c.month) := rfl
    rw [hgreater]
    by_cases hm2 : 2 < c.month
    · rw [if_pos hm2] at hmp
      rw [decide_eq_true hm2, if_pos rfl, small_plus (fits_of_abs (by omega)), hmp]
    · rw [if_neg hm2] at hmp
      rw [decide_eq_false hm2, if_neg Bool.false_ne_true, small_plus (fits_of_abs (by omega)), hmp]
  have hdoy : c.dayOfYear = monthStart mp + c.day - 1 := by
    unfold CivilDate.dayOfYear
    rw [hmp]
  have hplus := small_plus (x := 153 * mp) (y := 2) (fits_of_abs (by omega))
  have h5 := small_floorDiv (x := 153 * mp + 2) (c := 5) (fits_of_abs (by omega)) (by decide)
  refine ⟨small (153 * mp), small (monthStart mp), ?_, ?_, ?_⟩
  · rw [hadj]
    exact small_times (fits_of_abs (by omega))
  · rw [hplus]
    exact h5
  · rw [small_plus (fits_of_abs (by omega)), small_minus (fits_of_abs (by omega)), ← hdoy]

theorem eraDays_run {eraOop : IntegerOop} {E : Int} (hera : eraOop.Is E) :
    ∃ p P, eraOop.times (small 146097) = some p ∧ p.Is P ∧ ¬ p.Lost ∧
      (¬ LostEra E ∧ P = E * 146097 ∨ LostEra E ∧ P = 0) := by
  by_cases hlost : LostEra E
  · exact ⟨small 0, 0, hera.times_const_lost (by decide) (lostEra_iff.mp hlost), Is.small (by decide),
      not_carryLost_nonneg le_rfl, .inr ⟨hlost, rfl⟩⟩
  · obtain ⟨p, hp, hpIs⟩ := hera.times_const (c := 146097) (by decide) (by decide) (mt lostEra_iff.mpr hlost)
    exact ⟨p, _, hp, hpIs, fun h => not_carryPower_era (.inl rfl) (hpIs.lost_iff.mp h).2, .inl ⟨hlost, rfl⟩⟩

theorem asEpochDays_run (hdate : date.Is c) (hc : c.Valid) :
    ∃ r, date.asEpochDays = some r ∧ (¬ LostEra (c.marchYear / 400) → r.Is c.toDays) ∧
      (LostEra (c.marchYear / 400) → r.Valid ∧ ¬ LostEra (era r.toInt)) := by
  obtain ⟨hone, htwelve⟩ := hc.month
  obtain ⟨hd0, hd365, hday1, hday, hdoe0, hdoe⟩ := bounds_of_valid hc
  have hdsmall := hdate.day.eq_small (by omega)
  have hmsmall := hdate.month.eq_small (by omega)
  have hyy : (if (small c.month).lessEq (small 2) then date.year.minus (small 1) else date.year).Is c.marchYear := by
    have hle : (small c.month).lessEq (small 2) = decide (c.month ≤ 2) := rfl
    unfold CivilDate.marchYear
    rw [hle]
    by_cases hm2 : c.month ≤ 2
    · rw [decide_eq_true hm2, if_pos rfl, if_pos hm2]
      exact hdate.year.minus_const (c := 1) (by decide) (by decide) fun h => absurd h.bounds.1 (by decide)
    · rw [decide_eq_false hm2, if_neg Bool.false_ne_true, if_neg hm2]
      exact hdate.year
  obtain ⟨eraOop, p, W, hera, heraIs, hp, hW, hcase⟩ := yearOfEra_run hyy
  obtain ⟨x, y, hx, hy, hdoy⟩ := dayOfYear_run hc
  obtain ⟨a, b, c400, ha, hb, hc100, hdays⟩ := @dayOfEra_run _ W c.dayOfYear hW (by omega) (fun h => by
    have := h.bounds
    omega) ⟨hd0, by omega⟩
  obtain ⟨p', P, hp', hpIs, hpkeep, hP⟩ := eraDays_run heraIs
  have hdkeep : ¬ (((a.plus b).minus c400).plus (small c.dayOfYear)).Lost := by
    intro hlost
    have hpower := hdays.lost_iff.mp hlost
    have hbound := hpower.2.bounds
    unfold yearStart at hpower hbound hdoe0
    omega
  have htotal := (hpIs.plus hdays hpkeep hdkeep).minus_const (c := 719468) (by decide) (by decide)
    fun h => absurd (carryPower_mod h) (by decide)
  refine ⟨(p'.plus (((a.plus b).minus c400).plus (small c.dayOfYear))).minus (small 719468), ?_, ?_, ?_⟩
  · unfold asEpochDays epochDaysForDay
    rw [hdsmall, hmsmall]
    refine answers hera (answers hp (answers hx (answers hy ?_)))
    rw [hdoy]
    exact answers ha (answers hb (answers hc100 (answers hp' rfl)))
  · intro hkeep
    have hyears : c.marchYear / 400 ≠ -2 ^ 56 := fun h => hkeep (.inr h)
    have hvalue : P + (yearStart W + c.dayOfYear) - 719468 = c.toDays := by
      unfold CivilDate.toDays CivilDate.dayOfEra
      rcases hcase with ⟨rfl, -⟩ | ⟨h, -⟩
      · rcases hP with ⟨-, rfl⟩ | ⟨h, -⟩
        · rfl
        · exact absurd h hkeep
      · exact absurd h hyears
    rw [← hvalue]
    exact htotal
  · intro hlost
    refine ⟨htotal.answered.valid, ?_⟩
    rw [htotal.value]
    have hP0 : P = 0 := by
      rcases hP with ⟨h, -⟩ | ⟨-, h⟩
      · exact absurd hlost h
      · exact h
    unfold era LostEra
    rcases hcase with ⟨rfl, -⟩ | ⟨h, rfl⟩
    · omega
    · unfold yearStart
      omega

theorem isLeapYear_eq (hdate : date.Is c) : date.isLeapYear = some (decide (Leap c.year)) := by
  obtain ⟨-, r4, -, h4, -, rfl⟩ := hdate.year.floored_const (c := 4) (by decide) (by decide)
  obtain ⟨-, r100, -, h100, -, rfl⟩ := hdate.year.floored_const (c := 100) (by decide) (by decide)
  obtain ⟨-, r400, -, h400, -, rfl⟩ := hdate.year.floored_const (c := 400) (by decide) (by decide)
  have hequal : ∀ z : Int, (small z).equal (small 0) = decide (z = 0) := fun _ => rfl
  unfold isLeapYear Leap
  simp only [h4, h100, h400, hequal, Option.bind_eq_bind, Option.bind_some, decide_eq_true_eq]
  by_cases h : c.year % 4 = 0
  · rw [if_pos h]
    by_cases h' : c.year % 100 = 0
    · rw [if_pos h']
      refine congrArg some (decide_eq_decide.mpr ?_)
      omega
    · rw [if_neg h']
      refine congrArg some (Eq.symm (decide_eq_true ?_))
      omega
  · rw [if_neg h]
    refine congrArg some (Eq.symm (decide_eq_false ?_))
    omega

theorem daysInMonth_eq (hdate : date.Is c) (hmonth : 1 ≤ c.month ∧ c.month ≤ 12) :
    date.daysInMonth = some (small (monthLength c.month c.year)) := by
  have hequal : (small c.month).equal (small 2) = decide (c.month = 2) := rfl
  unfold daysInMonth monthLength
  rw [isLeapYear_eq hdate, hdate.month.eq_small (by omega), hequal]
  by_cases h2 : c.month = 2
  · rw [h2, decide_eq_true rfl, if_pos rfl, if_pos rfl]
    by_cases hleap : Leap c.year
    · rw [if_pos hleap, decide_eq_true hleap]
      rfl
    · rw [if_neg hleap, decide_eq_false hleap]
      rfl
  · rw [decide_eq_false h2, if_neg Bool.false_ne_true, if_neg h2]
    obtain ⟨hone, htwelve⟩ := hmonth
    generalize c.month = m at *
    interval_cases m
    all_goals first | rfl | exact absurd rfl h2

def civil (date : Date) : CivilDate := ⟨date.dayOfMonth.toInt, date.monthIndex.toInt, date.year.toInt⟩

structure Valid (date : Date) : Prop where
  answered : date.dayOfMonth.Answered ∧ date.monthIndex.Answered ∧ date.year.Answered
  month : 1 ≤ date.monthIndex.toInt ∧ date.monthIndex.toInt ≤ 12
  day : ∃ n, date.daysInMonth = some n ∧ 1 ≤ date.dayOfMonth.toInt ∧ date.dayOfMonth.toInt ≤ n.toInt

theorem Valid.spec (h : date.Valid) : date.Is date.civil ∧ date.civil.Valid := by
  obtain ⟨⟨hday, hmonth, hyear⟩, hrange, n, hn, hlow, hhigh⟩ := h
  have hdate : date.Is date.civil := ⟨⟨hday, rfl⟩, ⟨hmonth, rfl⟩, ⟨hyear, rfl⟩⟩
  rw [daysInMonth_eq hdate hrange] at hn
  cases hn
  exact ⟨hdate, hrange, hlow, hhigh⟩

theorem Is.valid (hdate : date.Is c) (hc : c.Valid) : date.Valid ∧ date.civil = c := by
  obtain ⟨hday, hmonth, hyear⟩ := hdate
  have hcivil : date.civil = c := by
    unfold civil
    rw [hday.value, hmonth.value, hyear.value]
  refine ⟨⟨⟨hday.answered, hmonth.answered, hyear.answered⟩, ?_, _, daysInMonth_eq ⟨hday, hmonth, hyear⟩ hc.month, ?_⟩,
    hcivil⟩
  · rw [hmonth.value]
    exact hc.month
  · rw [hday.value]
    exact hc.day

def Converts (e : IntegerOop) : Prop :=
  ∃ date date', fromEpochDays e = some date ∧ date.Valid ∧ (∃ r, date.asEpochDays = some r ∧ r.toInt = e.toInt) ∧
    fromEpochDays (e.plus (small 1)) = some date' ∧ date'.civil = date.civil.next

def Returns (date : Date) : Prop :=
  ∃ e date', date.asEpochDays = some e ∧ fromEpochDays e = some date' ∧ date'.civil = date.civil

theorem era_toDays (hc : c.Valid) : era c.toDays = c.marchYear / 400 := by
  rw [← fromDays_marchYear, fromDays_toDays hc]

theorem lost_first_day {r : IntegerOop} {E : Int} (hlost : LostEra E) (hr : r.Is (E * 146097 - 719468)) :
    ∃ date, fromEpochDays r = some date ∧ date.monthIndex.toInt < 1 := by
  rcases hlost with rfl | rfl
  · have hconcrete : (large ⟨true, [108, 250, 10, 0, 0, 0, 177, 58, 2]⟩).Is (-2 ^ 48 * 146097 - 719468) :=
      ⟨⟨⟨⟨by decide, by decide, by decide⟩, by decide⟩, by decide⟩, by decide⟩
    rw [hr.unique hconcrete (by decide)]
    exact ⟨⟨small 5, small (-9809876604760), small (-225179930149470492)⟩, rfl, by decide⟩
  · have hconcrete : (large ⟨true, [108, 250, 10, 0, 0, 0, 0, 177, 58, 2]⟩).Is (-2 ^ 56 * 146097 - 719468) :=
      ⟨⟨⟨⟨by decide, by decide, by decide⟩, by decide⟩, by decide⟩, by decide⟩
    rw [hr.unique hconcrete (by decide)]
    exact ⟨⟨small 7, small (-2511328410820254), large ⟨true, [175, 28, 65, 27, 19, 244, 255, 143, 1]⟩⟩,
      by decide +kernel, by decide⟩

theorem converts_iff {e : IntegerOop} (he : e.Valid) :
    Converts e ↔ ¬ LostEra (era e.toInt) ∧ ¬ LostEra (era (e.toInt + 1)) := by
  have hnext := Is.plus_const he (c := 1) (by decide) (by decide)
  constructor
  · rintro ⟨date, date', hdate, hvalid, ⟨r, hr, hvalue⟩, hdate', hcivil⟩
    obtain ⟨hIs, hcv⟩ := hvalid.spec
    have hfirst : ¬ LostEra (era e.toInt) := by
      obtain ⟨r', hr', hkept, hlost⟩ := asEpochDays_run hIs hcv
      rw [hr] at hr'
      cases hr'
      by_cases h : LostEra (date.civil.marchYear / 400)
      · rw [← hvalue]
        exact (hlost h).2
      · rw [← hvalue, (hkept h).value, era_toDays hcv]
        exact h
    refine ⟨hfirst, fun hlost => ?_⟩
    -- The next era begins with the next day.
    have hstart : e.toInt + 1 = era (e.toInt + 1) * 146097 - 719468 := by
      have hne : era e.toInt ≠ era (e.toInt + 1) := fun h => hfirst (h ▸ hlost)
      unfold era at hne ⊢
      omega
    rw [hstart] at hnext
    obtain ⟨bad, hbad, hmonth⟩ := lost_first_day hlost hnext
    rw [hdate'] at hbad
    cases hbad
    have hvalid := hcv.next.month.1
    rw [← hcivil] at hvalid
    have : 1 ≤ date'.monthIndex.toInt := hvalid
    omega
  · rintro ⟨hthis, hthat⟩
    obtain ⟨date, hdate, hIs⟩ := fromEpochDays_kept he hthis
    have hcv := fromDays_valid e.toInt
    obtain ⟨hvalid, hcivil⟩ := hIs.valid hcv
    obtain ⟨r, hr, hkept, -⟩ := asEpochDays_run hIs hcv
    rw [← hnext.value] at hthat
    obtain ⟨date', hdate', hIs'⟩ := fromEpochDays_kept hnext.answered.valid hthat
    have hcivil' := (hIs'.valid (fromDays_valid _)).2
    refine ⟨date, date', hdate, hvalid, ⟨r, hr, ?_⟩, hdate', ?_⟩
    · rw [(hkept (by rw [fromDays_marchYear]; exact hthis)).value, toDays_fromDays]
    · rw [hcivil', hcivil, hnext.value, fromDays_succ]

theorem returns_iff (h : date.Valid) : date.Returns ↔ ¬ LostEra (date.civil.marchYear / 400) := by
  obtain ⟨hIs, hcv⟩ := h.spec
  obtain ⟨r, hr, hkept, hlost⟩ := asEpochDays_run hIs hcv
  constructor
  · rintro ⟨e, date', he, hdate', hcivil⟩ h
    rw [hr] at he
    cases he
    obtain ⟨hrv, hera⟩ := hlost h
    obtain ⟨date'', hdate'', hIs''⟩ := fromEpochDays_kept hrv hera
    rw [hdate'] at hdate''
    cases hdate''
    rw [(hIs''.valid (fromDays_valid _)).2] at hcivil
    rw [← hcivil, fromDays_marchYear] at h
    exact hera h
  · intro h
    have hrIs := hkept h
    obtain ⟨date', hdate', hIs'⟩ := fromEpochDays_kept hrIs.answered.valid (by
      rw [hrIs.value, era_toDays hcv]
      exact h)
    refine ⟨r, date', hr, hdate', ?_⟩
    rw [(hIs'.valid (fromDays_valid _)).2, hrIs.value, fromDays_toDays hcv]

/-- The calendar is a bijection, but for the two eras whose number loses a carry. -/
theorem calendar_bijection (e : IntegerOop) (he : e.Valid) :
    (Converts e ↔ ¬ LostEra (era e.toInt) ∧ ¬ LostEra (era (e.toInt + 1))) ∧
      ∀ date : Date, date.Valid → (date.Returns ↔ ¬ LostEra (date.civil.marchYear / 400)) :=
  ⟨converts_iff he, fun _ hdate => returns_iff hdate⟩

theorem epoch_converts : Converts (small 0) := (calendar_bijection (small 0) (show fits 0 = true by decide)).1.mpr
    ⟨by unfold LostEra; decide, by unfold LostEra; decide⟩

/-- The first of March that begins the era -2^48 has no day number that gives it back. -/
theorem lost_era_converts_not : (large ⟨true, [108, 250, 10, 0, 0, 0, 177, 58, 2]⟩).Valid ∧
      fromEpochDays (large ⟨true, [108, 250, 10, 0, 0, 0, 177, 58, 2]⟩) =
        some ⟨small 5, small (-9809876604760), small (-225179930149470492)⟩ ∧
      ¬ Converts (large ⟨true, [108, 250, 10, 0, 0, 0, 177, 58, 2]⟩) := by
  refine ⟨⟨⟨by decide, by decide, by decide⟩, by decide⟩, rfl, ?_⟩
  rintro ⟨date, -, hdate, hvalid, -⟩
  have hrun : fromEpochDays (large ⟨true, [108, 250, 10, 0, 0, 0, 177, 58, 2]⟩) =
    some ⟨small 5, small (-9809876604760), small (-225179930149470492)⟩ := rfl
  rw [hrun] at hdate
  cases hdate
  exact absurd hvalid.month.1 (by decide)

end Date

end WinArmVm
