import Mathlib.Tactic.IntervalCases
import Mathlib.Tactic.Linarith

namespace CivilCalendar

structure CivilDate where
  day : Int
  month : Int
  year : Int
deriving DecidableEq

def Leap (y : Int) : Prop := y % 4 = 0 ∧ (y % 100 ≠ 0 ∨ y % 400 = 0)

instance (y : Int) : Decidable (Leap y) := inferInstanceAs (Decidable (_ ∧ _))

def monthLength (m y : Int) : Int :=
  if m = 2 then if Leap y then 29 else 28
  else if m = 4 ∨ m = 6 ∨ m = 9 ∨ m = 11 then 30
  else 31

structure CivilDate.Valid (c : CivilDate) : Prop where
  month : 1 ≤ c.month ∧ c.month ≤ 12
  day : 1 ≤ c.day ∧ c.day ≤ monthLength c.month c.year

def CivilDate.next (c : CivilDate) : CivilDate :=
  if c.day < monthLength c.month c.year then ⟨c.day + 1, c.month, c.year⟩
  else if c.month < 12 then ⟨1, c.month + 1, c.year⟩
  else ⟨1, 1, c.year + 1⟩

def yearStart (yoe : Int) : Int := 365 * yoe + yoe / 4 - yoe / 100

def monthStart (mp : Int) : Int := (153 * mp + 2) / 5

def monthOf (mp : Int) : Int := mp + if mp < 10 then 3 else -9

def era (e : Int) : Int := (e + 719468) / 146097

def yearOfEra (doe : Int) : Int := (doe - doe / 1460 + doe / 36524 - doe / 146096) / 365

def dateOf (era doe : Int) : CivilDate :=
  let yoe := yearOfEra doe
  let doy := doe - yearStart yoe
  let mp := (5 * doy + 2) / 153
  let m := monthOf mp
  ⟨doy - monthStart mp + 1, m, if m ≤ 2 then yoe + era * 400 + 1 else yoe + era * 400⟩

def fromDays (e : Int) : CivilDate := dateOf (era e) (e + 719468 - era e * 146097)

def CivilDate.marchYear (c : CivilDate) : Int := if c.month ≤ 2 then c.year - 1 else c.year

def CivilDate.dayOfYear (c : CivilDate) : Int := monthStart (c.month + if 2 < c.month then -3 else 9) + c.day - 1

def CivilDate.dayOfEra (c : CivilDate) : Int := yearStart (c.marchYear - c.marchYear / 400 * 400) + c.dayOfYear

def CivilDate.toDays (c : CivilDate) : Int := c.marchYear / 400 * 146097 + c.dayOfEra - 719468

/-- A day of the year `yoe` of an era: the leap day is the last, in the next year's February. -/
structure DayOf (yoe doy : Int) : Prop where
  year : 0 ≤ yoe ∧ yoe < 400
  start : 0 ≤ doy
  last : doy ≤ 364 ∨ doy = 365 ∧ Leap (yoe + 1)

variable {yoe doy doe : Int}

theorem DayOf.digits (h : DayOf yoe doy) : ∃ c q r : Int, yoe = 100 * c + 4 * q + r ∧
    yearStart yoe = 36524 * c + 1461 * q + 365 * r ∧ 0 ≤ c ∧ c ≤ 3 ∧ 0 ≤ q ∧ q ≤ 24 ∧ 0 ≤ r ∧ r ≤ 3 ∧
    (doy ≤ 364 ∨ doy = 365 ∧ r = 3 ∧ (q ≤ 23 ∨ c = 3)) := by
  obtain ⟨⟨hlow, hhigh⟩, hstart, hlast⟩ := h
  unfold yearStart
  unfold Leap at hlast
  refine ⟨yoe / 100, yoe % 100 / 4, yoe % 4, ?_, ?_, ?_, ?_, ?_, ?_, ?_, ?_, ?_⟩
  all_goals omega

theorem DayOf.yearOfEra (h : DayOf yoe doy) : yearOfEra (yearStart yoe + doy) = yoe := by
  obtain ⟨c, q, r, hyoe, hys, hc0, hc3, hq0, hq24, hr0, hr3, hd⟩ := h.digits
  have hstart := h.start
  unfold CivilCalendar.yearOfEra
  rw [hys, hyoe]
  obtain ⟨n, hn⟩ : ∃ n, n = 36524 * c + 1461 * q + 365 * r + doy := ⟨_, rfl⟩
  rw [← hn]
  -- The four corrections leave 365 days a year, but for the day that ends a group of four.
  have hgroups : n / 1460 = 25 * c + q ∨ n / 1460 = 25 * c + q + 1 ∧ 1460 ≤ 24 * c + q + 365 * r + doy := by omega
  have hcenturies : n / 36524 = c ∧ n / 146096 = 0 ∨ n = 146096 := by omega
  rcases hcenturies with ⟨hc, hlast⟩ | hlast
  · rw [hc, hlast]
    rcases hgroups with hg | ⟨hg, hend⟩
    · rw [hg]
      omega
    · rw [hg]
      omega
  · omega

theorem exists_dayOf (h : 0 ≤ doe ∧ doe < 146097) : ∃ yoe doy, doe = yearStart yoe + doy ∧ DayOf yoe doy := by
  obtain ⟨c, n, hn, hc0, hc3, hn0, hn1⟩ : ∃ c n : Int, doe = 36524 * c + n ∧ 0 ≤ c ∧ c ≤ 3 ∧ 0 ≤ n ∧
      (n < 36524 ∨ c = 3 ∧ n = 36524) := by
    by_cases hlast : doe = 146096
    · exact ⟨3, 36524, by omega⟩
    · exact ⟨doe / 36524, doe % 36524, by omega⟩
  obtain ⟨r, k, hk, hr0, hr3, hk0, hk1⟩ : ∃ r k : Int, n % 1461 = 365 * r + k ∧ 0 ≤ r ∧ r ≤ 3 ∧ 0 ≤ k ∧
      (k < 365 ∨ r = 3 ∧ k = 365) := by
    by_cases hlast : n % 1461 = 1460
    · exact ⟨3, 365, by omega⟩
    · exact ⟨n % 1461 / 365, n % 1461 % 365, by omega⟩
  refine ⟨100 * c + 4 * (n / 1461) + r, k, ?_, ⟨?_, hk0, ?_⟩⟩
  · have hyear : (100 * c + 4 * (n / 1461) + r) / 4 = 25 * c + n / 1461 ∧ (100 * c + 4 * (n / 1461) + r) / 100 = c := by
      constructor
      all_goals omega
    unfold yearStart
    rw [hyear.1, hyear.2]
    omega
  · constructor
    all_goals omega
  · unfold Leap
    omega

theorem leap_era (y k : Int) : Leap (y + k * 400) ↔ Leap y := by
  unfold Leap
  omega

theorem DayOf.month (h : DayOf yoe doy) : ∃ mp, (5 * doy + 2) / 153 = mp ∧ 0 ≤ mp ∧ mp ≤ 11 ∧ monthStart mp ≤ doy ∧
    doy < monthStart mp + monthLength (monthOf mp) (if monthOf mp ≤ 2 then yoe + 1 else yoe) := by
  obtain ⟨-, hstart, hlast⟩ := h
  obtain ⟨mp, hmp⟩ : ∃ mp, (5 * doy + 2) / 153 = mp := ⟨_, rfl⟩
  have hlow : 0 ≤ mp := by omega
  have hhigh : mp ≤ 11 := by omega
  refine ⟨mp, hmp, hlow, hhigh, by unfold monthStart; omega, ?_⟩
  by_cases hfeb : mp = 11
  · rw [hfeb]
    show doy < 337 + (if Leap (yoe + 1) then 29 else 28)
    split
    next => omega
    next hleap => have := hlast.resolve_right fun h => hleap h.2; omega
  · unfold monthLength monthOf monthStart
    interval_cases mp
    all_goals norm_num
    all_goals omega

theorem monthLength_era (m y k : Int) : monthLength m (y + k * 400) = monthLength m y := by
  unfold monthLength
  simp only [leap_era]

theorem monthOf_back {mp : Int} (h : 0 ≤ mp ∧ mp ≤ 11) :
    monthOf mp + (if 2 < monthOf mp then -3 else 9) = mp ∧ 1 ≤ monthOf mp ∧ monthOf mp ≤ 12 := by
  unfold monthOf
  split
  all_goals
    split
    all_goals omega

theorem DayOf.dateOf (h : DayOf yoe doy) (k : Int) :
    (dateOf k (yearStart yoe + doy)).Valid ∧ (dateOf k (yearStart yoe + doy)).marchYear = yoe + k * 400 ∧
      (dateOf k (yearStart yoe + doy)).dayOfYear = doy := by
  obtain ⟨mp, hmp, hlow, hhigh, hstart, hend⟩ := h.month
  obtain ⟨hback, hone, htwelve⟩ := monthOf_back ⟨hlow, hhigh⟩
  have hdate : CivilCalendar.dateOf k (yearStart yoe + doy) = ⟨doy - monthStart mp + 1, monthOf mp,
      if monthOf mp ≤ 2 then yoe + k * 400 + 1 else yoe + k * 400⟩ := by
    unfold CivilCalendar.dateOf
    simp only [h.yearOfEra, show yearStart yoe + doy - yearStart yoe = doy by omega, hmp]
  rw [hdate]
  refine ⟨⟨⟨hone, htwelve⟩, by show 1 ≤ doy - monthStart mp + 1; omega, ?_⟩, ?_, ?_⟩
  · show doy - monthStart mp + 1 ≤ monthLength (monthOf mp) (if monthOf mp ≤ 2 then yoe + k * 400 + 1 else yoe + k * 400)
    by_cases hm : monthOf mp ≤ 2
    · rw [if_pos hm] at hend ⊢
      rw [show yoe + k * 400 + 1 = yoe + 1 + k * 400 by omega, monthLength_era]
      omega
    · rw [if_neg hm] at hend ⊢
      rw [monthLength_era]
      omega
  · unfold CivilDate.marchYear
    dsimp only
    split
    all_goals omega
  · unfold CivilDate.dayOfYear
    dsimp only
    rw [hback]
    omega

theorem fromDays_valid (e : Int) : (fromDays e).Valid := by
  obtain ⟨yoe, doy, hdoe, h⟩ := @exists_dayOf (e + 719468 - era e * 146097) (by unfold era; omega)
  unfold fromDays
  rw [hdoe]
  exact (h.dateOf _).1

theorem fromDays_marchYear (e : Int) : (fromDays e).marchYear / 400 = era e := by
  obtain ⟨yoe, doy, hdoe, h⟩ := @exists_dayOf (e + 719468 - era e * 146097) (by unfold era; omega)
  unfold fromDays
  rw [hdoe, (h.dateOf _).2.1]
  have := h.year
  omega

theorem toDays_fromDays (e : Int) : (fromDays e).toDays = e := by
  obtain ⟨yoe, doy, hdoe, h⟩ := @exists_dayOf (e + 719468 - era e * 146097) (by unfold era; omega)
  have hyear := h.year
  unfold CivilDate.toDays CivilDate.dayOfEra fromDays
  rw [hdoe, (h.dateOf _).2.1, (h.dateOf _).2.2, show (yoe + era e * 400) / 400 = era e by omega,
    show yoe + era e * 400 - era e * 400 = yoe by omega, ← hdoe]
  omega

variable {c : CivilDate}

theorem CivilDate.Valid.dayOf (h : c.Valid) : DayOf (c.marchYear - c.marchYear / 400 * 400) c.dayOfYear ∧
    ∃ mp, (5 * c.dayOfYear + 2) / 153 = mp ∧ c.dayOfYear = monthStart mp + c.day - 1 ∧ c.month = monthOf mp := by
  obtain ⟨⟨hone, htwelve⟩, hday, hlast⟩ := h
  unfold CivilDate.marchYear CivilDate.dayOfYear
  generalize c.month = m at *
  have hleap : Leap (c.year - 1 - (c.year - 1) / 400 * 400 + 1) ↔ Leap c.year := by
    unfold Leap
    omega
  by_cases hfeb : m = 2
  · subst hfeb
    have hlast : c.day ≤ if Leap c.year then 29 else 28 := hlast
    rw [if_pos (by decide), if_neg (by decide)]
    have hstart : monthStart (2 + 9) = 337 := by decide
    rw [hstart]
    refine ⟨⟨by omega, by omega, ?_⟩, 11, ?_, by rw [show monthStart 11 = 337 by decide], by decide⟩
    · rw [hleap]
      by_cases hl : Leap c.year
      · rw [if_pos hl] at hlast
        by_cases hd : c.day = 29
        · exact .inr ⟨by omega, hl⟩
        · exact .inl (by omega)
      · rw [if_neg hl] at hlast
        exact .inl (by omega)
    · split at hlast
      all_goals omega
  · have hshort : c.day ≤ if m = 4 ∨ m = 6 ∨ m = 9 ∨ m = 11 then 30 else 31 := by
      unfold monthLength at hlast
      rw [if_neg hfeb] at hlast
      exact hlast
    obtain ⟨mp, hmp⟩ : ∃ mp, m + (if 2 < m then -3 else 9) = mp := ⟨_, rfl⟩
    have hrange : 0 ≤ mp ∧ mp ≤ 10 ∧ m = monthOf mp := by
      unfold monthOf
      split at hmp
      all_goals
        split
        all_goals omega
    rw [hmp]
    obtain ⟨hlow, hhigh, rfl⟩ := hrange
    refine ⟨⟨by omega, ?_, ?_⟩, mp, ?_, rfl, rfl⟩
    all_goals unfold monthStart
    · omega
    · left
      unfold monthOf at hshort
      interval_cases mp
      all_goals norm_num at hshort ⊢
      all_goals omega
    · unfold monthOf at hshort
      interval_cases mp
      all_goals norm_num at hshort ⊢
      all_goals omega

theorem fromDays_toDays (h : c.Valid) : fromDays c.toDays = c := by
  obtain ⟨hd, mp, hmp, hday, hmonth⟩ := h.dayOf
  obtain ⟨q, r, k, hyoe, hys, hq⟩ := hd.digits
  have hstart := hd.start
  have hera : era c.toDays = c.marchYear / 400 := by
    unfold era CivilDate.toDays CivilDate.dayOfEra
    omega
  have hdoe : c.toDays + 719468 - c.marchYear / 400 * 146097 =
      yearStart (c.marchYear - c.marchYear / 400 * 400) + c.dayOfYear := by
    unfold CivilDate.toDays CivilDate.dayOfEra
    omega
  unfold fromDays dateOf
  rw [hera, hdoe]
  simp only [hd.yearOfEra, show ∀ x : Int, x + c.dayOfYear - x = c.dayOfYear by omega, hmp, ← hmonth]
  cases c with
  | mk d m y =>
    simp only [CivilDate.mk.injEq, true_and]
    refine ⟨by dsimp only at hday; omega, ?_⟩
    unfold CivilDate.marchYear
    dsimp only
    split
    all_goals omega

theorem toDays_eq (c : CivilDate) : c.toDays = 365 * c.marchYear + c.marchYear / 4 - c.marchYear / 100 +
    c.marchYear / 400 + c.dayOfYear - 719468 := by
  unfold CivilDate.toDays CivilDate.dayOfEra yearStart
  omega

theorem CivilDate.Valid.next (h : c.Valid) : c.next.Valid := by
  obtain ⟨⟨hone, htwelve⟩, hday, hlast⟩ := h
  have hlen : ∀ m y, 28 ≤ monthLength m y := by
    intro m y
    unfold monthLength
    split
    · split
      all_goals omega
    · split
      all_goals omega
  unfold CivilDate.next
  split
  next hlt => exact ⟨⟨hone, htwelve⟩, by dsimp only; omega, by dsimp only; omega⟩
  next hge =>
    split
    next hm => exact ⟨by dsimp only; omega, le_rfl, by have := hlen (c.month + 1) c.year; dsimp only; omega⟩
    next hm => exact ⟨⟨le_rfl, by dsimp only; omega⟩, le_rfl, by have := hlen 1 (c.year + 1); dsimp only; omega⟩

theorem toDays_next (h : c.Valid) : c.next.toDays = c.toDays + 1 := by
  obtain ⟨⟨hone, htwelve⟩, hday, hlast⟩ := h
  rw [toDays_eq, toDays_eq]
  unfold CivilDate.next
  by_cases hlt : c.day < monthLength c.month c.year
  · rw [if_pos hlt]
    unfold CivilDate.marchYear CivilDate.dayOfYear
    dsimp only
    omega
  · rw [if_neg hlt]
    have hend : c.day = monthLength c.month c.year := by omega
    by_cases hfeb : c.month = 2
    · -- The day after the last of February begins a year.
      rw [if_pos (by omega)]
      have hmarch : c.marchYear = c.year - 1 := if_pos (by omega)
      have hday : c.dayOfYear = 337 + monthLength 2 c.year - 1 := by
        unfold CivilDate.dayOfYear
        rw [hend, hfeb]
        rfl
      have hnext : (CivilDate.mk 1 (c.month + 1) c.year).marchYear = c.year ∧
          (CivilDate.mk 1 (c.month + 1) c.year).dayOfYear = 0 := by
        rw [hfeb]
        exact ⟨rfl, rfl⟩
      have hlen : monthLength 2 c.year = if Leap c.year then 29 else 28 := rfl
      rw [hmarch, hday, hnext.1, hnext.2, hlen]
      split
      next hl =>
        unfold Leap at hl
        omega
      next hl =>
        unfold Leap at hl
        omega
    · have hlen : monthLength c.month c.year =
          if c.month = 4 ∨ c.month = 6 ∨ c.month = 9 ∨ c.month = 11 then 30 else 31 := if_neg hfeb
      unfold CivilDate.marchYear CivilDate.dayOfYear monthStart
      rw [hend, hlen]
      generalize c.month = m at *
      interval_cases m
      all_goals norm_num at *
      all_goals omega

theorem fromDays_succ (e : Int) : fromDays (e + 1) = (fromDays e).next := by
  have hvalid := fromDays_valid e
  have h := toDays_next hvalid
  rw [toDays_fromDays] at h
  rw [← h, fromDays_toDays hvalid.next]

end CivilCalendar
