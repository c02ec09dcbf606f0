import WinArmVm.FlooredDivision

namespace WinArmVm

open DigitArithmetic List
open Nat (ofDigits)

theorem answers {α β : Type} {x : Option α} {f : α → Option β} {a : α} {b : β} (h : x = some a) (hf : f a = some b) :
    x.bind f = some b := Option.bind_eq_some_iff.mpr ⟨a, h, hf⟩

namespace IntegerOop

open SmallInteger LargeInteger

variable {a b r : IntegerOop} {n : Nat}

theorem asLargeInteger_lost (ha : a.Lost) : ∃ k, a.asLargeInteger = ⟨true, List.replicate (k + 1) 0⟩ := by
  cases a with
  | large l => exact absurd ha fun h => h
  | small v =>
    obtain ⟨k, hk, he⟩ := ha
    have hneg : v < 0 := by
      have : 0 < 256 ^ k := Nat.pow_pos (by decide)
      omega
    obtain ⟨k', rfl⟩ : ∃ k', k = k' + 1 := ⟨k - 1, by omega⟩
    exact ⟨k', (fromSmallInteger_neg hneg).2 _ hk he⟩

theorem asLargeInteger_digits (ha : a.Valid) :
    (∀ d ∈ a.asLargeInteger.bytes, d < 256) ∧ a.asLargeInteger.bytes ≠ [] := by
  by_cases hlost : a.Lost
  · obtain ⟨k, hk⟩ := asLargeInteger_lost hlost
    rw [hk]
    refine ⟨fun d hd => ?_, fun h => by cases h⟩
    rw [eq_of_mem_replicate hd]
    decide
  · obtain ⟨hok, -⟩ := asLargeInteger_ok ha hlost
    exact ⟨hok.trimmed.1, hok.trimmed.2.1⟩

theorem asLargeInteger_zero (ha : a.Lost) : a.asLargeInteger.toInt = 0 := by
  obtain ⟨k, hk⟩ := asLargeInteger_lost ha
  rw [hk, toInt_neg rfl]
  unfold magnitude
  rw [Nat.ofDigits_replicate_zero]
  rfl

theorem Normal.eq_zero (h : Normal r 0) : r = small 0 := by
  rcases h with ⟨-, h⟩ | ⟨h, -⟩
  · exact h
  · exact absurd h (by decide)

def Slow (a b : IntegerOop) : Prop := a.isLarge = true ∨ b.isLarge = true ∨ ¬ fits (a.toInt * b.toInt) = true

theorem times_lost (ha : a.Valid) (hb : b.Valid) (hlost : a.Lost ∨ b.Lost) (hslow : a.Slow b) :
    a.times b = some (small 0) := by
  have hrun : a.times b = a.asLargeInteger.times b := by
    cases a with
    | large l => rfl
    | small x =>
      cases b with
      | large l => rfl
      | small y =>
        rcases hslow with h | h | h
        · cases h
        · cases h
        · exact if_neg h
  obtain ⟨hbd, hbne⟩ := asLargeInteger_digits hb
  obtain ⟨r, hr, hn⟩ := times_normal_of_digits (asLargeInteger_digits ha).1 hbd hbne
  have hzero : a.asLargeInteger.toInt * b.asLargeInteger.toInt = 0 := by
    rcases hlost with h | h
    · rw [asLargeInteger_zero h, Int.zero_mul]
    · rw [asLargeInteger_zero h, Int.mul_zero]
  rw [hzero] at hn
  rw [hrun, hr, hn.eq_zero]

theorem times_kept (ha : a.Valid) (hb : b.Valid) (hkeep : ¬ ((a.Lost ∨ b.Lost) ∧ a.Slow b)) :
    ∃ r, a.times b = some r ∧ r.Answered ∧ r.toInt = a.toInt * b.toInt := by
  by_cases hslow : a.Slow b
  · obtain ⟨r, hr, hpath⟩ := times_path ha hb (fun h => hkeep ⟨.inl h, hslow⟩) fun h => hkeep ⟨.inr h, hslow⟩
    exact ⟨r, hr, answered_of_path hpath⟩
  · cases a with
    | large l => exact absurd (.inl rfl) hslow
    | small x =>
      cases b with
      | large l => exact absurd (.inr (.inl rfl)) hslow
      | small y =>
        by_cases hfit : fits (x * y) = true
        · exact ⟨small (x * y), if_pos hfit, hfit, rfl⟩
        · exact absurd (.inr (.inr hfit)) hslow

theorem Answered.lost_iff (ha : a.Answered) : a.Lost ↔ a.toInt < 0 ∧ CarryPower a.toInt.natAbs := by
  constructor
  · intro hlost
    cases a with
    | large l => exact absurd hlost fun h => h
    | small v =>
      obtain ⟨k, hk, he⟩ := hlost
      have hpos : 0 < 256 ^ k := Nat.pow_pos (by decide)
      have hneg : v < 0 := by omega
      refine ⟨hneg, carryPower_iff.mpr ?_⟩
      have hv : -(((small v).toInt.natAbs : Nat) : Int) = v := by
        show -((v.natAbs : Nat) : Int) = v
        omega
      rw [hv]
      exact ⟨ha, k, hk, he⟩
  · rintro ⟨hneg, hpower⟩
    have hbound := hpower.bounds
    cases a with
    | large l =>
      have := ha.big rfl
      omega
    | small v =>
      obtain ⟨hf, hcarry⟩ := carryPower_iff.mp hpower
      have hneg : v < 0 := hneg
      have hv : -(((small v).toInt.natAbs : Nat) : Int) = v := by
        show -((v.natAbs : Nat) : Int) = v
        omega
      rw [hv] at hcarry
      exact hcarry

theorem large_minus_answered {l : LargeInteger} (hl : l.Ok) (hb : b.Answered) :
    (CarryPower b.toInt.natAbs → ¬ (0 < l.toInt ∧ 256 * l.toInt < b.toInt) → Normal (l.minus b) l.toInt) ∧
      (¬ CarryPower b.toInt.natAbs → Normal (l.minus b) (l.toInt - b.toInt)) := by
  by_cases hlost : b.Lost
  · obtain ⟨hneg, hpower⟩ := hb.lost_iff.mp hlost
    refine ⟨fun _ _ => ?_, fun h => absurd hpower h⟩
    have hn := negated_normal (asLargeInteger_digits hb.valid).1
    rw [asLargeInteger_zero hlost] at hn
    have hplus := @plus_normal l (small 0) hl (fromSmallInteger_nonneg le_rfl).1
    have hzero : (small 0).asLargeInteger.toInt = 0 := (fromSmallInteger_nonneg le_rfl).2
    rw [hzero, Int.add_zero] at hplus
    unfold LargeInteger.minus
    rw [hn.eq_zero]
    exact hplus
  · obtain ⟨hbo, hbv⟩ := asLargeInteger_ok hb.valid hlost
    have hpath := large_minus hl hbo
    rw [hbv] at hpath
    constructor
    · intro hpower hborrow
      have hpos : ¬ b.toInt < 0 := fun hneg => hlost (hb.lost_iff.mpr ⟨hneg, hpower⟩)
      obtain ⟨hf, hcarry⟩ := carryPower_iff.mp hpower
      rw [show ((b.toInt.natAbs : Nat) : Int) = b.toInt by omega] at hf hcarry
      rcases hpath with ⟨-, hn⟩ | ⟨hsafe, -⟩
      · exact hn
      · exact absurd ⟨hf, hcarry, hborrow⟩ hsafe
    · intro hpower
      rcases hpath with ⟨⟨hf, hcarry, -⟩, -⟩ | ⟨-, hn⟩
      · obtain ⟨k, hk, he⟩ := id hcarry
        have hpos : 0 < 256 ^ k := Nat.pow_pos (by decide)
        rw [show b.toInt = ((b.toInt.natAbs : Nat) : Int) by omega] at hf hcarry
        exact absurd (carryPower_iff.mpr ⟨hf, hcarry⟩) hpower
      · exact hn

/-- An answer of arithmetic with the value `z`. -/
structure Is (a : IntegerOop) (z : Int) : Prop where
  answered : a.Answered
  value : a.toInt = z

namespace Is

variable {x y z c : Int}

theorem small (h : fits z = true) : (small z).Is z := ⟨h, rfl⟩

theorem of_normal (h : Normal r z) : r.Is z := ⟨h.answered, h.toInt⟩

theorem of_exact (h : Exact r z) : r.Is z := ⟨h.answered, h.toInt⟩

theorem lost_iff (h : a.Is z) : a.Lost ↔ z < 0 ∧ CarryPower z.natAbs := by
  rw [h.answered.lost_iff, h.value]

theorem eq_small (h : a.Is z) (hz : z.natAbs < 2 ^ 61) : a = IntegerOop.small z := by
  obtain ⟨ha, rfl⟩ := h
  cases a with
  | small v => rfl
  | large l => exact absurd (ha.big rfl) (Nat.not_le.mpr hz)

theorem isLarge (h : a.Is z) (hl : a.isLarge = true) : 2 ^ 61 ≤ z.natAbs := by
  rw [← h.value]
  exact h.answered.big hl

theorem unique (ha : a.Is z) (hb : b.Is z) (hz : 2 ^ 61 < z.natAbs) : a = b := by
  have hlarge : ∀ {r : IntegerOop}, r.Is z → ∃ l, r = large l := by
    intro r hr
    cases r with
    | large l => exact ⟨l, rfl⟩
    | small v =>
      have hv : v = z := hr.value
      have := fits_iff.mp hr.answered
      omega
  obtain ⟨l, rfl⟩ := hlarge ha
  obtain ⟨l', rfl⟩ := hlarge hb
  obtain ⟨hneg, hbytes⟩ := Ok.ext ha.answered.1 hb.answered.1 (ha.value.trans hb.value.symm)
  cases l
  cases l'
  cases hneg
  cases hbytes
  rfl

theorem plus (ha : a.Is x) (hb : b.Is y) (hal : ¬ a.Lost) (hbl : ¬ b.Lost) : (a.plus b).Is (x + y) := by
  have hpath := plus_path ha.answered.valid hb.answered.valid hal hbl
  rw [ha.value, hb.value] at hpath
  obtain ⟨hr, hv⟩ := answered_of_path hpath
  exact ⟨hr, hv⟩

theorem plus_const (ha : a.Valid) (hc : 0 ≤ c) (hfit : fits c = true) : (a.plus (IntegerOop.small c)).Is (a.toInt + c) := by
  have hcv : (IntegerOop.small c).Valid := hfit
  have hcl : ¬ (IntegerOop.small c).Lost := not_carryLost_nonneg hc
  have hpath : ¬ a.Lost → (a.plus (IntegerOop.small c)).Is (a.toInt + c) := by
    intro hal
    obtain ⟨hr, hv⟩ := answered_of_path (plus_path ha hcv hal hcl)
    exact ⟨hr, hv⟩
  cases a with
  | large l => exact hpath fun h => h
  | small v =>
    by_cases hv : 0 ≤ v
    · exact hpath (not_carryLost_nonneg hv)
    · have hf : fits (v + c) = true := by
        have := fits_iff.mp ha
        have := fits_iff.mp hfit
        exact fits_iff.mpr (by omega)
      have hrun : (IntegerOop.small v).plus (IntegerOop.small c) = IntegerOop.small (v + c) := if_pos hf
      rw [hrun]
      exact Is.small hf

theorem minus (ha : a.Is x) (hb : b.Is y) (hal : a.Lost → b.isLarge = false ∧ fits (x - y) = true)
    (hy : ¬ CarryPower y.natAbs) : (a.minus b).Is (x - y) := by
  have hslow : ¬ a.Lost → (a.asLargeInteger.minus b).Is (x - y) := by
    intro hl
    obtain ⟨hok, hval⟩ := asLargeInteger_ok ha.answered.valid hl
    have hn := (large_minus_answered hok hb.answered).2 (by rw [hb.value]; exact hy)
    rw [hval, ha.value, hb.value] at hn
    exact of_normal hn
  cases a with
  | large l => exact hslow fun h => h
  | small v =>
    have hv : v = x := ha.value
    subst hv
    cases b with
    | large l => exact hslow fun h => (by cases (hal h).1)
    | small w =>
      have hw : w = y := hb.value
      subst hw
      by_cases hf : fits (v - w) = true
      · have hrun : (IntegerOop.small v).minus (IntegerOop.small w) = IntegerOop.small (v - w) := if_pos hf
        rw [hrun]
        exact Is.small hf
      · have hrun : (IntegerOop.small v).minus (IntegerOop.small w) =
            (IntegerOop.small v).asLargeInteger.minus (IntegerOop.small w) := if_neg hf
        rw [hrun]
        exact hslow fun h => hf (hal h).2

theorem minus_const (ha : a.Is x) (hc : 0 ≤ c) (hsmall : c < 2 ^ 60) (hpower : ¬ CarryPower c.natAbs) :
    (a.minus (IntegerOop.small c)).Is (x - c) := by
  refine ha.minus (Is.small (fits_iff.mpr (by omega))) (fun hlost => ⟨rfl, ?_⟩) hpower
  have hbound := (ha.lost_iff.mp hlost).2.bounds
  exact fits_iff.mpr (by omega)

theorem times_const (ha : a.Is x) (hc : 0 ≤ c) (hfit : fits c = true)
    (hkeep : ¬ (x < 0 ∧ CarryPower x.natAbs ∧ ¬ fits (x * c) = true)) :
    ∃ r, a.times (IntegerOop.small c) = some r ∧ r.Is (x * c) := by
  obtain ⟨r, hr, hra, hrv⟩ := @times_kept a (IntegerOop.small c) ha.answered.valid hfit (by
    rintro ⟨hlost | hlost, hslow⟩
    · obtain ⟨hneg, hpower⟩ := ha.lost_iff.mp hlost
      rcases hslow with h | h | h
      · have := ha.isLarge h
        have := hpower.bounds.2
        omega
      · cases h
      · rw [ha.value] at h
        exact hkeep ⟨hneg, hpower, h⟩
    · exact not_carryLost_nonneg hc hlost)
  refine ⟨r, hr, hra, ?_⟩
  rw [hrv, ha.value]
  rfl

theorem times_const_lost (ha : a.Is x) (hfit : fits c = true)
    (hlost : x < 0 ∧ CarryPower x.natAbs ∧ ¬ fits (x * c) = true) :
    a.times (IntegerOop.small c) = some (IntegerOop.small 0) := by
  refine @times_lost a (IntegerOop.small c) ha.answered.valid hfit (.inl (ha.lost_iff.mpr ⟨hlost.1, hlost.2.1⟩)) (.inr (.inr ?_))
  rw [ha.value]
  exact hlost.2.2

theorem floored_const (ha : a.Is x) (hc : 0 < c) (hfit : fits c = true) :
    ∃ q r, a.floorDiv (IntegerOop.small c) = some q ∧ a.floorMod (IntegerOop.small c) = some r ∧ q.Is (x / c) ∧
      r = IntegerOop.small (x % c) := by
  have hdiv : x.fdiv c = x / c := Int.fdiv_eq_ediv_of_nonneg x (by omega)
  have hmod : x.fmod c = x % c := Int.fmod_eq_emod_of_nonneg x (by omega)
  have hc0 : c ≠ 0 := by omega
  cases a with
  | small v =>
    have hv : v = x := ha.value
    subst hv
    have hq := floorDiv_small v c
    have hr := floorMod_small v c
    have hfd : fits (v.fdiv c) = true := (fits_fdiv ha.answered hc0).mpr (by omega)
    rw [if_neg hc0, if_pos hfd] at hq
    rw [if_neg hc0, if_pos (fits_fmod hc0 hfit)] at hr
    rw [hdiv] at hq hfd
    rw [hmod] at hr
    exact ⟨_, _, hq, hr, Is.small hfd, rfl⟩
  | large l =>
    have hcv : (IntegerOop.small c).Valid := hfit
    have habs : (large l).abs.isLarge = true := by
      rw [(abs_exact ha.answered).isLarge_iff]
      rw [ha.value]
      exact ha.isLarge rfl
    have hcabs : (IntegerOop.small c).abs = IntegerOop.small c := by
      rw [abs_eq hcv, if_neg (by show ¬ c < 0; omega)]
    obtain ⟨q, r, hrun, hqa, hra, -, hfloor⟩ := flooredDivMod_signed (b := IntegerOop.small c) ha.answered.1 hcv hc0 habs
    have hx : l.toInt = x := ha.value
    have hcz : (IntegerOop.small c).toInt = c := rfl
    have hkeep : ¬ RemainderLost (large l) (IntegerOop.small c) := by
      rintro ⟨-, h, -⟩
      rw [hcabs] at h
      cases h
    obtain ⟨hqv, hrv⟩ := (hfloor hkeep).eq
    rw [hx, hcz, hdiv] at hqv
    rw [hx, hcz, hmod] at hrv
    have hrange := fits_iff.mp hfit
    have hlow := Int.emod_nonneg x hc0
    have hhigh := Int.emod_lt_of_pos x hc
    refine ⟨q, r, by rw [floorDiv_large, hrun]; rfl, by rw [floorMod_large, hrun]; rfl, ⟨hqa, hqv⟩, ?_⟩
    exact Is.eq_small ⟨hra, hrv⟩ (by omega)

end Is

variable {x y c : Int}

theorem small_plus (h : fits (x + y) = true) : (small x).plus (small y) = small (x + y) := if_pos h

theorem small_minus (h : fits (x - y) = true) : (small x).minus (small y) = small (x - y) := if_pos h

theorem small_times (h : fits (x * y) = true) : (small x).times (small y) = some (small (x * y)) := if_pos h

theorem small_floorDiv (hx : fits x = true) (hc : 0 < c) : (small x).floorDiv (small c) = some (small (x / c)) := by
  have hfit : fits (x.fdiv c) = true := (fits_fdiv hx (by omega)).mpr (by omega)
  rw [floorDiv_small, if_neg (by omega), if_pos hfit, Int.fdiv_eq_ediv_of_nonneg x (by omega)]

/-- A negative power of 256 loses its magnitude as a LargeInteger, but it is still the shorter of two. -/
theorem compare_lost {l : LargeInteger} (hl : (large l).Answered) (ha : a.Answered) (hlost : a.Lost) :
    a.asLargeInteger.neg = true ∧ a.toInt < 0 ∧ a.toInt.natAbs < l.magnitude ∧
      a.asLargeInteger.compareMagnitude l = -1 ∧ l.compareMagnitude a.asLargeInteger = 1 := by
  cases a with
  | large l => exact absurd hlost fun h => h
  | small v =>
    obtain ⟨k, hk, he⟩ := hlost
    have hpos : 0 < 256 ^ k := Nat.pow_pos (by decide)
    obtain ⟨j, hj, hle⟩ := Counts.le_of_carryLost ha ⟨k, hk, he⟩
    have hzeros : (small v).asLargeInteger = ⟨true, List.replicate k 0⟩ := (fromSmallInteger_neg (by omega)).2 k hk he
    have hbig := hl.2
    have hlong : 8 ≤ l.bytes.length := by
      by_contra hshort
      have hlt := ofDigits_lt (by decide) hl.1.trimmed.1
      have hpow := Nat.pow_le_pow_right (n := 256) (by decide) (show l.bytes.length ≤ 7 by omega)
      change l.magnitude < _ at hlt
      omega
    have hk7 : k ≤ 7 := by
      by_contra hk8
      have := Nat.pow_le_pow_right (n := 256) (by decide) (show 8 ≤ k by omega)
      omega
    rw [hzeros]
    refine ⟨rfl, ?_, ?_, ?_, ?_⟩
    · show v < 0
      omega
    · show v.natAbs < l.magnitude
      omega
    · unfold compareMagnitude compareDigits
      rw [length_replicate, if_neg (by omega), if_pos (by omega)]
    · unfold compareMagnitude compareDigits
      rw [length_replicate, if_pos (by omega)]

theorem Answered.less (ha : a.Answered) (hb : b.Answered) : a.less b = decide (a.toInt < b.toInt) := by
  by_cases hal : a.Lost
  · cases b with
    | small w =>
      cases a with
      | small v => rfl
      | large l => exact absurd hal fun h => h
    | large l =>
      obtain ⟨hneg, hlow, hmag, hcmp, -⟩ := compare_lost hb ha hal
      have hrun : a.less (large l) = a.asLargeInteger.less (large l) := by cases a <;> rfl
      have hl : (large l).toInt = l.toInt := rfl
      rw [hrun, hl]
      generalize a.asLargeInteger = la at hneg hcmp ⊢
      unfold LargeInteger.less
      cases hn : l.neg with
      | false =>
        rw [toInt_pos hn, decide_eq_true (by omega)]
        simp [hneg, IntegerOop.asLargeInteger, hn]
      | true =>
        rw [toInt_neg hn, decide_eq_false (by omega)]
        simp [hneg, IntegerOop.asLargeInteger, hn, hcmp]
  · by_cases hbl : b.Lost
    · cases a with
      | small v =>
        cases b with
        | small w => rfl
        | large l => exact absurd hbl fun h => h
      | large l =>
        obtain ⟨hneg, hlow, hmag, -, hcmp⟩ := compare_lost ha hb hbl
        have hl : (large l).toInt = l.toInt := rfl
        show l.less b = _
        rw [hl]
        unfold LargeInteger.less
        generalize b.asLargeInteger = lb at hneg hcmp ⊢
        cases hn : l.neg with
        | false =>
          rw [toInt_pos hn, decide_eq_false (by omega)]
          simp [hneg]
        | true =>
          rw [toInt_neg hn, decide_eq_true (by omega)]
          simp [hneg, hcmp]
    · exact less_exact ha.valid hb.valid hal hbl

theorem Answered.equal_iff (ha : a.Answered) (hb : b.Answered) : a.equal b = decide (a.toInt = b.toInt) := by
  by_cases he : a.toInt = b.toInt
  · rw [ha.equal hb he, decide_eq_true he]
  rw [decide_eq_false he]
  by_cases hal : a.Lost
  · cases b with
    | small w =>
      cases a with
      | small v => exact decide_eq_false he
      | large l => exact absurd hal fun h => h
    | large l =>
      have hcmp := (compare_lost hb ha hal).2.2.2.1
      have hrun : a.equal (large l) = a.asLargeInteger.equal (large l) := by cases a <;> rfl
      rw [hrun]
      generalize a.asLargeInteger = la at hcmp ⊢
      simp [LargeInteger.equal, IntegerOop.asLargeInteger, hcmp]
  · by_cases hbl : b.Lost
    · cases a with
      | small v =>
        cases b with
        | small w => exact decide_eq_false he
        | large l => exact absurd hbl fun h => h
      | large l =>
        have hcmp := (compare_lost ha hb hbl).2.2.2.2
        show l.equal b = false
        simp [LargeInteger.equal, hcmp]
    · rw [equal_exact ha.valid hb.valid hal hbl, decide_eq_false he]

theorem Answered.greater (ha : a.Answered) (hb : b.Answered) : a.greater b = decide (b.toInt < a.toInt) :=
  greater_of_less (hb.less ha)

theorem Answered.lessEq (ha : a.Answered) (hb : b.Answered) : a.lessEq b = decide (a.toInt ≤ b.toInt) :=
  lessEq_of_less (ha.less hb) (ha.equal_iff hb) (hb.less ha)

theorem Answered.greaterEq (ha : a.Answered) (hb : b.Answered) : a.greaterEq b = decide (b.toInt ≤ a.toInt) :=
  greaterEq_of_less (ha.less hb) (ha.equal_iff hb) (hb.less ha)

end IntegerOop

end WinArmVm
