import WinArmVm.IntegerDivision

namespace WinArmVm

open Nat Int Option DigitArithmetic List

namespace IntegerOop

open SmallInteger LargeInteger

variable {a b r : IntegerOop} {z : Int} {m n : Nat}

theorem Exact.valid (h : Exact r z) : r.Valid := by
  unfold Exact at h
  split at h
  next hf =>
    rw [h]
    exact hf
  next =>
    obtain ⟨l, rfl, hok, -⟩ := h
    exact hok

structure Counts (a : IntegerOop) (n : Nat) : Prop where
  valid : a.Valid
  value : a.toInt = n

theorem Exact.counts (h : Exact r (n : Int)) : r.Counts n := ⟨h.valid, h.toInt⟩

theorem counts_small (h : n < 2 ^ 61) : (small n).Counts n := ⟨fits_iff.mpr (by omega), rfl⟩

theorem exact_small_nat (h : n < 2 ^ 61) : Exact (small n) n := exact_small (fits_iff.mpr (by omega))

theorem Exact.eq_small (h : Exact r (n : Int)) (hn : n < 2 ^ 61) : r = small n := by
  unfold Exact at h
  rw [if_pos (fits_iff.mpr (by omega))] at h
  exact h

theorem Exact.isLarge_iff (h : Exact r (n : Int)) : r.isLarge = true ↔ 2 ^ 61 ≤ n := by
  by_cases hn : n < 2 ^ 61
  · rw [h.eq_small hn]
    exact iff_of_false (fun he => (by cases he)) (by omega)
  · unfold Exact at h
    rw [if_neg (fun hf => by have := fits_iff.mp hf; omega)] at h
    obtain ⟨l, rfl, -⟩ := h
    exact iff_of_true rfl (by omega)

namespace Counts

theorem not_lost (h : a.Counts n) : ¬ a.Lost := by
  cases a with
  | small v =>
    have hv : v = n := h.value
    exact not_carryLost_nonneg (by omega)
  | large l => exact fun hlost => hlost

theorem ne_min (n : Nat) : (n : Int) ≠ minVal := by
  have hmin : minVal = -2 ^ 61 := by decide
  omega

section

variable (ha : a.Counts m) (hb : b.Counts n)

include ha hb

theorem plus : Exact (a.plus b) ((m + n : Nat) : Int) := by
  have h := (exact_iff_of_path (plus_path ha.valid hb.valid ha.not_lost hb.not_lost)).mpr
  rw [ha.value, hb.value, ← natCast_add] at h
  exact h fun _ => ne_min _

theorem times : ∃ r, a.times b = some r ∧ Exact r ((m * n : Nat) : Int) := by
  obtain ⟨r, hr, hpath⟩ := times_path ha.valid hb.valid ha.not_lost hb.not_lost
  refine ⟨r, hr, ?_⟩
  have h := (exact_iff_of_path hpath).mpr
  rw [ha.value, hb.value, ← natCast_mul] at h
  exact h fun _ => ne_min _

theorem lessEq : a.lessEq b = decide (m ≤ n) := by
  rw [lessEq_exact ha.valid hb.valid ha.not_lost hb.not_lost, ha.value, hb.value, decide_eq_decide, ofNat_le]

theorem less : a.less b = decide (m < n) := by
  rw [less_exact ha.valid hb.valid ha.not_lost hb.not_lost, ha.value, hb.value, decide_eq_decide, ofNat_lt]

end

theorem equal (ha : a.Counts m) (hb : b.Counts n) : a.equal b = decide (m = n) := by
  rw [equal_exact ha.valid hb.valid ha.not_lost hb.not_lost, ha.value, hb.value, decide_eq_decide, natCast_inj]

theorem isZero (ha : a.Counts m) : a.isZero = decide (m = 0) := ha.equal (counts_small (by decide))

theorem negative (ha : a.Counts m) : a.negative = false := by
  have h := ha.less (counts_small (n := 0) (by decide))
  rw [decide_eq_false (by omega)] at h
  exact h

theorem abs (ha : a.Counts m) : a.abs = a := by
  have h : a.less (small 0) = false := ha.negative
  unfold IntegerOop.abs
  rw [h]
  rfl

theorem le_of_carryLost {v : Int} (hf : fits v = true) (hlost : CarryLost v) : ∃ k : Nat, -v = ((256 ^ k : Nat) : Int) ∧
    256 ^ k ≤ 2 ^ 56 := by
  obtain ⟨k, -, hk⟩ := hlost
  have hlow := (fits_iff.mp hf).1
  refine ⟨k, by omega, ?_⟩
  have hk7 : k ≤ 7 := by
    by_contra hbig
    have := Nat.pow_le_pow_right (n := 256) (by decide) (show 8 ≤ k by omega)
    omega
  exact Nat.pow_le_pow_right (by decide) hk7

end Counts

theorem Exact.minus (ha : Exact a (m : Int)) (hb : Exact b (n : Int)) (hle : n ≤ m)
    (hnear : 0 < n → n ≤ 2 ^ 56 → m < 2 ^ 61) : Exact (a.minus b) ((m - n : Nat) : Int) := by
  have hac := ha.counts
  have hbc := hb.counts
  have h := (minus_exact_iff hac.valid hbc.valid hac.not_lost hbc.not_lost).mpr
  rw [hac.value, hbc.value, ← Int.ofNat_sub hle] at h
  refine h ⟨fun hbig hlost => ?_, fun _ => Counts.ne_min _⟩
  obtain ⟨hf, hcarry, -⟩ := hlost
  obtain ⟨k, hk, hk56⟩ := Counts.le_of_carryLost hf hcarry
  rw [hbc.value, Int.neg_neg] at hk
  have hpos : 0 < 256 ^ k := Nat.pow_pos (by decide)
  have hm := hnear (by omega) (by omega)
  have hfit : fits ((m - n : Nat) : Int) = true := fits_iff.mpr (by omega)
  rw [ha.eq_small hm, hb.eq_small (by omega), hfit] at hbig
  cases hbig

end IntegerOop

namespace LargeInteger

open SmallInteger IntegerOop

variable {d rem : IntegerOop} {m n : Nat}

theorem divModBytes_eq {v : Nat} (hv : 0 < v) (bytes : List Nat) :
    (divModBytes v bytes).2 = ((ofDigits 256 bytes % v : Nat) : Int) ∧
      ofDigits 256 (divModBytes v bytes).1 = ofDigits 256 bytes / v := by
  induction bytes with
  | nil => exact ⟨by simp [divModBytes], by simp [divModBytes]⟩
  | cons byte bytes ih =>
    have hpart : (divModBytes v bytes).2 * 256 + (byte : Int) = ((byte + 256 * (ofDigits 256 bytes % v) : Nat) : Int) := by
      rw [ih.1]
      push_cast
      ring
    have hdiv := div_digit hv byte 256 (ofDigits 256 bytes)
    have hrun : divModBytes v (byte :: bytes) =
        ((((divModBytes v bytes).2 * 256 + (byte : Int)).fdiv v).toNat :: (divModBytes v bytes).1,
          ((divModBytes v bytes).2 * 256 + (byte : Int)).fmod v) := rfl
    rw [hrun, hpart, ← ofNat_fdiv, ← ofNat_fmod, toNat_natCast]
    refine ⟨by rw [ofDigits_cons, hdiv.2], ?_⟩
    rw [ofDigits_cons, ofDigits_cons, ih.2]
    exact hdiv.1.symm

variable {bytes : List Nat}

theorem divModBytes_lt {v : Nat} (hv : 0 < v) (hb : ∀ e ∈ bytes, e < 256) : ∀ e ∈ (divModBytes v bytes).1, e < 256 := by
  induction bytes with
  | nil =>
    intro e he
    cases he
  | cons byte bytes ih =>
    intro e he
    rcases mem_cons.mp he with rfl | he
    · have hrem := (divModBytes_eq hv bytes).1
      have hlt := mod_lt (ofDigits 256 bytes) hv
      have hbyte := hb byte mem_cons_self
      show ((((divModBytes v bytes).2 * 256 + (byte : Int)).fdiv v).toNat : Nat) < 256
      have hpart : (divModBytes v bytes).2 * 256 + (byte : Int) =
          ((byte + 256 * (ofDigits 256 bytes % v) : Nat) : Int) := by
        rw [hrem]
        push_cast
        ring
      rw [hpart, ← ofNat_fdiv, toNat_natCast]
      exact digit_lt hbyte hlt
    · exact ih (fun e he => hb e (mem_cons_of_mem _ he)) e he

theorem searchDigit_spec (hd : d.Counts n) (hrem : rem.Counts m) (hn : 0 < n) {fuel lo hi digit : Nat}
    (hfuel : hi ≤ lo + fuel) (hlow : digit * n ≤ m) (hnext : digit + 1 = lo ∨ digit = 0 ∧ lo = 0) (hhigh : m < hi * n)
    (hbyte : hi ≤ 256) :
    searchDigit d rem (fuel + 1) lo ((hi : Int) - 1) digit = some ((m / n : Nat) : Int) := by
  induction fuel generalizing lo hi digit with
  | zero =>
    have hdone : ¬ (lo : Int) ≤ (hi : Int) - 1 := by omega
    unfold searchDigit
    rw [if_neg hdone]
    have hle : hi * n ≤ (digit + 1) * n := Nat.mul_le_mul_right n (by omega)
    rw [(Nat.div_eq_iff hn).mpr ⟨by omega, by rw [Nat.add_mul, Nat.one_mul] at hle; omega⟩]
  | succ fuel ih =>
    unfold searchDigit
    by_cases hrange : (lo : Int) ≤ (hi : Int) - 1
    · rw [if_pos hrange]
      have hmid : ((lo : Int) + ((hi : Int) - 1)).fdiv 2 = (((lo + (hi - 1)) / 2 : Nat) : Int) := by
        rw [Int.ofNat_fdiv]
        congr 1
        omega
      have hc : (small (((lo + (hi - 1)) / 2 : Nat) : Int)).Counts ((lo + (hi - 1)) / 2) := counts_small (by omega)
      obtain ⟨p, hp, hpe⟩ := hc.times hd
      simp only [hmid, hp, bind_eq_bind, bind_some]
      rw [hpe.counts.lessEq hrem]
      by_cases hle : (lo + (hi - 1)) / 2 * n ≤ m
      · rw [decide_eq_true hle, if_pos rfl]
        have := @ih ((lo + (hi - 1)) / 2 + 1) hi ((lo + (hi - 1)) / 2) (by omega) hle (.inl rfl) hhigh hbyte
        rw [Int.natCast_add] at this
        exact this
      · rw [decide_eq_false hle, if_neg Bool.false_ne_true]
        have := @ih lo ((lo + (hi - 1)) / 2) digit (by omega) hlow hnext (by omega) (by omega)
        exact this
    · rw [if_neg hrange]
      have hle : hi * n ≤ (digit + 1) * n := Nat.mul_le_mul_right n (by omega)
      rw [(Nat.div_eq_iff hn).mpr ⟨by omega, by rw [Nat.add_mul, Nat.one_mul] at hle; omega⟩]

theorem divideBytes_spec (hd : d.Counts n) (hn : 0 < n) (hb : ∀ e ∈ bytes, e < 256) :
    ∃ q r, divideBytes d bytes = some (q, r) ∧ (∀ e ∈ q, e < 256) ∧ ofDigits 256 q = ofDigits 256 bytes / n ∧
      Exact r ((ofDigits 256 bytes % n : Nat) : Int) := by
  induction bytes with
  | nil =>
    refine ⟨[], small 0, rfl, fun e he => (by cases he), ?_, ?_⟩
    · rw [Nat.ofDigits_nil, Nat.zero_div]
    · rw [Nat.ofDigits_nil, Nat.zero_mod]
      exact exact_small_nat (by decide)
  | cons byte bytes ih =>
    obtain ⟨q, r, hrun, hq, hvalue, hr⟩ := ih fun e he => hb e (mem_cons_of_mem _ he)
    have hbyte := hb byte mem_cons_self
    have hlt := Nat.mod_lt (ofDigits 256 bytes) hn
    obtain ⟨shifted, hshift, hse⟩ := hr.counts.times (counts_small (n := 256) (by decide))
    have hpart := hse.counts.plus (counts_small (n := byte) (by omega))
    rw [Nat.mul_comm (ofDigits 256 bytes % n) 256, Nat.add_comm] at hpart
    have hdigit := digit_lt hbyte hlt
    have hsearch := @searchDigit_spec d _ _ n hd hpart.counts hn 256 0 256 0 (by decide) (by omega) (.inr ⟨rfl, rfl⟩)
      ((Nat.div_lt_iff_lt_mul hn).mp hdigit) le_rfl
    obtain ⟨p, hp, hpe⟩ := (counts_small (n := (byte + 256 * (ofDigits 256 bytes % n)) / n) (by omega)).times hd
    have hsplit := div_digit hn byte 256 (ofDigits 256 bytes)
    have hrest : byte + 256 * (ofDigits 256 bytes % n) - (byte + 256 * (ofDigits 256 bytes % n)) / n * n =
        ofDigits 256 (byte :: bytes) % n := by
      rw [Nat.ofDigits_cons]
      exact Nat.mod_eq_sub_div_mul.symm.trans hsplit.2.symm
    -- A small product of the digit leaves less than the divisor: the minuend is small as well.
    have hnear : 0 < (byte + 256 * (ofDigits 256 bytes % n)) / n * n →
        (byte + 256 * (ofDigits 256 bytes % n)) / n * n ≤ 2 ^ 56 → byte + 256 * (ofDigits 256 bytes % n) < 2 ^ 61 := by
      intro hpos hsmall
      have hmod := Nat.div_add_mod' (byte + 256 * (ofDigits 256 bytes % n)) n
      have hless := Nat.mod_lt (byte + 256 * (ofDigits 256 bytes % n)) hn
      have hge : n ≤ (byte + 256 * (ofDigits 256 bytes % n)) / n * n :=
        Nat.le_mul_of_pos_left n (Nat.pos_of_mul_pos_right hpos)
      omega
    have hminus := hpart.minus hpe (Nat.div_mul_le_self _ _) hnear
    rw [hrest] at hminus
    refine ⟨(byte + 256 * (ofDigits 256 bytes % n)) / n :: q, _, ?_, ?_, ?_, hminus⟩
    · unfold divideBytes
      have hsearch : searchDigit d (shifted.plus (small byte)) 257 0 255 0 =
          some (((byte + 256 * (ofDigits 256 bytes % n)) / n : Nat) : Int) := hsearch
      have hshift : r.times (small 256) = some shifted := hshift
      simp only [hrun, hshift, hsearch, hp, bind_eq_bind, bind_some, Int.toNat_natCast]
      rfl
    · intro e he
      rcases mem_cons.mp he with rfl | he
      · exact hdigit
      · exact hq e he
    · rw [Nat.ofDigits_cons, Nat.ofDigits_cons, hvalue]
      exact hsplit.1.symm

theorem normalize_exact (hb : ∀ e ∈ bytes, e < 256) : Exact (normalize ⟨false, bytes⟩) (ofDigits 256 bytes : Nat) :=
  (normalize_normal (l := ⟨false, bytes⟩) hb).exact_iff.mpr (Counts.ne_min _)

variable {l : LargeInteger}

theorem divideMagnitudeBy_spec (hl : ∀ e ∈ l.bytes, e < 256) (hd : d.Counts n) (hn : 0 < n) :
    ∃ q r, l.divideMagnitudeBy d = some (q, r) ∧ Exact q ((l.magnitude / n : Nat) : Int) ∧
      Exact r ((l.magnitude % n : Nat) : Int) := by
  have hzero : d.isZero = false := by
    rw [hd.isZero]
    exact decide_eq_false (by omega)
  have hlong : ∃ q r, l.longDivision d = some (q, r) ∧ Exact q ((l.magnitude / n : Nat) : Int) ∧
      Exact r ((l.magnitude % n : Nat) : Int) := by
    obtain ⟨q, r, hrun, hq, hvalue, hr⟩ := divideBytes_spec hd hn hl
    refine ⟨normalize ⟨false, q⟩, r, ?_, ?_, hr⟩
    · unfold longDivision
      rw [hrun]
      rfl
    · have := normalize_exact hq
      rw [hvalue] at this
      exact this
  unfold divideMagnitudeBy
  rw [hzero, if_neg Bool.false_ne_true]
  cases hcase : d with
  | large m =>
    rw [hcase] at hlong
    exact hlong
  | small v =>
    have hv : v = n := by
      have := hd.value
      rw [hcase] at this
      exact this
    subst hv
    rw [hcase] at hd hlong
    obtain ⟨p, hp, hpe⟩ := hd.times (counts_small (n := 256) (by decide))
    have hp : (small (n : Int)).times (small 256) = some p := hp
    simp only [hp, bind_eq_bind, bind_some]
    cases p with
    | large _ => exact hlong
    | small w =>
      have hlt : n < 2 ^ 61 := by
        have := fits_iff.mp hd.valid
        omega
      refine ⟨normalize ⟨false, (divModBytes n l.bytes).1⟩, small (divModBytes n l.bytes).2, rfl, ?_, ?_⟩
      · have := normalize_exact (divModBytes_lt hn hl)
        rw [(divModBytes_eq hn l.bytes).2] at this
        exact this
      · rw [(divModBytes_eq hn l.bytes).1]
        have := mod_lt (ofDigits 256 l.bytes) hn
        exact exact_small_nat (by omega)

theorem flooredDivMod_counts {b : IntegerOop} (hl : (large l).Counts m) (hb : b.Counts n) (hn : 0 < n) :
    ∃ q r, l.flooredDivMod b = some (q, r) ∧ Exact q ((m / n : Nat) : Int) ∧ Exact r ((m % n : Nat) : Int) := by
  have hzero : b.isZero = false := by
    rw [hb.isZero]
    exact decide_eq_false (by omega)
  have hok : l.Ok := hl.valid
  obtain ⟨q, r, hrun, hq, hr⟩ := divideMagnitudeBy_spec hok.trimmed.1 hb hn
  have hm : l.magnitude = m := by
    have hvalue : l.toInt = m := hl.value
    rw [← toInt_natAbs, hvalue]
    rfl
  rw [hm] at hq hr
  unfold flooredDivMod
  rw [hzero, if_neg Bool.false_ne_true, hl.abs, hb.abs, hl.negative, hb.negative]
  simp only [hrun, bind_eq_bind, bind_some]
  by_cases hrest : r.isZero = true
  · rw [if_pos hrest, if_pos trivial]
    refine ⟨q, small 0, rfl, hq, ?_⟩
    rw [hr.counts.isZero, decide_eq_true_iff] at hrest
    rw [hrest]
    exact exact_small_nat (by decide)
  · rw [if_neg hrest, if_pos trivial, if_neg Bool.false_ne_true]
    exact ⟨q, r, rfl, hq, hr⟩

end LargeInteger

namespace IntegerOop

open SmallInteger LargeInteger

variable {a b : IntegerOop} {m n : Nat}

theorem floorDiv_large (l : LargeInteger) (b : IntegerOop) :
    (large l).floorDiv b = (l.flooredDivMod b).map Prod.fst := by
  cases b with
  | small _ => rfl
  | large _ => rfl

theorem floorMod_large (l : LargeInteger) (b : IntegerOop) :
    (large l).floorMod b = (l.flooredDivMod b).map Prod.snd := by
  cases b with
  | small _ => rfl
  | large _ => rfl

theorem floorDiv_small (a b : Int) : (small a).floorDiv (small b) =
    if b = 0 then none else if fits (a.fdiv b) then some (small (a.fdiv b)) else none := rfl

theorem floorMod_small (a b : Int) : (small a).floorMod (small b) =
    if b = 0 then none else if fits (a.fmod b) then some (small (a.fmod b)) else none := rfl

theorem Counts.floored (ha : a.Counts m) (hb : b.Counts n) (hn : 0 < n) (hrep : a.isLarge = true ∨ b.isLarge = false) :
    ∃ q r, a.floorDiv b = some q ∧ a.floorMod b = some r ∧ Exact q ((m / n : Nat) : Int) ∧
      Exact r ((m % n : Nat) : Int) := by
  cases a with
  | large l =>
    obtain ⟨q, r, hrun, hq, hr⟩ := flooredDivMod_counts ha hb hn
    exact ⟨q, r, by rw [floorDiv_large, hrun]; rfl, by rw [floorMod_large, hrun]; rfl, hq, hr⟩
  | small x =>
    cases b with
    | large y =>
      rcases hrep with h | h
      · cases h
      · cases h
    | small y =>
      have hx : x = m := ha.value
      have hy : y = n := hb.value
      subst hx hy
      have hm := fits_iff.mp ha.valid
      have hd := div_le_self m n
      have hmod := mod_le m n
      have hfitd : fits (((m / n : Nat) : Int)) = true := (counts_small (by omega)).valid
      have hfitm : fits (((m % n : Nat) : Int)) = true := (counts_small (by omega)).valid
      refine ⟨small (m / n : Nat), small (m % n : Nat), ?_, ?_, exact_small hfitd, exact_small hfitm⟩
      · rw [floorDiv_small, if_neg (by omega), ← ofNat_fdiv, if_pos hfitd]
      · rw [floorMod_small, if_neg (by omega), ← ofNat_fmod, if_pos hfitm]

theorem next_guess {n g : Nat} (hg : 0 < g) :
    n < ((g + n / g) / 2 + 1) * ((g + n / g) / 2 + 1) ∧ (g ≤ (g + n / g) / 2 → g * g ≤ n) := by
  constructor
  · have hlt := lt_mul_div_succ n hg
    generalize n / g = q at hlt ⊢
    obtain ⟨k, hk⟩ : ∃ k, (g + q) / 2 + 1 = k := ⟨_, rfl⟩
    rw [hk]
    have hdouble : g + (q + 1) ≤ 2 * k := by omega
    have hmean : 4 * (g * (q + 1)) ≤ (g + (q + 1)) * (g + (q + 1)) := by
      zify
      nlinarith [sq_nonneg ((g : Int) - (q + 1))]
    have hsquare := mul_le_mul hdouble hdouble
    have hexpand : 2 * k * (2 * k) = 4 * (k * k) := by ring
    omega
  · intro hle
    have hq : g ≤ n / g := by omega
    exact (le_div_iff_mul_le hg).mp hq

theorem sqrtLoop_spec {n : IntegerOop} {v : Nat} (hn : n.Counts v) (htwo : 2 ≤ v) {fuel g : Nat}
    {guess next : IntegerOop} (hguess : guess.Counts g) (hg : 0 < g) (hle : g ≤ v)
    (hnext : Exact next (((g + v / g) / 2 : Nat) : Int)) (habove : v < (g + 1) * (g + 1)) (hfuel : g < fuel) :
    ∃ r w, n.sqrtLoop fuel guess next = some r ∧ r.Counts w ∧ w * w ≤ v ∧ v < (w + 1) * (w + 1) := by
  induction fuel generalizing g guess next with
  | zero => omega
  | succ fuel ih =>
    obtain ⟨hroot, hdone⟩ := next_guess (n := v) hg
    unfold sqrtLoop
    rw [hnext.counts.less hguess]
    by_cases hlt : (g + v / g) / 2 < g
    · rw [decide_eq_true hlt, if_pos rfl]
      have hpos : 0 < (g + v / g) / 2 := by
        by_contra hzero
        rw [Nat.eq_zero_of_not_pos hzero] at hroot
        omega
      -- The quotient by a LargeInteger is taken of a LargeInteger only.
      have hrep : n.isLarge = true ∨ next.isLarge = false := by
        cases hlarge : n.isLarge with
        | true => exact .inl rfl
        | false =>
          right
          cases n with
          | large l => cases hlarge
          | small x =>
            have hx : x = v := hn.value
            have := fits_iff.mp hn.valid
            rw [hnext.eq_small (by omega)]
            rfl
      obtain ⟨q, -, hq, -, hqe, -⟩ := hn.floored hnext.counts hpos hrep
      have hsum := hnext.counts.plus hqe.counts
      obtain ⟨h, -, hh, -, hhe, -⟩ := hsum.counts.floored (counts_small (n := 2) (by decide)) (by decide) (.inr rfl)
      have hh : (next.plus q).floorDiv (small 2) = some h := hh
      simp only [hq, hh, bind_eq_bind, bind_some]
      exact ih hnext.counts hpos (by omega) hhe hroot (by omega)
    · rw [decide_eq_false hlt, if_neg Bool.false_ne_true]
      exact ⟨guess, g, rfl, hguess, hdone (by omega), habove⟩

/-- `sqrtFloor` ends with the root, for every integer that is not negative. -/
theorem sqrtFloor_exact {n : IntegerOop} (hn : n.Valid) (hpos : 0 ≤ n.toInt) :
    ∃ r, n.sqrtFloor = some r ∧ r.Valid ∧ 0 ≤ r.toInt ∧ r.toInt * r.toInt ≤ n.toInt ∧
      n.toInt < (r.toInt + 1) * (r.toInt + 1) := by
  obtain ⟨v, hv⟩ := eq_ofNat_of_zero_le hpos
  have hc : n.Counts v := ⟨hn, hv⟩
  have hneg : n.less (small 0) = false := hc.negative
  have hless := hc.less (counts_small (n := 2) (by decide))
  have hless : n.less (small 2) = decide (v < 2) := hless
  have hroot : ∃ r w, n.sqrtFloor = some r ∧ r.Counts w ∧ w * w ≤ v ∧ v < (w + 1) * (w + 1) := by
    unfold sqrtFloor
    rw [hneg, if_neg Bool.false_ne_true, hless]
    by_cases htwo : v < 2
    · rw [decide_eq_true htwo, if_pos rfl]
      have hcase : v = 0 ∨ v = 1 := by omega
      refine ⟨n, v, rfl, hc, ?_, ?_⟩
      all_goals rcases hcase with rfl | rfl
      all_goals decide
    · rw [decide_eq_false htwo, if_neg Bool.false_ne_true]
      have hrep : n.isLarge = true ∨ n.isLarge = false := by
        cases n.isLarge with
        | true => exact .inl rfl
        | false => exact .inr rfl
      obtain ⟨q, -, hq, -, hqe, -⟩ := hc.floored hc (by omega) hrep
      have hsum := hc.plus hqe.counts
      obtain ⟨h, -, hh, -, hhe, -⟩ := hsum.counts.floored (counts_small (n := 2) (by decide)) (by decide) (.inr rfl)
      have hh : (n.plus q).floorDiv (small 2) = some h := hh
      simp only [hq, hh, bind_eq_bind, bind_some]
      refine sqrtLoop_spec hc (by omega) hc (by omega) le_rfl hhe ?_ ?_
      · nlinarith
      · rw [hv]
        show v < v + 1
        omega
  obtain ⟨r, w, hr, hw, hlow, hhigh⟩ := hroot
  refine ⟨r, hr, hw.valid, ?_, ?_, ?_⟩
  · rw [hw.value]
    exact natCast_nonneg w
  · rw [hw.value, hv]
    exact_mod_cast hlow
  · rw [hw.value, hv]
    exact_mod_cast hhigh

theorem sqrtFloor_exact_beyond_word : ∃ r, (large ⟨false, [0, 0, 0, 0, 0, 0, 0, 0, 1]⟩).sqrtFloor = some r ∧
      r.toInt * r.toInt ≤ 18446744073709551616 ∧ 18446744073709551616 < (r.toInt + 1) * (r.toInt + 1) := by
  have hvalue : (large ⟨false, [0, 0, 0, 0, 0, 0, 0, 0, 1]⟩).toInt = 18446744073709551616 := by decide
  obtain ⟨r, hr, -, -, hlow, hhigh⟩ := sqrtFloor_exact (n := large ⟨false, [0, 0, 0, 0, 0, 0, 0, 0, 1]⟩)
    ⟨⟨by decide, by decide, fun h => absurd h (by decide)⟩, fun _ => rfl⟩ (by decide)
  rw [hvalue] at hlow hhigh
  exact ⟨r, hr, hlow, hhigh⟩

end IntegerOop

end WinArmVm
