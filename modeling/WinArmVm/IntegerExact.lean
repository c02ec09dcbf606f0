import WinArmVm.LargeIntegerSpec

namespace WinArmVm

open Nat List DigitArithmetic

namespace LargeInteger

theorem peelPositive_eq {fuel v : Nat} (h : v ≤ fuel) : peelPositive fuel v = Nat.digits 256 v := by
  induction fuel generalizing v with
  | zero =>
    have hv : v = 0 := by omega
    rw [hv]
    simp [peelPositive]
  | succ fuel ih =>
    unfold peelPositive
    by_cases hv : v = 0
    · rw [if_pos hv, hv]
      simp
    · rw [if_neg hv, digits_def' (n := v) (by decide) (by omega), ih (by omega)]

theorem trimmed_of_le {x : List Nat} (hx : ∀ d ∈ x, d < 256) (hne : x ≠ [])
    (hle : 256 ^ (x.length - 1) ≤ ofDigits 256 x) : Trimmed 256 x := by
  refine ⟨hx, hne, fun hlast => ?_⟩
  obtain ⟨l, d, rfl⟩ : ∃ l d, x = l ++ [d] := ⟨_, _, (dropLast_append_getLast hne).symm⟩
  rw [getLast?_concat] at hlast
  rw [Option.some.inj hlast, Nat.ofDigits_append, Nat.ofDigits_singleton, Nat.mul_zero, Nat.add_zero,
    length_append, length_singleton, Nat.add_sub_cancel] at hle
  have := ofDigits_lt (b := 256) (by decide) fun e he => hx e (mem_append.mpr (.inl he))
  omega

variable {n : Int} {ds : List Nat}

theorem fromSmallInteger_nonneg (hn : 0 ≤ n) : (fromSmallInteger n).Ok ∧ (fromSmallInteger n).toInt = n := by
  have hbytes : fromSmallInteger n = ⟨false, if n = 0 then [0] else Nat.digits 256 n.toNat⟩ := by
    unfold fromSmallInteger
    rw [if_pos hn, peelPositive_eq (le_refl _)]
    have hnil : Nat.digits 256 n.toNat = [] ↔ n = 0 := by
      rw [digits_eq_nil_iff_eq_zero]
      omega
    simp only [hnil]
  rw [hbytes]
  by_cases hz : n = 0
  · rw [if_pos hz, hz]
    exact ⟨⟨⟨by decide, by decide, fun _ => rfl⟩, fun _ => rfl⟩, rfl⟩
  · rw [if_neg hz]
    have hpos : n.toNat ≠ 0 := by omega
    refine ⟨⟨⟨fun d hd => digits_lt_base (by decide) hd, ?_, fun hlast => ?_⟩, fun _ => rfl⟩, ?_⟩
    · exact (digits_ne_nil_iff_ne_zero (b := 256)).mpr hpos
    · have hne := (digits_ne_nil_iff_ne_zero (b := 256)).mpr hpos
      rw [getLast?_eq_getLast_of_ne_nil hne] at hlast
      exact absurd (Option.some.inj hlast) (getLast_digit_ne_zero 256 hpos)
    · unfold toInt magnitude
      dsimp only
      rw [if_neg (by decide), ofDigits_digits]
      omega

theorem peelNegative_spec {fuel : Nat} (hn : n < 0) (hfuel : n.natAbs ≤ fuel) :
    n.natAbs + ofDigits 256 (peelNegative fuel n) = 256 ^ (peelNegative fuel n).length ∧
      (∀ d ∈ peelNegative fuel n, d < 256) ∧ 0 < (peelNegative fuel n).length ∧
      ((peelNegative fuel n).length = 1 ∨
        256 ^ ((peelNegative fuel n).length - 1) < n.natAbs) := by
  induction fuel generalizing n with
  | zero => omega
  | succ fuel ih =>
    have hd : n - n / 256 * 256 = n % 256 := by omega
    have hmod : (n % 256).toNat < 256 := by omega
    unfold peelNegative
    dsimp only
    rw [hd]
    by_cases hq : n / 256 = -1
    · rw [if_pos hq]
      refine ⟨?_, fun d hd => ?_, Nat.one_pos, .inl rfl⟩
      · rw [Nat.ofDigits_singleton, length_singleton, Nat.pow_one]
        omega
      · rw [mem_singleton] at hd
        omega
    · rw [if_neg hq]
      obtain ⟨hval, hlt, hlen, htop⟩ := ih (n := n / 256) (by omega) (by omega)
      generalize peelNegative fuel (n / 256) = ds at hval hlt hlen htop ⊢
      refine ⟨?_, fun d hd => ?_, Nat.succ_pos _, .inr ?_⟩
      · rw [length_cons, Nat.ofDigits_cons, Nat.pow_succ]
        omega
      · rcases mem_cons.mp hd with rfl | hd
        · exact hmod
        · exact hlt d hd
      · rw [length_cons, Nat.add_sub_cancel]
        rcases htop with h1 | htop
        · rw [h1]
          omega
        · obtain ⟨k, hk⟩ : ∃ k, ds.length = k + 1 := ⟨ds.length - 1, by omega⟩
          rw [hk, Nat.add_sub_cancel] at htop
          rw [hk, Nat.pow_succ]
          omega

theorem invertAddOne_lt (ds : List Nat) (carry : Nat) : ∀ d ∈ invertAddOne ds carry, d < 256 := by
  induction ds generalizing carry with
  | nil =>
    intro d hd
    cases hd
  | cons e ds ih =>
    intro d hd
    unfold invertAddOne at hd
    rcases mem_cons.mp hd with rfl | hd
    · exact mod_lt _ (by decide)
    · exact ih _ d hd

theorem length_invertAddOne (ds : List Nat) (carry : Nat) : (invertAddOne ds carry).length = ds.length := by
  induction ds generalizing carry with
  | nil => rfl
  | cons e ds ih =>
    unfold invertAddOne
    rw [length_cons, length_cons, ih]

theorem invertAddOne_spec (hds : ∀ d ∈ ds, d < 256) {carry : Nat} (hc : carry ≤ 1) :
    ∃ out, out ≤ 1 ∧ ofDigits 256 (invertAddOne ds carry) + ofDigits 256 ds + out * 256 ^ ds.length + 1 =
      256 ^ ds.length + carry := by
  induction ds generalizing carry with
  | nil =>
    refine ⟨carry, hc, ?_⟩
    simp [invertAddOne]
    omega
  | cons d ds ih =>
    have hd := hds d mem_cons_self
    have hdiv := div_add_mod (255 - d + carry) 256
    obtain ⟨out, hout, he⟩ := ih (fun e he => hds e (mem_cons_of_mem d he)) (show (255 - d + carry) / 256 ≤ 1 by omega)
    refine ⟨out, hout, ?_⟩
    have hpow : out * 256 ^ (ds.length + 1) = 256 * (out * 256 ^ ds.length) := by ring
    unfold invertAddOne
    rw [ofDigits_cons, ofDigits_cons, length_cons, hpow, pow_succ]
    omega

def CarryLost (n : Int) : Prop := ∃ k : Nat, 1 ≤ k ∧ n = -((256 ^ k : Nat) : Int)

theorem ofDigits_eq_zero (h : ofDigits 256 ds = 0) : ds = List.replicate ds.length 0 := by
  induction ds with
  | nil => rfl
  | cons d ds ih =>
    rw [ofDigits_cons] at h
    rw [length_cons, replicate_succ, ← ih (by omega)]
    congr 1
    omega

theorem fromSmallInteger_neg (hn : n < 0) : (¬ CarryLost n → (fromSmallInteger n).Ok ∧ (fromSmallInteger n).toInt = n) ∧
      ∀ k : Nat, 1 ≤ k → n = -((256 ^ k : Nat) : Int) → fromSmallInteger n = ⟨true, List.replicate k 0⟩ := by
  obtain ⟨hval, hlt, hlen, htop⟩ := peelNegative_spec hn (Nat.le_refl _)
  have hdef : fromSmallInteger n = ⟨true, invertAddOne (peelNegative n.natAbs n) 1⟩ := by
    unfold fromSmallInteger
    rw [if_neg (by omega)]
  rw [hdef]
  generalize peelNegative n.natAbs n = ds at hval hlt hlen htop ⊢
  obtain ⟨out, hout, he⟩ := invertAddOne_spec hlt (show 1 ≤ 1 by decide)
  have hlow := ofDigits_lt (by decide) (invertAddOne_lt ds 1)
  rw [length_invertAddOne] at hlow
  refine ⟨fun hkeep => ?_, fun k hk hpowk => ?_⟩
  · have hpos : 0 < ofDigits 256 ds := by
      by_contra hzero
      exact hkeep ⟨ds.length, hlen, by omega⟩
    have hout0 : out = 0 := by
      rcases Nat.le_one_iff_eq_zero_or_eq_one.mp hout with h | h
      · exact h
      · rw [h, Nat.one_mul] at he
        omega
    rw [hout0, Nat.zero_mul] at he
    have hmag : (ofDigits 256 (invertAddOne ds 1) : Nat) = n.natAbs := by omega
    have hne : invertAddOne ds 1 ≠ [] := by
      intro hnil
      have := length_invertAddOne ds 1
      rw [hnil, length_nil] at this
      omega
    refine ⟨⟨trimmed_of_le (invertAddOne_lt ds 1) hne ?_, fun hz => ?_⟩, ?_⟩
    · rw [length_invertAddOne, hmag]
      rcases htop with h1 | htop
      · rw [h1, Nat.sub_self, Nat.pow_zero]
        omega
      · omega
    · unfold magnitude at hz
      dsimp only at hz
      omega
    · unfold toInt magnitude
      rw [if_pos rfl, hmag]
      omega
  · have hlenk : ds.length = k := by
      have h₁ : 256 ^ k ≤ 256 ^ ds.length := by omega
      have hle := (Nat.pow_le_pow_iff_right (a := 256) (by decide)).mp h₁
      rcases htop with h1 | htop
      · omega
      · have h₂ : 256 ^ (ds.length - 1) < 256 ^ k := by omega
        have hlt' := (Nat.pow_lt_pow_iff_right (a := 256) (by decide)).mp h₂
        omega
    have hzero : ofDigits 256 ds = 0 := by
      rw [hlenk] at hval
      omega
    have hout1 : ofDigits 256 (invertAddOne ds 1) = 0 := by
      rw [hzero] at he
      rcases Nat.le_one_iff_eq_zero_or_eq_one.mp hout with h | h
      · rw [h, Nat.zero_mul] at he
        omega
      · rw [h, Nat.one_mul] at he
        omega
    have := ofDigits_eq_zero hout1
    rw [length_invertAddOne, hlenk] at this
    rw [this]

theorem plus_lost {l : LargeInteger} (hl : l.Ok) {k : Nat} (hk : 1 ≤ k) :
    IntegerOop.Normal (l.plus (.small (-((256 ^ k : Nat) : Int))))
      (if 0 < l.toInt ∧ 256 * l.toInt < (256 ^ k : Nat) then l.toInt - (256 ^ k : Nat) else l.toInt) := by
  have hpow : 0 < 256 ^ k := Nat.pow_pos (by decide)
  have hb : (IntegerOop.small (-((256 ^ k : Nat) : Int))).asLargeInteger = ⟨true, List.replicate k 0⟩ :=
    (fromSmallInteger_neg (by omega)).2 k hk rfl
  have hzeros : ∀ d ∈ List.replicate k 0, d < 256 := by
    intro d hd
    rw [eq_of_mem_replicate hd]
    decide
  have hmag : (⟨true, List.replicate k 0⟩ : LargeInteger).magnitude = 0 := Nat.ofDigits_replicate_zero
  have hlt := hl.trimmed.1
  have hsize := ofDigits_lt (b := 256) (by decide) hlt
  have hvalue : l.magnitude = ofDigits 256 l.bytes := rfl
  unfold plus
  rw [hb]
  cases hn : l.neg with
  | true =>
    have hval := toInt_neg hn
    rw [if_pos rfl, if_neg (by omega)]
    apply withSign_normal (addCarry_lt (by decide) _ _ _ _) (addMagnitude_eq l ⟨true, List.replicate k 0⟩ hlt hzeros)
    rw [hmag, hval, if_pos rfl, Nat.add_zero]
  | false =>
    have hval := toInt_pos hn
    rw [if_neg Bool.false_ne_true]
    by_cases hshort : l.bytes.length < k
    · have hcmp : l.compareMagnitude ⟨true, List.replicate k 0⟩ = -1 := by
        unfold compareMagnitude compareDigits
        rw [length_replicate, if_neg (by omega), if_pos hshort]
      rw [hcmp, if_neg (by decide)]
      obtain ⟨out, hout, he⟩ := ofDigits_subBorrow (b := 256) (x := List.replicate k 0)
        (by decide) hlt (by rw [length_replicate]; omega) (show 0 ≤ 1 by decide)
      have hdiff := subBorrow_lt hzeros hlt (show 0 ≤ 1 by decide)
      have hdlt := ofDigits_lt (b := 256) (by decide) hdiff
      rw [length_subBorrow, length_replicate] at hdlt
      rw [Nat.ofDigits_replicate_zero, length_replicate] at he
      have hup := Nat.pow_le_pow_right (n := 256) (by decide) (show l.bytes.length + 1 ≤ k by omega)
      rw [Nat.pow_succ] at hup
      by_cases hzero : l.magnitude = 0
      · have hout0 : out = 0 := by
          rcases Nat.le_one_iff_eq_zero_or_eq_one.mp hout with h | h
          · exact h
          · rw [h, Nat.one_mul] at he
            omega
        rw [hout0, Nat.zero_mul] at he
        rw [if_neg (by omega)]
        exact withSign_normal hdiff (show _ = 0 by omega) (by rw [hval, hzero]; rfl)
      · have hout1 : out = 1 := by
          rcases Nat.le_one_iff_eq_zero_or_eq_one.mp hout with h | h
          · rw [h, Nat.zero_mul] at he
            omega
          · exact h
        rw [hout1, Nat.one_mul] at he
        rw [if_pos (by omega)]
        exact withSign_normal hdiff (n := 256 ^ k - l.magnitude) (by omega) (by rw [hval, if_pos rfl]; omega)
    · have hcmp : 0 ≤ l.compareMagnitude ⟨true, List.replicate k 0⟩ := by
        have hfrom : ∀ n, 0 ≤ compareFrom l.bytes (List.replicate k 0) n := by
          intro n
          induction n with
          | zero => exact Int.le_refl 0
          | succ n ih =>
            have hz : (List.replicate k 0).getD n 0 = 0 := by
              rw [getD_eq_getElem?_getD, getElem?_replicate]
              split
              all_goals rfl
            unfold compareFrom
            rw [hz]
            split
            next => decide
            next => exact ih
        unfold compareMagnitude compareDigits
        rw [length_replicate]
        split
        next => decide
        next => exact hfrom _
      have hbig : ¬ (0 < l.toInt ∧ 256 * l.toInt < (256 ^ k : Nat)) := by
        intro h
        obtain ⟨hpos, hlow⟩ := h
        have hle := hl.trimmed.le (show 0 < ofDigits 256 l.bytes by omega)
        have hup := Nat.pow_le_pow_right (n := 256) (by decide) (show k - 1 ≤ l.bytes.length - 1 by omega)
        obtain ⟨j, rfl⟩ : ∃ j, k = j + 1 := ⟨k - 1, by omega⟩
        rw [Nat.add_sub_cancel] at hup
        rw [Nat.pow_succ] at hlow
        push_cast at hlow
        have hcast : ((256 ^ j : Nat) : Int) = 256 ^ j := by push_cast; rfl
        omega
      rw [if_pos hcmp, if_neg hbig]
      have hsub := subMagnitude_eq l ⟨true, List.replicate k 0⟩ hlt hzeros
        (by dsimp only; rw [length_replicate]; omega) (by omega)
      exact withSign_normal (subBorrow_lt hlt hzeros (by decide)) hsub (by rw [hmag, hval]; rfl)

end LargeInteger

namespace IntegerOop

open SmallInteger LargeInteger

variable {a b r : IntegerOop} {z : Int}

def Valid : IntegerOop → Prop
  | small v => fits v = true
  | large l => l.Ok

def isLarge : IntegerOop → Bool
  | small _ => false
  | large _ => true

def Exact (r : IntegerOop) (z : Int) : Prop :=
  if fits z then r = small z else ∃ l : LargeInteger, r = large l ∧ l.Ok ∧ l.toInt = z

theorem fits_iff {v : Int} : fits v = true ↔ -2 ^ 61 ≤ v ∧ v < 2 ^ 61 := by
  unfold fits minVal maxVal
  rw [Bool.and_eq_true, decide_eq_true_eq, decide_eq_true_eq]
  omega

theorem Exact.toInt (h : Exact r z) : r.toInt = z := by
  unfold Exact at h
  split at h
  next =>
    rw [h]
    rfl
  next =>
    obtain ⟨l, rfl, _, hl⟩ := h
    exact hl

theorem Normal.toInt (h : Normal r z) : r.toInt = z := by
  rcases h with ⟨_, rfl⟩ | ⟨_, l, rfl, _, hl⟩
  · rfl
  · exact hl

theorem Normal.exact_iff (h : Normal r z) : Exact r z ↔ z ≠ minVal := by
  have hmin : minVal = -2 ^ 61 := by decide
  unfold Exact
  rcases h with ⟨hlow, rfl⟩ | ⟨hhigh, l, rfl, hok, hl⟩
  · rw [if_pos (fits_iff.mpr (by omega))]
    exact ⟨fun _ => by omega, fun _ => rfl⟩
  · by_cases hz : z = minVal
    · rw [if_pos (fits_iff.mpr (by omega))]
      exact ⟨fun he => (by cases he), fun hne => absurd hz hne⟩
    · rw [if_neg (fun hf => by have := fits_iff.mp hf; omega)]
      exact ⟨fun _ => hz, fun _ => ⟨l, rfl, hok, hl⟩⟩

theorem exact_small (h : fits z = true) : Exact (small z) z := by
  unfold Exact
  rw [if_pos h]

def Lost : IntegerOop → Prop
  | small v => CarryLost v
  | large _ => False

theorem asLargeInteger_ok (ha : a.Valid) (hkeep : ¬ a.Lost) :
    a.asLargeInteger.Ok ∧ a.asLargeInteger.toInt = a.toInt := by
  cases a with
  | small v =>
    by_cases hv : 0 ≤ v
    · exact fromSmallInteger_nonneg hv
    · exact (fromSmallInteger_neg (by omega)).1 hkeep
  | large l => exact ⟨ha, rfl⟩

/-- Every operation on `a` and `b` answers exactly. -/
structure ExactAt (a b : IntegerOop) : Prop where
  plus : Exact (a.plus b) (a.toInt + b.toInt)
  minus : Exact (a.minus b) (a.toInt - b.toInt)
  times : ∃ r, a.times b = some r ∧ Exact r (a.toInt * b.toInt)
  negated : Exact a.negated (-a.toInt) ∧ Exact b.negated (-b.toInt)
  asLargeInteger : (a.asLargeInteger.Ok ∧ a.asLargeInteger.toInt = a.toInt) ∧
    b.asLargeInteger.Ok ∧ b.asLargeInteger.toInt = b.toInt
  less : a.less b = decide (a.toInt < b.toInt)
  lessEq : a.lessEq b = decide (a.toInt ≤ b.toInt)
  greater : a.greater b = decide (b.toInt < a.toInt)
  greaterEq : a.greaterEq b = decide (b.toInt ≤ a.toInt)
  equal : a.equal b = decide (a.toInt = b.toInt)

/-- A subtrahend that loses its carry when it is negated; a smaller positive minuend borrows
it back. -/
def SubtrahendLost (a b : IntegerOop) : Prop :=
  fits (-b.toInt) = true ∧ CarryLost (-b.toInt) ∧ ¬ (0 < a.toInt ∧ 256 * a.toInt < b.toInt)

/-- Neither number loses its carry, nor does the subtrahend of a large difference; and no
large answer is `minVal`. -/
structure NoSlip (a b : IntegerOop) : Prop where
  left : ¬ a.Lost
  right : ¬ b.Lost
  plus : (a.isLarge || b.isLarge) = true → a.toInt + b.toInt ≠ minVal
  minus : (a.isLarge || b.isLarge) = true → a.toInt - b.toInt ≠ minVal
  times : (a.isLarge || b.isLarge) = true → a.toInt * b.toInt ≠ minVal
  negated : a.toInt ≠ -minVal ∧ b.toInt ≠ -minVal
  subtrahend : (a.isLarge || b.isLarge || !fits (a.toInt - b.toInt)) = true → ¬ SubtrahendLost a b

theorem plus_path (ha : a.Valid) (hb : b.Valid) (hka : ¬ a.Lost) (hkb : ¬ b.Lost) :
    ((a.isLarge || b.isLarge) = false ∧ Exact (a.plus b) (a.toInt + b.toInt)) ∨ Normal (a.plus b) (a.toInt + b.toInt) ∧
        ((a.isLarge || b.isLarge) = false → fits (a.toInt + b.toInt) = false) := by
  obtain ⟨hao, hav⟩ := asLargeInteger_ok ha hka
  obtain ⟨hbo, hbv⟩ := asLargeInteger_ok hb hkb
  cases a with
  | small x =>
    cases b with
    | small y =>
      by_cases hf : fits (x + y) = true
      · left
        refine ⟨rfl, ?_⟩
        have hrun : (small x).plus (small y) = small (x + y) := if_pos hf
        rw [hrun]
        exact exact_small hf
      · right
        have hrun : (small x).plus (small y) =
            (small x).asLargeInteger.plus (large (small y).asLargeInteger) := if_neg hf
        rw [hrun, ← hav, ← hbv]
        refine ⟨plus_normal hao hbo, fun _ => ?_⟩
        rw [hav, hbv]
        exact Bool.eq_false_iff.mpr hf
    | large y =>
      right
      rw [← hav, ← hbv]
      exact ⟨plus_normal hao hbo, fun h => by cases h⟩
  | large x =>
    right
    rw [← hbv]
    exact ⟨plus_normal hao hbo, fun h => by cases h⟩

theorem exact_iff_of_path {big : Bool} (h : (big = false ∧ Exact r z) ∨ Normal r z ∧ (big = false → fits z = false)) :
    Exact r z ↔ (big = true → z ≠ minVal) := by
  rcases h with ⟨hbig, he⟩ | ⟨hn, hout⟩
  · refine ⟨fun _ hb => ?_, fun _ => he⟩
    rw [hbig] at hb
    cases hb
  · rw [hn.exact_iff]
    refine ⟨fun hz _ => hz, fun hz hmin => ?_⟩
    cases hbig : big with
    | true => exact hz hbig hmin
    | false =>
      have hf := hout hbig
      rw [hmin] at hf
      exact absurd hf (by decide)

theorem times_path (ha : a.Valid) (hb : b.Valid) (hka : ¬ a.Lost) (hkb : ¬ b.Lost) :
    ∃ r, a.times b = some r ∧ (((a.isLarge || b.isLarge) = false ∧ Exact r (a.toInt * b.toInt)) ∨
      Normal r (a.toInt * b.toInt) ∧
        ((a.isLarge || b.isLarge) = false → fits (a.toInt * b.toInt) = false)) := by
  obtain ⟨hao, hav⟩ := asLargeInteger_ok ha hka
  obtain ⟨hbo, hbv⟩ := asLargeInteger_ok hb hkb
  cases a with
  | small x =>
    cases b with
    | small y =>
      by_cases hf : fits (x * y) = true
      · have hrun : (small x).times (small y) = some (small (x * y)) := if_pos hf
        exact ⟨_, hrun, .inl ⟨rfl, exact_small hf⟩⟩
      · have hrun : (small x).times (small y) =
            (small x).asLargeInteger.times (large (small y).asLargeInteger) := if_neg hf
        obtain ⟨r, hr, hn⟩ := @times_normal _ (large (small y).asLargeInteger) hao.trimmed.1 hbo.trimmed
        refine ⟨r, hrun.trans hr, .inr ⟨?_, fun _ => Bool.eq_false_iff.mpr hf⟩⟩
        rw [← hav, ← hbv]
        exact hn
    | large y =>
      obtain ⟨r, hr, hn⟩ := @times_normal _ (large y) hao.trimmed.1 hbo.trimmed
      refine ⟨r, hr, .inr ⟨?_, fun h => by cases h⟩⟩
      rw [← hav]
      exact hn
  | large x =>
    obtain ⟨r, hr, hn⟩ := @times_normal _ b hao.trimmed.1 hbo.trimmed
    refine ⟨r, hr, .inr ⟨?_, fun h => by cases h⟩⟩
    rw [← hbv]
    exact hn

theorem not_carryLost_min : ¬ CarryLost minVal := by
  rintro ⟨k, _, hk⟩
  have hnat : 256 ^ k = 2 ^ 61 := by
    unfold minVal at hk
    omega
  have hbase : 256 ^ k = 2 ^ (8 * k) := by
    rw [Nat.pow_mul]
  rw [hbase] at hnat
  have := Nat.pow_right_injective (Nat.le_refl 2) hnat
  omega

theorem large_minus {l : LargeInteger} (hl : l.Ok) (hb : b.asLargeInteger.Ok) :
    ((fits (-b.asLargeInteger.toInt) = true ∧ CarryLost (-b.asLargeInteger.toInt) ∧
        ¬ (0 < l.toInt ∧ 256 * l.toInt < b.asLargeInteger.toInt)) ∧ Normal (l.minus b) l.toInt) ∨
      (¬ (fits (-b.asLargeInteger.toInt) = true ∧ CarryLost (-b.asLargeInteger.toInt) ∧
        ¬ (0 < l.toInt ∧ 256 * l.toInt < b.asLargeInteger.toInt)) ∧
        Normal (l.minus b) (l.toInt - b.asLargeInteger.toInt)) := by
  have hneg := negated_normal hb.trimmed.1
  unfold LargeInteger.minus
  generalize b.asLargeInteger.toInt = B at hneg ⊢
  rcases hneg with ⟨hlow, hr⟩ | ⟨hhigh, n, hr, hok, hval⟩
  · rw [hr]
    have hf : fits (-B) = true := fits_iff.mpr (by omega)
    by_cases hlost : CarryLost (-B)
    · obtain ⟨k, hk, hpow⟩ := hlost
      have hplus := plus_lost hl hk
      rw [← hpow] at hplus
      have hB : ((256 ^ k : Nat) : Int) = B := by omega
      rw [hB] at hplus
      by_cases hbor : 0 < l.toInt ∧ 256 * l.toInt < B
      · right
        rw [if_pos hbor] at hplus
        exact ⟨fun h => h.2.2 hbor, hplus⟩
      · left
        rw [if_neg hbor] at hplus
        exact ⟨⟨hf, ⟨k, hk, hpow⟩, hbor⟩, hplus⟩
    · right
      obtain ⟨ho, hv⟩ := asLargeInteger_ok (a := small (-B)) hf hlost
      refine ⟨fun h => hlost h.2.1, ?_⟩
      have hplus := plus_normal hl ho
      rw [hv] at hplus
      exact hplus
  · right
    rw [hr]
    refine ⟨fun h => ?_, ?_⟩
    · have hb := fits_iff.mp h.1
      have hmin : -B = minVal := by
        unfold minVal
        omega
      rw [hmin] at h
      exact not_carryLost_min h.2.1
    · have hplus := @plus_normal _ (large n) hl hok
      have hv : (large n).asLargeInteger.toInt = -B := hval
      rw [hv] at hplus
      exact hplus

theorem large_minus_exact_iff (hao : a.asLargeInteger.Ok) (hbo : b.asLargeInteger.Ok)
    (hav : a.asLargeInteger.toInt = a.toInt) (hbv : b.asLargeInteger.toInt = b.toInt) :
    Exact (a.asLargeInteger.minus b) (a.toInt - b.toInt) ↔
      ¬ SubtrahendLost a b ∧ a.toInt - b.toInt ≠ minVal := by
  have hpath := large_minus hao hbo
  rw [hav, hbv] at hpath
  rcases hpath with ⟨hslip, hn⟩ | ⟨hsafe, hn⟩
  · refine ⟨fun he => ?_, fun h => absurd hslip h.1⟩
    have hsame := he.toInt.symm.trans hn.toInt
    obtain ⟨k, _, hpow⟩ := hslip.2.1
    have hpos : 0 < 256 ^ k := Nat.pow_pos (by decide)
    omega
  · rw [hn.exact_iff]
    exact ⟨fun h => ⟨hsafe, h⟩, fun h => h.2⟩

theorem minus_exact_iff (ha : a.Valid) (hb : b.Valid) (hka : ¬ a.Lost) (hkb : ¬ b.Lost) :
    Exact (a.minus b) (a.toInt - b.toInt) ↔
      ((a.isLarge || b.isLarge || !fits (a.toInt - b.toInt)) = true → ¬ SubtrahendLost a b) ∧
        ((a.isLarge || b.isLarge) = true → a.toInt - b.toInt ≠ minVal) := by
  obtain ⟨hao, hav⟩ := asLargeInteger_ok ha hka
  obtain ⟨hbo, hbv⟩ := asLargeInteger_ok hb hkb
  have hlarge := large_minus_exact_iff hao hbo hav hbv
  cases a with
  | small x =>
    cases b with
    | small y =>
      have hx : (small x).toInt = x := rfl
      have hy : (small y).toInt = y := rfl
      rw [hx, hy] at hlarge ⊢
      by_cases hf : fits (x - y) = true
      · have hrun : (small x).minus (small y) = small (x - y) := if_pos hf
        rw [hrun, hf]
        exact ⟨fun _ => ⟨fun h => (by cases h), fun h => (by cases h)⟩, fun _ => exact_small hf⟩
      · have hrun : (small x).minus (small y) =
            (small x).asLargeInteger.minus (large (small y).asLargeInteger) := if_neg hf
        have hsame : (small x).asLargeInteger.minus (large (small y).asLargeInteger) =
            (small x).asLargeInteger.minus (small y) := rfl
        rw [hrun, hsame, hlarge]
        refine ⟨fun h => ⟨fun _ => h.1, fun h => by cases h⟩, fun h => ⟨h.1 ?_, fun hmin => ?_⟩⟩
        · rw [Bool.eq_false_iff.mpr hf]
          rfl
        · rw [hmin] at hf
          exact hf (by decide)
    | large y =>
      have hrun : (small x).minus (large y) = (small x).asLargeInteger.minus (large y) := rfl
      rw [hrun, hlarge]
      exact ⟨fun h => ⟨fun _ => h.1, fun _ => h.2⟩, fun h => ⟨h.1 rfl, h.2 rfl⟩⟩
  | large x =>
    have hrun : (large x).minus b = (large x).asLargeInteger.minus b := rfl
    rw [hrun, hlarge]
    exact ⟨fun h => ⟨fun _ => h.1, fun _ => h.2⟩, fun h => ⟨h.1 rfl, h.2 rfl⟩⟩

theorem not_carryLost_nonneg {n : Int} (h : 0 ≤ n) : ¬ CarryLost n := by
  intro ⟨k, _, hk⟩
  have hpos : 0 < 256 ^ k := Nat.pow_pos (by decide)
  omega

section Compare

variable (hless : a.less b = decide (a.toInt < b.toInt)) (hequal : a.equal b = decide (a.toInt = b.toInt))
  (hback : b.less a = decide (b.toInt < a.toInt))

include hback

theorem greater_of_less : a.greater b = decide (b.toInt < a.toInt) := by
  cases a with
  | small x =>
    cases b with
    | small y => rfl
    | large y => exact hback
  | large x =>
    cases b with
    | small y => exact hback
    | large y => exact hback

include hless hequal

theorem lessEq_of_less : a.lessEq b = decide (a.toInt ≤ b.toInt) := by
  cases a with
  | small x =>
    cases b with
    | small y => rfl
    | large y =>
      have hrun : (small x).lessEq (large y) = ((small x).less (large y) || (small x).equal (large y)) := rfl
      rw [hrun, hless, hequal, ← Bool.decide_or, decide_eq_decide]
      omega
  | large x =>
    have hrun : (large x).lessEq b = !b.less (large x) := rfl
    rw [hrun, hback, ← decide_not, decide_eq_decide]
    omega

theorem greaterEq_of_less : a.greaterEq b = decide (b.toInt ≤ a.toInt) := by
  have hgreater := greater_of_less hback
  cases a with
  | small x =>
    cases b with
    | small y => rfl
    | large y =>
      have hrun : (small x).greaterEq (large y) = ((small x).greater (large y) || (small x).equal (large y)) := rfl
      rw [hrun, hgreater, hequal, ← Bool.decide_or, decide_eq_decide]
      omega
  | large x =>
    have hrun : (large x).greaterEq b = !(large x).less b := rfl
    rw [hrun, hless, ← decide_not, decide_eq_decide]
    omega

end Compare

section

variable (ha : a.Valid)

include ha

theorem negated_exact_iff (hka : ¬ a.Lost) : Exact a.negated (-a.toInt) ↔ a.toInt ≠ -minVal := by
  have hmin : minVal = -2 ^ 61 := by decide
  cases a with
  | small x =>
    have hx : (small x).toInt = x := rfl
    have hfx := fits_iff.mp ha
    have hrun : (small x).negated = (small 0).minus (small x) := rfl
    have hzero : (small 0).toInt - x = -x := by
      show 0 - x = -x
      omega
    have hiff := minus_exact_iff (a := small 0) (b := small x) (show fits 0 = true by decide) ha
      (not_carryLost_nonneg (Int.le_refl 0)) hka
    rw [hx, hzero] at hiff
    rw [hrun, hx, hiff]
    refine ⟨fun _ => by omega, fun _ => ⟨fun hbig hslip => ?_, fun h => by cases h⟩⟩
    have hfits : fits (-x) = true := hslip.1
    rw [hfits] at hbig
    cases hbig
  | large l =>
    have hn : Normal (large l).negated (-(large l).toInt) := by
      rcases negated_normal ha.trimmed.1 with ⟨hlow, hr⟩ | ⟨hhigh, n, hr, hok, hval⟩
      · exact .inl ⟨hlow, hr⟩
      · exact .inr ⟨hhigh, n, hr, hok, hval⟩
    rw [hn.exact_iff]
    omega

theorem asLargeInteger_exact_iff : (a.asLargeInteger.Ok ∧ a.asLargeInteger.toInt = a.toInt) ↔ ¬ a.Lost := by
  refine ⟨fun h hlost => ?_, asLargeInteger_ok ha⟩
  cases a with
  | small v =>
    obtain ⟨k, hk, hv⟩ := hlost
    have hpos : 0 < 256 ^ k := Nat.pow_pos (by decide)
    have hzero : (small v).asLargeInteger = ⟨true, List.replicate k 0⟩ := (fromSmallInteger_neg (by omega)).2 k hk hv
    have hval := h.2
    rw [hzero] at hval
    have hmag : (⟨true, List.replicate k 0⟩ : LargeInteger).magnitude = 0 := Nat.ofDigits_replicate_zero
    have hint : (⟨true, List.replicate k 0⟩ : LargeInteger).toInt = 0 := by
      unfold LargeInteger.toInt
      rw [hmag]
      rfl
    have hself : (small v).toInt = v := rfl
    omega
  | large l => exact hlost

section

variable (hb : b.Valid) (hka : ¬ a.Lost) (hkb : ¬ b.Lost)

include hb hka hkb

theorem less_exact : a.less b = decide (a.toInt < b.toInt) := by
  obtain ⟨hao, hav⟩ := asLargeInteger_ok ha hka
  obtain ⟨hbo, hbv⟩ := asLargeInteger_ok hb hkb
  have hlarge := LargeInteger.less_eq hao hbo
  rw [hav, hbv] at hlarge
  cases a with
  | small x =>
    cases b with
    | small y => rfl
    | large y => exact hlarge
  | large x => exact hlarge

theorem equal_exact : a.equal b = decide (a.toInt = b.toInt) := by
  obtain ⟨hao, hav⟩ := asLargeInteger_ok ha hka
  obtain ⟨hbo, hbv⟩ := asLargeInteger_ok hb hkb
  have hlarge := LargeInteger.equal_eq hao hbo
  rw [hav, hbv] at hlarge
  cases a with
  | small x =>
    cases b with
    | small y => rfl
    | large y => exact hlarge
  | large x => exact hlarge

theorem greater_exact : a.greater b = decide (b.toInt < a.toInt) := greater_of_less (less_exact hb ha hkb hka)

theorem lessEq_exact : a.lessEq b = decide (a.toInt ≤ b.toInt) :=
  lessEq_of_less (less_exact ha hb hka hkb) (equal_exact ha hb hka hkb) (less_exact hb ha hkb hka)

theorem greaterEq_exact : a.greaterEq b = decide (b.toInt ≤ a.toInt) :=
  greaterEq_of_less (less_exact ha hb hka hkb) (equal_exact ha hb hka hkb) (less_exact hb ha hkb hka)

end

end

/-- The arithmetic is exact on two integers just when neither slip is met. -/
theorem exactAt_iff (ha : a.Valid) (hb : b.Valid) : a.ExactAt b ↔ a.NoSlip b := by
  have hcon := asLargeInteger_exact_iff ha
  have hcon' := asLargeInteger_exact_iff hb
  constructor
  · intro h
    have hka := hcon.mp h.asLargeInteger.1
    have hkb := hcon'.mp h.asLargeInteger.2
    have hplus := (exact_iff_of_path (plus_path ha hb hka hkb)).mp h.plus
    have hminus := (minus_exact_iff ha hb hka hkb).mp h.minus
    obtain ⟨r, hr, he⟩ := h.times
    obtain ⟨r', hr', hpath⟩ := times_path ha hb hka hkb
    rw [hr] at hr'
    cases hr'
    have htimes := (exact_iff_of_path hpath).mp he
    have hna := (negated_exact_iff ha hka).mp h.negated.1
    have hnb := (negated_exact_iff hb hkb).mp h.negated.2
    exact ⟨hka, hkb, hplus, hminus.2, htimes, ⟨hna, hnb⟩, hminus.1⟩
  · intro h
    obtain ⟨hka, hkb, hplus, hminus, htimes, hneg, hsub⟩ := h
    obtain ⟨r, hr, hpath⟩ := times_path ha hb hka hkb
    exact {
      plus := (exact_iff_of_path (plus_path ha hb hka hkb)).mpr hplus
      minus := (minus_exact_iff ha hb hka hkb).mpr ⟨hsub, hminus⟩
      times := ⟨r, hr, (exact_iff_of_path hpath).mpr htimes⟩
      negated := ⟨(negated_exact_iff ha hka).mpr hneg.1, (negated_exact_iff hb hkb).mpr hneg.2⟩
      asLargeInteger := ⟨hcon.mpr hka, hcon'.mpr hkb⟩
      less := less_exact ha hb hka hkb
      lessEq := lessEq_exact ha hb hka hkb
      greater := greater_exact ha hb hka hkb
      greaterEq := greaterEq_exact ha hb hka hkb
      equal := equal_exact ha hb hka hkb }

/-- Seven and 2^64. -/
theorem exactAt_beyond_word : (small 7).ExactAt (large ⟨false, [0, 0, 0, 0, 0, 0, 0, 0, 1]⟩) := by
  have hval : (large ⟨false, [0, 0, 0, 0, 0, 0, 0, 0, 1]⟩).toInt = 18446744073709551616 := by decide
  have hseven : (small 7).toInt = 7 := rfl
  refine (exactAt_iff (a := small 7) (show fits 7 = true by decide) ?_).mpr ?_
  · exact ⟨⟨by decide, by decide, fun h => absurd h (by decide)⟩, fun _ => rfl⟩
  · refine ⟨not_carryLost_nonneg (by decide), fun h => h, ?_, ?_, ?_, ?_, ?_⟩
    all_goals rw [hval, hseven]
    · decide
    · decide
    · decide
    · decide
    · intro _ hslip
      have hfits := hslip.1
      rw [hval] at hfits
      exact absurd hfits (by decide)

/-- 2^61 - 256 answers 2^61: the complement of 256 carries out of its one byte. -/
theorem two_fifty_six_subtracts_nothing : (large ⟨false, [0, 0, 0, 0, 0, 0, 0, 32]⟩).Valid ∧ (small 256).Valid ∧
      (large ⟨false, [0, 0, 0, 0, 0, 0, 0, 32]⟩).minus (small 256) = large ⟨false, [0, 0, 0, 0, 0, 0, 0, 32]⟩ ∧
      ¬ (large ⟨false, [0, 0, 0, 0, 0, 0, 0, 32]⟩).ExactAt (small 256) := by
  have hrun : (large ⟨false, [0, 0, 0, 0, 0, 0, 0, 32]⟩).minus (small 256) =
      large ⟨false, [0, 0, 0, 0, 0, 0, 0, 32]⟩ := by decide
  refine ⟨⟨⟨by decide, by decide, fun h => absurd h (by decide)⟩, fun _ => rfl⟩,
    show fits 256 = true by decide, hrun, fun h => ?_⟩
  have hval := h.minus.toInt
  rw [hrun] at hval
  exact absurd hval (by decide)

end IntegerOop

end WinArmVm
