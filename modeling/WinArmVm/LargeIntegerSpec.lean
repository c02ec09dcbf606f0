import WinArmVm.LargeInteger

namespace WinArmVm

open Nat List DigitArithmetic

namespace LargeInteger

def magnitude (l : LargeInteger) : Nat := ofDigits 256 l.bytes

def toInt (l : LargeInteger) : Int := if l.neg then -(l.magnitude : Int) else l.magnitude

/-- No leading zero byte, and one zero only. -/
structure Ok (l : LargeInteger) : Prop where
  trimmed : Trimmed 256 l.bytes
  zero : l.magnitude = 0 → l.neg = false

end LargeInteger

namespace IntegerOop

def toInt : IntegerOop → Int
  | small v => v
  | large l => l.toInt

/-- An answer of normalisation: small when the magnitude is below that of `minVal`. -/
def Normal (r : IntegerOop) (z : Int) : Prop := (z.natAbs < 2 ^ 61 ∧ r = small z) ∨
    (2 ^ 61 ≤ z.natAbs ∧ ∃ l : LargeInteger, r = large l ∧ l.Ok ∧ l.toInt = z)

end IntegerOop

namespace LargeInteger

open IntegerOop (Normal)

variable {l b : LargeInteger}

theorem toInt_natAbs (l : LargeInteger) : l.toInt.natAbs = l.magnitude := by
  unfold toInt
  split
  all_goals omega

variable {other : IntegerOop} {bytes : List Nat}

theorem getD_lt (h : ∀ d ∈ bytes, d < 256) (i : Nat) : bytes.getD i 0 < 256 := by
  rw [getD_eq_getElem?_getD]
  cases hi : bytes[i]? with
  | none => decide
  | some d => exact h d (mem_of_getElem? hi)

theorem ofDigits_drop (bytes : List Nat) {i : Nat} (hi : i < bytes.length) :
    ofDigits 256 (bytes.drop i) = bytes.getD i 0 + 256 * ofDigits 256 (bytes.drop (i + 1)) := by
  rw [drop_eq_getElem_cons hi, ofDigits_cons, getD_eq_getElem?_getD, getElem?_eq_getElem hi]
  rfl

theorem ofDigits_take_drop (bytes : List Nat) {n : Nat} (hn : n ≤ bytes.length) :
    ofDigits 256 bytes = ofDigits 256 (bytes.take n) + 256 ^ n * ofDigits 256 (bytes.drop n) := by
  have h := @ofDigits_append 256 (bytes.take n) (bytes.drop n)
  rw [take_append_drop, length_take, min_eq_left hn] at h
  exact h

/-- The size found on the way down: the digits from there on are zeros, and the one
below is not. -/
def Significant (bytes : List Nat) (i sz : Nat) : Prop := (sz = 0 ∧ ofDigits 256 (bytes.drop i) = 0) ∨
    (i < sz ∧ sz ≤ bytes.length ∧ bytes.getD (sz - 1) 0 ≠ 0 ∧ ofDigits 256 (bytes.drop sz) = 0)

theorem Significant.step {bytes : List Nat} {i sz : Nat} (h : Significant bytes (i + 1) sz) (hi : i < bytes.length) :
    Significant bytes i (if sz = 0 ∧ bytes.getD i 0 ≠ 0 then i + 1 else sz) := by
  have hd := ofDigits_drop bytes hi
  rcases h with ⟨hsz, hzero⟩ | ⟨hlt, hle, hne, hzero⟩
  · rw [hzero, mul_zero, add_zero] at hd
    by_cases hb : bytes.getD i 0 = 0
    · rw [if_neg (fun h => h.2 hb)]
      exact .inl ⟨hsz, by rw [hd, hb]⟩
    · rw [if_pos ⟨hsz, hb⟩]
      exact .inr ⟨lt_succ_self i, hi, hb, hzero⟩
  · rw [if_neg (fun h => by omega)]
    exact .inr ⟨by omega, hle, hne, hzero⟩

theorem trimmedTo_ok {neg : Bool} {bytes : List Nat} (hb : ∀ d ∈ bytes, d < 256) {i sz : Nat}
    (h : Significant bytes i sz) (hpos : 0 < ofDigits 256 (bytes.drop i)) :
    (trimmedTo ⟨neg, bytes⟩ sz).neg = neg ∧ (trimmedTo ⟨neg, bytes⟩ sz).magnitude = ofDigits 256 bytes ∧
      Trimmed 256 (trimmedTo ⟨neg, bytes⟩ sz).bytes := by
  rcases h with ⟨_, hzero⟩ | ⟨hlt, hle, hne, hzero⟩
  · omega
  · have htake : (trimmedTo ⟨neg, bytes⟩ sz).bytes = bytes.take sz := by
      unfold trimmedTo
      split
      next he =>
        rw [he, take_length]
      next => rfl
    have hneg : (trimmedTo ⟨neg, bytes⟩ sz).neg = neg := by
      unfold trimmedTo
      split
      all_goals rfl
    refine ⟨hneg, ?_, ?_⟩
    · unfold magnitude
      rw [htake, ofDigits_take_drop bytes hle, hzero, mul_zero, add_zero]
    · rw [htake]
      have hlast : (bytes.take sz).getLast? = some (bytes.getD (sz - 1) 0) := by
        rw [getLast?_take, if_neg (by omega), getD_eq_getElem?_getD, getElem?_eq_getElem (by omega)]
        rfl
      refine ⟨fun d hd => hb d (mem_of_mem_take hd), fun hnil => ?_, fun he => ?_⟩
      · rw [hnil] at hlast
        cases hlast
      · rw [hlast] at he
        exact absurd (Option.some.inj he) hne

theorem normalizeFrom_spec (hb : ∀ d ∈ bytes, d < 256) {i v sz : Nat}
    (hi : i ≤ bytes.length) (hv : v = ofDigits 256 (bytes.drop i)) (hlow : v < 2 ^ 61) (hsz : Significant bytes i sz) :
    (ofDigits 256 bytes < 2 ^ 61 ∧ ∃ sz', normalizeFrom bytes i v sz = .ok (ofDigits 256 bytes, sz')) ∨
      (2 ^ 61 ≤ ofDigits 256 bytes ∧ ∃ i' sz', normalizeFrom bytes i v sz = .error sz' ∧
        Significant bytes i' sz' ∧ 0 < ofDigits 256 (bytes.drop i')) := by
  induction i generalizing v sz with
  | zero =>
    rw [drop_zero] at hv
    rw [hv] at hlow ⊢
    exact .inl ⟨hlow, sz, rfl⟩
  | succ i ih =>
    have hd := ofDigits_drop bytes (show i < bytes.length by omega)
    have hbyte := getD_lt hb i
    have hshift : (SmallInteger.maxVal.toNat >>> 8 : Nat) = 2 ^ 53 - 1 := by decide
    have hstep := hsz.step (show i < bytes.length by omega)
    have hmul : v <<< 8 = v * 256 := Nat.shiftLeft_eq v 8
    unfold normalizeFrom
    rw [hshift, hmul]
    split
    next hbig =>
      right
      have hdrop := ofDigits_take_drop bytes (show i ≤ bytes.length by omega)
      rw [← hv] at hd
      have hge : 2 ^ 61 ≤ ofDigits 256 (bytes.drop i) := by omega
      have hpow : 1 ≤ 256 ^ i := Nat.one_le_pow _ _ (by decide)
      have hle : ofDigits 256 (bytes.drop i) ≤ 256 ^ i * ofDigits 256 (bytes.drop i) :=
        Nat.le_mul_of_pos_left _ (by omega)
      exact ⟨by omega, i, _, rfl, hstep, by omega⟩
    next hsmall =>
      apply ih (by omega) _ (by omega) hstep
      rw [hd, hv]
      omega

theorem normalize_normal (hb : ∀ d ∈ l.bytes, d < 256) : Normal l.normalize l.toInt := by
  obtain ⟨neg, bytes⟩ := l
  have hb : ∀ d ∈ bytes, d < 256 := hb
  have hstart : Significant bytes bytes.length 0 := .inl ⟨rfl, by rw [drop_length]; rfl⟩
  have hzero : 0 = ofDigits 256 (bytes.drop bytes.length) := by
    rw [drop_length]
    rfl
  have habs := toInt_natAbs ⟨neg, bytes⟩
  have hvalue : (⟨neg, bytes⟩ : LargeInteger).magnitude = ofDigits 256 bytes := rfl
  rcases normalizeFrom_spec hb (le_refl _) hzero (by decide) hstart with
    ⟨hlow, sz, hrun⟩ | ⟨hhigh, i, sz, hrun, hsig, hpos⟩
  · left
    refine ⟨by rw [habs]; exact hlow, ?_⟩
    unfold normalize
    rw [hrun]
    dsimp only
    unfold SmallInteger.maxVal SmallInteger.minVal
    cases neg with
    | false =>
      rw [if_pos rfl, if_pos (by omega)]
      rfl
    | true =>
      rw [if_neg (by decide), if_pos (by omega), Int.zero_sub]
      rfl
  · right
    obtain ⟨hneg, hmag, htrim⟩ := @trimmedTo_ok neg _ hb _ _ hsig hpos
    refine ⟨by rw [habs]; exact hhigh, _, ?_, ⟨htrim, fun hz => ?_⟩, ?_⟩
    · unfold normalize
      rw [hrun]
    · rw [hmag] at hz
      omega
    · unfold toInt
      rw [hneg, hmag, hvalue]

theorem addMagnitude_eq (l b : LargeInteger) (hl : ∀ d ∈ l.bytes, d < 256)
    (hb : ∀ d ∈ b.bytes, d < 256) : ofDigits 256 (l.addMagnitude b) = l.magnitude + b.magnitude := by
  have h₁ := ofDigits_lt (by decide) hl
  have h₂ := ofDigits_lt (by decide) hb
  have h₃ := Nat.pow_le_pow_right (n := 256) (by decide) (Nat.le_max_left l.bytes.length b.bytes.length)
  have h₄ := Nat.pow_le_pow_right (n := 256) (by decide) (Nat.le_max_right l.bytes.length b.bytes.length)
  apply ofDigits_addCarry
  rw [Nat.pow_succ]
  omega

theorem subMagnitude_eq (l b : LargeInteger) (hl : ∀ d ∈ l.bytes, d < 256)
    (hb : ∀ d ∈ b.bytes, d < 256) (hlen : b.bytes.length ≤ l.bytes.length) (hle : b.magnitude ≤ l.magnitude) :
    ofDigits 256 (l.subMagnitude b) = l.magnitude - b.magnitude := by
  obtain ⟨out, hout, he⟩ := ofDigits_subBorrow (by decide) hb hlen (show 0 ≤ 1 by decide)
  have hlt := ofDigits_lt (by decide) (subBorrow_lt hl hb (show 0 ≤ 1 by decide))
  rw [length_subBorrow] at hlt
  unfold magnitude subMagnitude at *
  have hzero : out = 0 := by
    by_contra hne
    have : out = 1 := by omega
    rw [this, one_mul] at he
    omega
  rw [hzero, zero_mul] at he
  omega

theorem compareMagnitude_cases (hl : Trimmed 256 l.bytes) (hb : Trimmed 256 b.bytes) :
    (l.compareMagnitude b = 1 ∧ b.magnitude < l.magnitude) ∨ (l.compareMagnitude b = -1 ∧ l.magnitude < b.magnitude) ∨
      (l.compareMagnitude b = 0 ∧ l.bytes = b.bytes) := compareDigits_spec (by decide) hl hb

theorem length_le_of_le (hl : Trimmed 256 l.bytes) (hb : Trimmed 256 b.bytes)
    (hle : b.magnitude ≤ l.magnitude) : b.bytes.length ≤ l.bytes.length := by
  by_contra hlt
  have hcmp := compareMagnitude_cases hl hb
  unfold compareMagnitude compareDigits at hcmp
  rw [if_neg (by omega), if_pos (by omega)] at hcmp
  rcases hcmp with ⟨h, _⟩ | ⟨_, h⟩ | ⟨h, _⟩
  · exact absurd h (by decide)
  · omega
  · exact absurd h (by decide)

theorem withSign_normal (hb : ∀ d ∈ bytes, d < 256) {neg : Bool} {n : Nat}
    (hn : ofDigits 256 bytes = n) {z : Int} (hz : z = if neg then -(n : Int) else n) :
    Normal (withSign bytes neg) z := by
  rw [hz, ← hn]
  exact normalize_normal (l := ⟨neg, bytes⟩) hb

theorem toInt_neg (h : l.neg = true) : l.toInt = -(l.magnitude : Int) := by
  unfold toInt
  rw [if_pos h]

theorem toInt_pos (h : l.neg = false) : l.toInt = l.magnitude := by
  unfold toInt
  rw [h]
  rfl

theorem plus_normal {other : IntegerOop} (hl : l.Ok) (hb : other.asLargeInteger.Ok) :
    Normal (l.plus other) (l.toInt + other.asLargeInteger.toInt) := by
  unfold plus
  dsimp only
  generalize other.asLargeInteger = b at hb ⊢
  have hlt := hl.trimmed.1
  have hbt := hb.trimmed.1
  split
  next hsign =>
    apply withSign_normal (addCarry_lt (by decide) _ _ _ _) (addMagnitude_eq l b hlt hbt)
    cases hn : l.neg with
    | true =>
      rw [toInt_neg hn, toInt_neg (hsign ▸ hn), if_pos rfl]
      push_cast
      ring
    | false =>
      rw [toInt_pos hn, toInt_pos (hsign ▸ hn)]
      push_cast
      rfl
  next hsign =>
    have hsub : ∀ x y : LargeInteger, x.Ok → y.Ok → y.magnitude ≤ x.magnitude → x.neg ≠ y.neg →
        Normal (withSign (x.subMagnitude y) x.neg) (x.toInt + y.toInt) := by
      intro x y hx hy hle hne
      have heq := subMagnitude_eq x y hx.trimmed.1 hy.trimmed.1 (length_le_of_le hx.trimmed hy.trimmed hle) hle
      apply withSign_normal (subBorrow_lt hx.trimmed.1 hy.trimmed.1 (by decide)) heq
      cases hn : x.neg with
      | true =>
        have hy : y.neg = false := by
          cases hyn : y.neg with
          | true => exact absurd (hn.trans hyn.symm) hne
          | false => rfl
        rw [toInt_neg hn, toInt_pos hy, if_pos rfl]
        push_cast [hle]
        ring
      | false =>
        have hy : y.neg = true := by
          cases hyn : y.neg with
          | true => rfl
          | false => exact absurd (hn.trans hyn.symm) hne
        rw [toInt_pos hn, toInt_neg hy, if_neg (by decide)]
        push_cast [hle]
        ring
    rcases compareMagnitude_cases hl.trimmed hb.trimmed with ⟨hc, hlt'⟩ | ⟨hc, hlt'⟩ | ⟨hc, hsame⟩
    · rw [hc, if_pos (by decide)]
      exact hsub l b hl hb (le_of_lt hlt') hsign
    · rw [hc, if_neg (by decide), Int.add_comm]
      exact hsub b l hb hl (le_of_lt hlt') (Ne.symm hsign)
    · rw [hc, if_pos (by decide)]
      have hmag : b.magnitude = l.magnitude := by
        unfold magnitude
        rw [hsame]
      exact hsub l b hl hb (le_of_eq hmag) hsign

theorem times_normal_of_digits (hl : ∀ d ∈ l.bytes, d < 256)
    (hb : ∀ d ∈ other.asLargeInteger.bytes, d < 256) (hne : other.asLargeInteger.bytes ≠ []) :
    ∃ r, l.times other = some r ∧ Normal r (l.toInt * other.asLargeInteger.toInt) := by
  unfold times
  dsimp only
  generalize other.asLargeInteger = b at hb hne ⊢
  have hmul : l.magnitude * b.magnitude < 256 ^ (l.bytes.length + b.bytes.length) := by
    rw [pow_add]
    exact mul_lt_mul'' (ofDigits_lt (by decide) hl) (ofDigits_lt (by decide) hb)
  obtain ⟨r, hr, hval, _, hlt⟩ := mulRows_spec (b := 256) (x := l.bytes) (y := b.bytes)
    (r := List.replicate (l.bytes.length + b.bytes.length) 0) (by decide)
    (fun e he => by rw [eq_of_mem_replicate he]; decide) (length_pos_iff.mpr hne)
    (by rw [length_replicate]; omega)
    (by
      rw [ofDigits_replicate_zero, length_replicate, zero_add]
      exact hmul)
  rw [ofDigits_replicate_zero, zero_add] at hval
  have hval : ofDigits 256 r = l.magnitude * b.magnitude := hval
  refine ⟨withSign r (l.neg != b.neg), by rw [hr]; rfl, withSign_normal hlt hval ?_⟩
  cases hln : l.neg
  all_goals cases hbn : b.neg
  · rw [toInt_pos hln, toInt_pos hbn, if_neg (by decide)]
    push_cast
    rfl
  · rw [toInt_pos hln, toInt_neg hbn, if_pos (by decide)]
    push_cast
    ring
  · rw [toInt_neg hln, toInt_pos hbn, if_pos (by decide)]
    push_cast
    ring
  · rw [toInt_neg hln, toInt_neg hbn, if_neg (by decide)]
    push_cast
    ring

theorem times_normal {other : IntegerOop} (hl : ∀ d ∈ l.bytes, d < 256) (hb : Trimmed 256 other.asLargeInteger.bytes) :
    ∃ r, l.times other = some r ∧ Normal r (l.toInt * other.asLargeInteger.toInt) :=
  times_normal_of_digits hl hb.1 hb.2.1

theorem negated_normal (hl : ∀ d ∈ l.bytes, d < 256) : Normal l.negated (-l.toInt) := by
  have h := normalize_normal (l := ⟨!l.neg, l.bytes⟩) hl
  have hz : (⟨!l.neg, l.bytes⟩ : LargeInteger).toInt = -l.toInt := by
    cases hn : l.neg with
    | true =>
      rw [toInt_neg hn]
      unfold toInt magnitude
      simp
    | false =>
      rw [toInt_pos hn]
      unfold toInt magnitude
      simp
  rw [hz] at h
  exact h

theorem Ok.ext (hl : l.Ok) (hb : b.Ok) (h : l.toInt = b.toInt) : l.neg = b.neg ∧ l.bytes = b.bytes := by
  have hmag : l.magnitude = b.magnitude := by
    rw [← toInt_natAbs, ← toInt_natAbs, h]
  have hneg : l.neg = b.neg := by
    cases hn : l.neg
    all_goals cases hbn : b.neg
    · rfl
    · rw [toInt_pos hn, toInt_neg hbn] at h
      have := hb.zero (by omega)
      rw [hbn] at this
      cases this
    · rw [toInt_neg hn, toInt_pos hbn] at h
      have := hl.zero (by omega)
      rw [hn] at this
      cases this
    · rfl
  refine ⟨hneg, ?_⟩
  rcases compareMagnitude_cases hl.trimmed hb.trimmed with ⟨_, hlt⟩ | ⟨_, hlt⟩ | ⟨_, hsame⟩
  · omega
  · omega
  · exact hsame

theorem less_eq (hl : l.Ok) (hb : other.asLargeInteger.Ok) :
    l.less other = decide (l.toInt < other.asLargeInteger.toInt) := by
  unfold less
  dsimp only
  generalize other.asLargeInteger = b at hb ⊢
  have hcmp : (l.compareMagnitude b = 1 ∧ b.magnitude < l.magnitude) ∨
      (l.compareMagnitude b = -1 ∧ l.magnitude < b.magnitude) ∨
      (l.compareMagnitude b = 0 ∧ l.magnitude = b.magnitude) :=
    (compareMagnitude_cases hl.trimmed hb.trimmed).imp_right fun h => h.imp_right fun h =>
      ⟨h.1, congrArg (ofDigits 256) h.2⟩
  have hlz := hl.zero
  cases hn : l.neg
  all_goals cases hbn : b.neg
  · rw [if_neg (by decide), if_pos rfl, toInt_pos hn, toInt_pos hbn]
    congr 1
    apply propext
    omega
  · rw [if_pos (by decide), toInt_pos hn, toInt_neg hbn]
    symm
    apply decide_eq_false
    omega
  · rw [if_pos (by decide), toInt_neg hn, toInt_pos hbn]
    symm
    apply decide_eq_true
    have : l.magnitude ≠ 0 := by
      intro hz
      have := hlz hz
      rw [hn] at this
      cases this
    omega
  · rw [if_neg (by decide), if_neg (by decide), toInt_neg hn, toInt_neg hbn]
    congr 1
    apply propext
    omega

theorem equal_eq (hl : l.Ok) (hb : other.asLargeInteger.Ok) :
    l.equal other = decide (l.toInt = other.asLargeInteger.toInt) := by
  unfold equal
  dsimp only
  generalize other.asLargeInteger = b at hb ⊢
  by_cases he : l.toInt = b.toInt
  · obtain ⟨hneg, hbytes⟩ := hl.ext hb he
    rw [decide_eq_true he, decide_eq_true hneg, Bool.true_and]
    apply decide_eq_true
    rcases compareMagnitude_cases hl.trimmed hb.trimmed with ⟨_, hlt⟩ | ⟨_, hlt⟩ | ⟨hc, _⟩
    · unfold magnitude at hlt
      rw [hbytes] at hlt
      omega
    · unfold magnitude at hlt
      rw [hbytes] at hlt
      omega
    · exact hc
  · rw [decide_eq_false he]
    apply Bool.and_eq_false_iff.mpr
    by_cases hneg : l.neg = b.neg
    · right
      apply decide_eq_false
      intro hc
      rcases compareMagnitude_cases hl.trimmed hb.trimmed with ⟨hc', _⟩ | ⟨hc', _⟩ | ⟨_, hbytes⟩
      · rw [hc'] at hc
        exact absurd hc (by decide)
      · rw [hc'] at hc
        exact absurd hc (by decide)
      · apply he
        unfold toInt magnitude
        rw [hneg, hbytes]
    · exact .inl (decide_eq_false hneg)

end LargeInteger

end WinArmVm
