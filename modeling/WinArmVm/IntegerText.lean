import WinArmVm.IntegerDivisionExact

namespace WinArmVm.IntegerOop

open List Option DigitArithmetic
open Nat (ofDigits)

open SmallInteger LargeInteger

/-- One digit off the number: a LargeInteger by `divMod:`, a SmallInteger by its primitives. -/
def peel : IntegerOop → Option (IntegerOop × IntegerOop)
  | small v => do return (← (small v).floorMod (small 10), ← (small v).floorDiv (small 10))
  | large l =>
    let (q, value) := l.divMod 10
    some (value, q)

def peelDigits : Nat → IntegerOop → List IntegerOop → Option (List IntegerOop)
  | 0, _, _ => none
  | fuel + 1, q, digits =>
    if q.equal (small 0) then some digits
    else do
      let (d, q) ← q.peel
      peelDigits fuel q (d :: digits)

/-- `Character value: 48 + d` -/
def digitCharacter (d : IntegerOop) : Char := Char.ofNat (48 + d.toInt).toNat

def printSmall (v : Int) : Option (List Char) :=
  if v = 0 then some ['0']
  else do return (← peelDigits (v.natAbs + 1) (small v) []).map digitCharacter

def printMagnitude (l : LargeInteger) : Option (List Char) := do
  let digits ← peelDigits (l.magnitude + 1) (if l.neg then l.negated else large l) []
  return (if digits = [] then [small 0] else digits).map digitCharacter

/-- What `negated printOn:` prints: a number that is not negative. -/
def printUnsigned : IntegerOop → Option (List Char)
  | small v => printSmall v
  | large l => printMagnitude l

def printString : IntegerOop → Option (List Char)
  | small v =>
    if v < 0 then do return '-' :: (← (small v).negated.printUnsigned) else printSmall v
  | large l => do
    let s ← printMagnitude l
    return if l.neg then '-' :: s else s

/-- `Character>>digitValue` -/
def digitValue (c : Char) : Int :=
  let value := c.toNat
  if 48 ≤ value ∧ value ≤ 57 then value - 48
  else if 65 ≤ value ∧ value ≤ 90 then value - 55
  else if 97 ≤ value ∧ value ≤ 122 then value - 87
  else -1

/-- The inner `none` is nil. -/
def readDigits : List Char → IntegerOop → Option (Option IntegerOop)
  | [], n => some (some n)
  | c :: rest, n =>
    let d := digitValue c
    if d < 0 ∨ 9 < d then some none
    else do readDigits rest ((← n.times (small 10)).plus (small d))

/-- `String>>asInteger` -/
def asInteger (s : List Char) : Option (Option IntegerOop) :=
  match s with
  | [] => some none
  | c :: rest =>
    let (sign, digits) := if c = '-' then ((-1 : Int), rest) else (1, s)
    if digits = [] then some none
    else do
      match ← readDigits digits (small 0) with
      | none => some none
      | some n => return some (← n.times (small sign))

def numeral (z : Int) : List Char := (if z < 0 then ['-'] else []) ++ Nat.toDigits 10 z.natAbs

variable {a q r : IntegerOop} {m n : Nat} {l : LargeInteger} {c : Char} {z : Int}

theorem Counts.magnitude (h : (large l).Counts n) : l.magnitude = n := by
  have hvalue : l.toInt = n := h.value
  rw [← toInt_natAbs, hvalue]
  rfl

theorem Counts.peel (h : q.Counts m) : ∃ d q', q.peel = some (d, q') ∧ Exact d ((m % 10 : Nat) : Int) ∧
    Exact q' ((m / 10 : Nat) : Int) := by
  cases q with
  | small v =>
    obtain ⟨q', d, hq, hd, hqe, hde⟩ := h.floored (counts_small (n := 10) (by decide)) (by decide) (.inr rfl)
    have hq : (small v).floorDiv (small 10) = some q' := hq
    have hd : (small v).floorMod (small 10) = some d := hd
    refine ⟨d, q', ?_, hde, hqe⟩
    have hrun : (small v).peel = (do return (← (small v).floorMod (small 10), ← (small v).floorDiv (small 10))) := rfl
    rw [hrun, hd, hq]
    rfl
  | large l =>
    have hok : l.Ok := h.valid
    have hm := h.magnitude
    have hdigits := divModBytes_eq (v := 10) (by decide) l.bytes
    have hlt := divModBytes_lt (v := 10) (by decide) hok.trimmed.1
    have hq := normalize_exact hlt
    have hmag : ofDigits 256 l.bytes = m := hm
    rw [hdigits.2, hmag] at hq
    refine ⟨_, _, rfl, ?_, hq⟩
    show Exact (small (divModBytes (10 : Nat) l.bytes).2) _
    rw [hdigits.1, hmag]
    exact exact_small_nat (by omega)

theorem digitCharacter_eq {d : IntegerOop} (h : d.Counts n) (hn : n < 10) : digitCharacter d = Nat.digitChar n := by
  unfold digitCharacter
  rw [h.value, show ((48 : Int) + n).toNat = 48 + n by omega]
  interval_cases n
  all_goals rfl

theorem peelDigits_spec (h : q.Counts m) {fuel : Nat} (hfuel : m < fuel) (digits : List IntegerOop) :
    ∃ ds, peelDigits fuel q digits = some (ds ++ digits) ∧
      ds.map digitCharacter = if m = 0 then [] else Nat.toDigits 10 m := by
  induction fuel generalizing q m digits with
  | zero => omega
  | succ fuel ih =>
    have hzero : q.equal (small 0) = decide (m = 0) := h.isZero
    unfold peelDigits
    rw [hzero]
    by_cases hm : m = 0
    · rw [decide_eq_true hm, if_pos rfl, if_pos hm]
      exact ⟨[], rfl, rfl⟩
    · rw [decide_eq_false hm, if_neg Bool.false_ne_true, if_neg hm]
      obtain ⟨d, q', hpeel, hd, hq'⟩ := h.peel
      simp only [hpeel, bind_eq_bind, bind_some]
      obtain ⟨ds, hrun, hds⟩ := ih hq'.counts (by omega) (d :: digits)
      refine ⟨ds ++ [d], by rw [hrun, append_assoc]; rfl, ?_⟩
      rw [map_append, hds, map_singleton, digitCharacter_eq hd.counts (Nat.mod_lt m (by decide))]
      by_cases hlast : m / 10 = 0
      · rw [if_pos hlast, Nat.mod_eq_of_lt (by omega), Nat.toDigits_of_lt_base (by omega)]
        rfl
      · rw [if_neg hlast]
        exact (Nat.toDigits_of_base_le (b := 10) (n := m) (by decide) (by omega)).symm

theorem printSmall_eq (h : n < 2 ^ 61) : printSmall n = some (Nat.toDigits 10 n) := by
  unfold printSmall
  by_cases hn : n = 0
  · rw [if_pos (by omega), hn]
    rfl
  · rw [if_neg (by omega)]
    obtain ⟨ds, hrun, hds⟩ := peelDigits_spec (counts_small h) (Nat.lt_succ_self n) []
    rw [append_nil] at hrun
    have hrun : peelDigits ((n : Int).natAbs + 1) (small n) [] = some ds := hrun
    rw [hrun]
    simp only [bind_eq_bind, bind_some, hds, if_neg hn]
    rfl

theorem printMagnitude_eq (hok : l.Ok) : printMagnitude l = some (Nat.toDigits 10 l.magnitude) := by
  have hc : (if l.neg then l.negated else large l).Counts l.magnitude := by
    cases hneg : l.neg with
    | false => exact ⟨hok, toInt_pos hneg⟩
    | true =>
      have hnormal := negated_normal (l := l) hok.trimmed.1
      rw [toInt_neg hneg, Int.neg_neg] at hnormal
      exact (hnormal.exact_iff.mpr (Counts.ne_min _)).counts
  obtain ⟨ds, hrun, hds⟩ := peelDigits_spec hc (Nat.lt_succ_self _) []
  rw [append_nil] at hrun
  unfold printMagnitude
  rw [hrun]
  simp only [bind_eq_bind, bind_some]
  by_cases hzero : l.magnitude = 0
  · rw [if_pos hzero, map_eq_nil_iff] at hds
    rw [if_pos hds, hzero]
    rfl
  · rw [if_neg hzero] at hds
    have hne : ds ≠ [] := fun he => by
      rw [he] at hds
      exact Nat.toDigits_ne_nil hds.symm
    rw [if_neg hne, hds]
    rfl

theorem Counts.printUnsigned (h : q.Counts n) : q.printUnsigned = some (Nat.toDigits 10 n) := by
  cases q with
  | small v =>
    have hv : v = n := h.value
    subst hv
    have := fits_iff.mp h.valid
    exact printSmall_eq (by omega)
  | large l =>
    rw [← h.magnitude]
    exact printMagnitude_eq h.valid

theorem negated_counts {v : Int} (hv : fits v = true) (h : v = -(n : Int)) : (small v).negated.Counts n := by
  have hmin : minVal = -2 ^ 61 := by decide
  have hvalid : (small v).Valid := hv
  have hfits := fits_iff.mp hv
  by_cases hfit : fits (0 - v) = true
  · have hnegated : (small v).negated = small (0 - v) := if_pos hfit
    rw [hnegated]
    exact ⟨hfit, by show 0 - v = n; omega⟩
  · have hv : v = minVal := by
      have := mt fits_iff.mpr hfit
      omega
    have hexact := (negated_exact_iff (a := small v) hvalid (hv ▸ not_carryLost_min)).mpr (by
      show v ≠ -minVal
      omega)
    have hvalue : -(small v).toInt = (n : Int) := by
      show -v = n
      omega
    rw [hvalue] at hexact
    exact hexact.counts

theorem printString_eq (ha : a.Valid) : a.printString = some (numeral a.toInt) := by
  unfold numeral
  cases a with
  | large l =>
    have hok : l.Ok := ha
    have hneg : l.toInt < 0 ↔ l.neg = true := by
      cases hn : l.neg with
      | false =>
        rw [toInt_pos hn]
        exact iff_of_false (by omega) Bool.false_ne_true
      | true =>
        have hmag : l.magnitude ≠ 0 := fun hzero => by
          have := hok.zero hzero
          rw [hn] at this
          cases this
        rw [toInt_neg hn]
        exact iff_of_true (by omega) rfl
    show (do let s ← printMagnitude l; return if l.neg then '-' :: s else s) =
      some ((if l.toInt < 0 then ['-'] else []) ++ Nat.toDigits 10 l.toInt.natAbs)
    rw [printMagnitude_eq hok, toInt_natAbs]
    simp only [bind_eq_bind, bind_some, hneg]
    cases l.neg with
    | false => rfl
    | true => rfl
  | small v =>
    have hv := fits_iff.mp ha
    show (if v < 0 then (do return '-' :: (← (small v).negated.printUnsigned)) else printSmall v) =
      some ((if v < 0 then ['-'] else []) ++ Nat.toDigits 10 v.natAbs)
    by_cases hneg : v < 0
    · rw [if_pos hneg, if_pos hneg]
      obtain ⟨w, hw⟩ := Int.eq_ofNat_of_zero_le (show 0 ≤ -v by omega)
      have habs : v.natAbs = w := by omega
      have hrun := (negated_counts (n := w) ha (by omega)).printUnsigned
      rw [hrun, habs]
      rfl
    · rw [if_neg hneg, if_neg hneg]
      obtain ⟨w, rfl⟩ := Int.eq_ofNat_of_zero_le (show 0 ≤ v by omega)
      exact printSmall_eq (by omega)

theorem toNat_of_isDigit (h : c.isDigit = true) : 48 ≤ c.toNat ∧ c.toNat ≤ 57 := Char.isDigit_iff_toNat.mp h

theorem digitValue_eq (h : c.isDigit = true) : digitValue c = ((c.toNat - 48 : Nat) : Int) := by
  obtain ⟨hlow, hhigh⟩ := toNat_of_isDigit h
  unfold digitValue
  rw [if_pos ⟨hlow, hhigh⟩]
  omega

theorem readDigits_spec {digits : List Char} (hdigits : ∀ c ∈ digits, c.isDigit = true) (h : q.Counts m) :
    ∃ r, readDigits digits q = some (some r) ∧ r.Counts (Nat.ofDigitChars 10 digits m) := by
  induction digits generalizing q m with
  | nil => exact ⟨q, rfl, h⟩
  | cons c rest ih =>
    have hc := hdigits c mem_cons_self
    obtain ⟨hlow, hhigh⟩ := toNat_of_isDigit hc
    obtain ⟨p, hp, hpe⟩ := h.times (counts_small (n := 10) (by decide))
    have hp : q.times (small 10) = some p := hp
    have hsum := hpe.counts.plus (counts_small (n := c.toNat - 48) (by omega))
    obtain ⟨r, hrun, hr⟩ := ih (fun e he => hdigits e (mem_cons_of_mem _ he)) hsum.counts
    refine ⟨r, ?_, by rw [Nat.ofDigitChars_cons, Nat.mul_comm]; exact hr⟩
    unfold readDigits
    simp only [digitValue_eq hc, hp, bind_eq_bind, bind_some]
    rw [if_neg (by omega)]
    exact hrun

/-- What integer arithmetic answers: a LargeInteger is out of the small range or `minVal`. -/
def Answered : IntegerOop → Prop
  | small v => fits v = true
  | large l => l.Ok ∧ 2 ^ 61 ≤ l.magnitude

theorem Exact.answered (h : Exact r z) : r.Answered := by
  unfold Exact at h
  split at h
  next hf =>
    rw [h]
    exact hf
  next hf =>
    obtain ⟨l, rfl, hok, hvalue⟩ := h
    have hout := mt fits_iff.mpr hf
    refine ⟨hok, ?_⟩
    rw [← toInt_natAbs, hvalue]
    omega

theorem Normal.answered (h : Normal r z) : r.Answered := by
  rcases h with ⟨hlow, rfl⟩ | ⟨hhigh, l, rfl, hok, hvalue⟩
  · exact fits_iff.mpr (by omega)
  · refine ⟨hok, ?_⟩
    rw [← toInt_natAbs, hvalue]
    exact hhigh

theorem Answered.valid (h : a.Answered) : a.Valid := by
  cases a with
  | small v => exact h
  | large l => exact h.1

theorem Answered.big (ha : a.Answered) (hl : a.isLarge = true) : 2 ^ 61 ≤ a.toInt.natAbs := by
  cases a with
  | small v => cases hl
  | large l => exact ha.2.trans_eq (toInt_natAbs l).symm

theorem not_carryLost_unit (hz : z.natAbs ≤ 1) : ¬ CarryLost z := by
  rintro ⟨k, hk, he⟩
  have := Nat.pow_le_pow_right (n := 256) (by decide) hk
  omega

theorem answered_of_path {P Q : Prop} (h : P ∧ Exact r z ∨ Normal r z ∧ Q) : r.Answered ∧ r.toInt = z := by
  rcases h with ⟨-, he⟩ | ⟨hn, -⟩
  · exact ⟨he.answered, he.toInt⟩
  · exact ⟨hn.answered, hn.toInt⟩

theorem Answered.equal (hr : r.Answered) (ha : a.Answered) (h : r.toInt = a.toInt) : r.equal a = true := by
  have hkeep : ∀ {v : Int} {l : LargeInteger}, fits v = true → 2 ^ 61 ≤ l.magnitude → v = l.toInt →
      ¬ CarryLost v := by
    intro v l hv hl he hlost
    obtain ⟨k, hk, hk56⟩ := Counts.le_of_carryLost hv hlost
    have hmag := toInt_natAbs l
    rw [← he] at hmag
    generalize 256 ^ k = p at hk hk56
    omega
  cases r with
  | small v =>
    cases a with
    | small w => exact decide_eq_true h
    | large l =>
      have he := equal_exact (a := small v) (b := large l) hr ha.valid (hkeep hr ha.2 h) (fun hlost => hlost)
      rw [he]
      exact decide_eq_true h
  | large l =>
    have hkept : ¬ a.Lost := by
      cases a with
      | small v => exact hkeep ha hr.2 h.symm
      | large l' => exact fun hlost => hlost
    rw [equal_exact (Answered.valid hr) ha.valid (fun hlost => hlost) hkept]
    exact decide_eq_true h

theorem asInteger_eq {digits : List Char} (hne : digits ≠ []) (hdigits : ∀ c ∈ digits, c.isDigit = true) (neg : Bool) :
    ∃ r, asInteger ((if neg then ['-'] else []) ++ digits) = some (some r) ∧ r.Answered ∧
      r.toInt = if neg then -(Nat.ofDigitChars 10 digits 0 : Int) else Nat.ofDigitChars 10 digits 0 := by
  obtain ⟨v, hrun, hv⟩ := readDigits_spec hdigits (counts_small (n := 0) (by decide))
  have hrun : readDigits digits (small 0) = some (some v) := hrun
  have hsigned : ∀ sign : Int, sign = 1 ∨ sign = -1 → ∃ r, v.times (small sign) = some r ∧ r.Answered ∧
      r.toInt = Nat.ofDigitChars 10 digits 0 * sign := by
    intro sign hsign
    have hvalid : (small sign).Valid := fits_iff.mpr (by omega)
    have hkeep := not_carryLost_unit (z := sign) (by omega)
    obtain ⟨r, hr, hpath⟩ := times_path (b := small sign) hv.valid hvalid hv.not_lost hkeep
    rw [hv.value] at hpath
    exact ⟨r, hr, answered_of_path hpath⟩
  cases neg with
  | true =>
    obtain ⟨r, hr, hra, hvalue⟩ := hsigned (-1) (.inr rfl)
    refine ⟨r, ?_, hra, by rw [hvalue, if_pos rfl]; omega⟩
    show asInteger ('-' :: digits) = some (some r)
    unfold asInteger
    simp only [if_pos, if_neg hne, hrun, hr, bind_eq_bind, bind_some]
    rfl
  | false =>
    obtain ⟨r, hr, hra, hvalue⟩ := hsigned 1 (.inl rfl)
    refine ⟨r, ?_, hra, by rw [hvalue, if_neg Bool.false_ne_true]; omega⟩
    show asInteger digits = some (some r)
    cases digits with
    | nil => exact absurd rfl hne
    | cons c rest =>
      have hc : c ≠ '-' := by
        rintro rfl
        exact absurd (hdigits '-' mem_cons_self) (by decide)
      unfold asInteger
      simp only [if_neg hc, if_neg hne, hrun, hr, bind_eq_bind, bind_some]
      rfl

theorem eq_zero_of_head {n : Nat} (h : (Nat.toDigits 10 n).head? = some '0') : n = 0 := by
  induction n using Nat.strong_induction_on with
  | _ n ih =>
    by_cases hn : n < 10
    · rw [Nat.toDigits_of_lt_base hn, head?_cons, some_inj] at h
      have hcode := Nat.toNat_digitChar_of_lt_ten hn
      rw [h] at hcode
      have : ('0').toNat = 48 := rfl
      omega
    · rw [Nat.toDigits_of_base_le (by decide) (by omega), head?_append_of_ne_nil _ Nat.toDigits_ne_nil] at h
      have := ih (n / 10) (by omega) h
      omega

/-- Every integer prints as its decimal numeral, without leading zeros, and is read back from it;
and every optional minus and decimal digits are read as the integer they denote. -/
theorem prints_and_reads : (∀ a : IntegerOop, a.Valid → a.printString = some (numeral a.toInt) ∧
      ((Nat.toDigits 10 a.toInt.natAbs).head? = some '0' → a.toInt = 0) ∧
      ∃ r, asInteger (numeral a.toInt) = some (some r) ∧ r.toInt = a.toInt ∧ (a.Answered → r.equal a = true)) ∧
    ∀ (neg : Bool) (digits : List Char), digits ≠ [] → (∀ c ∈ digits, c.isDigit = true) →
      ∃ r, asInteger ((if neg then ['-'] else []) ++ digits) = some (some r) ∧
        r.toInt = if neg then -(Nat.ofDigitChars 10 digits 0 : Int) else Nat.ofDigitChars 10 digits 0 := by
  refine ⟨fun a ha => ⟨printString_eq ha, fun hhead => ?_, ?_⟩, fun neg digits hne hdigits => ?_⟩
  · have := eq_zero_of_head hhead
    omega
  · obtain ⟨r, hr, hra, hrv⟩ := @asInteger_eq (Nat.toDigits 10 a.toInt.natAbs) Nat.toDigits_ne_nil
      (fun c hc => Nat.isDigit_of_mem_toDigits (by decide) (by decide) hc) (decide (a.toInt < 0))
    have hback : r.toInt = a.toInt := by
      rw [hrv, Nat.ofDigitChars_ten_toDigits]
      by_cases hneg : a.toInt < 0
      · rw [decide_eq_true hneg, if_pos rfl]
        omega
      · rw [decide_eq_false hneg, if_neg Bool.false_ne_true]
        omega
    refine ⟨r, ?_, hback, fun ha => hra.equal ha hback⟩
    simp only [decide_eq_true_eq] at hr
    exact hr
  · obtain ⟨r, hr, -, hrv⟩ := asInteger_eq hne hdigits neg
    exact ⟨r, hr, hrv⟩

theorem minVal_prints_and_reads : (small minVal).printString = some "-2305843009213693952".toList ∧
      ∃ r, asInteger "-2305843009213693952".toList = some (some r) ∧ r.equal (small minVal) = true := by
  obtain ⟨hprint, -, r, hread, -, hequal⟩ := prints_and_reads.1 (small minVal) (show fits minVal = true by decide)
  have hnumeral : numeral (small minVal).toInt = "-2305843009213693952".toList := by decide
  rw [hnumeral] at hprint hread
  exact ⟨hprint, r, hread, hequal (show fits minVal = true by decide)⟩

end WinArmVm.IntegerOop
