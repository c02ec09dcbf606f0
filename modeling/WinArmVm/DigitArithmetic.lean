import Mathlib.Data.Nat.Digits.Lemmas

namespace DigitArithmetic

open Nat List

variable {b : Nat}

/-- The lowest `n` digits of a sum, with a carry in. -/
def addCarry (b : Nat) : Nat → List Nat → List Nat → Nat → List Nat
  | 0, _, _, _ => []
  | n + 1, x, y, c =>
    let s := x.headD 0 + y.headD 0 + c
    s % b :: addCarry b n x.tail y.tail (s / b)

def subBorrow (b : Nat) : List Nat → List Nat → Nat → List Nat
  | [], _, _ => []
  | d :: x, y, borrow =>
    let s := (d : Int) - (y.headD 0 : Int) - borrow
    if s < 0 then (s + b).toNat :: subBorrow b x y.tail 1
    else s.toNat :: subBorrow b x y.tail 0

/-- The first difference among the lowest `n` digits, from the top. -/
def compareFrom (x y : List Nat) : Nat → Int
  | 0 => 0
  | i + 1 =>
    if y.getD i 0 < x.getD i 0 then 1
    else if x.getD i 0 < y.getD i 0 then -1
    else compareFrom x y i

def compareDigits (x y : List Nat) : Int :=
  if y.length < x.length then 1
  else if x.length < y.length then -1
  else compareFrom x y x.length

/-- A carry into a number; `none` is a carry out of its top. -/
def carryInto (b : Nat) : List Nat → Nat → Option (List Nat)
  | r, 0 => some r
  | [], _ + 1 => none
  | s :: r, c + 1 =>
    let t := s + (c + 1)
    (carryInto b r (t / b)).map (t % b :: ·)

def mulRow (b d : Nat) : List Nat → List Nat → Nat → Option (List Nat)
  | [], r, c => carryInto b r c
  | _ :: _, [], _ => none
  | e :: y, s :: r, c =>
    let t := s + d * e + c
    (mulRow b d y r (t / b)).map (t % b :: ·)

def mulRows (b : Nat) : List Nat → List Nat → List Nat → Option (List Nat)
  | [], _, r => some r
  | d :: x, y, r =>
    (mulRow b d y r 0).bind fun
      | [] => none
      | s :: r => (mulRows b x y r).map (s :: ·)

theorem ofDigits_head_tail (b : Nat) (x : List Nat) : ofDigits b x = x.headD 0 + b * ofDigits b x.tail := by
  cases x with
  | nil => simp
  | cons d x => simp [ofDigits_cons]

theorem addCarry_lt (hb : 0 < b) (n : Nat) (x y : List Nat) (c : Nat) : ∀ d ∈ addCarry b n x y c, d < b := by
  induction n generalizing x y c with
  | zero =>
    intro d hd
    cases hd
  | succ n ih =>
    intro d hd
    rcases mem_cons.mp hd with rfl | hd
    · exact mod_lt _ hb
    · exact ih _ _ _ d hd

variable {x y : List Nat} {x : List Nat} {c : Nat} {borrow : Nat} {n : Nat} {d : Nat}

theorem ofDigits_addCarry (hfit : ofDigits b x + ofDigits b y + c < b ^ n) :
    ofDigits b (addCarry b n x y c) = ofDigits b x + ofDigits b y + c := by
  induction n generalizing x y c with
  | zero =>
    rw [Nat.pow_zero] at hfit
    have hzero : ofDigits b x + ofDigits b y + c = 0 := by omega
    rw [hzero]
    rfl
  | succ n ih =>
    have hx := ofDigits_head_tail b x
    have hy := ofDigits_head_tail b y
    generalize hs : x.headD 0 + y.headD 0 + c = s
    have hdiv := Nat.div_add_mod s b
    have htotal : ofDigits b x + ofDigits b y + c =
        s % b + b * (ofDigits b x.tail + ofDigits b y.tail + s / b) := by
      rw [hx, hy]
      calc x.headD 0 + b * ofDigits b x.tail + (y.headD 0 + b * ofDigits b y.tail) + c
          = s + b * (ofDigits b x.tail + ofDigits b y.tail) := by rw [← hs]; ring
        _ = (b * (s / b) + s % b) + b * (ofDigits b x.tail + ofDigits b y.tail) := by rw [hdiv]
        _ = s % b + b * (ofDigits b x.tail + ofDigits b y.tail + s / b) := by ring
    have hrest : ofDigits b x.tail + ofDigits b y.tail + s / b < b ^ n := by
      rw [htotal, Nat.pow_succ] at hfit
      have : b * (ofDigits b x.tail + ofDigits b y.tail + s / b) < b * b ^ n := by
        rw [Nat.mul_comm b (b ^ n)]
        omega
      exact Nat.lt_of_mul_lt_mul_left this
    unfold addCarry
    rw [hs, Nat.ofDigits_cons, ih hrest, htotal]

theorem length_subBorrow (b : Nat) (x y : List Nat) (borrow : Nat) : (subBorrow b x y borrow).length = x.length := by
  induction x generalizing y borrow with
  | nil => rfl
  | cons d x ih =>
    unfold subBorrow
    dsimp only
    split
    all_goals rw [length_cons, length_cons, ih]

theorem subBorrow_lt (hx : ∀ d ∈ x, d < b) (hy : ∀ d ∈ y, d < b)
    (hborrow : borrow ≤ 1) : ∀ d ∈ subBorrow b x y borrow, d < b := by
  induction x generalizing y borrow with
  | nil =>
    intro d hd
    cases hd
  | cons e x ih =>
    have he := hx e mem_cons_self
    have hx' : ∀ d ∈ x, d < b := fun d hd => hx d (mem_cons_of_mem e hd)
    have hy' : ∀ d ∈ y.tail, d < b := fun d hd => hy d (mem_of_mem_tail hd)
    intro d hd
    unfold subBorrow at hd
    dsimp only at hd
    split at hd
    next hneg =>
      rcases mem_cons.mp hd with rfl | hd
      · omega
      · exact ih hx' hy' (le_refl 1) d hd
    next hneg =>
      rcases mem_cons.mp hd with rfl | hd
      · omega
      · exact ih hx' hy' (zero_le 1) d hd

theorem ofDigits_subBorrow (hb : 0 < b) (hy : ∀ d ∈ y, d < b) (hlen : y.length ≤ x.length) (hborrow : borrow ≤ 1) :
    ∃ out : Nat, out ≤ 1 ∧ ofDigits b (subBorrow b x y borrow) + ofDigits b y + borrow =
      ofDigits b x + out * b ^ x.length := by
  induction x generalizing y borrow with
  | nil =>
    have hnil : y = [] := eq_nil_of_length_eq_zero (le_zero.mp hlen)
    refine ⟨borrow, hborrow, ?_⟩
    rw [hnil]
    simp [subBorrow]
  | cons d x ih =>
    have hy' : ∀ d ∈ y.tail, d < b := fun e he => hy e (mem_of_mem_tail he)
    have hlen' : y.tail.length ≤ x.length := by
      rw [length_tail]
      rw [length_cons] at hlen
      omega
    have hhead : y.headD 0 < b := by
      cases y with
      | nil => exact hb
      | cons e y => exact hy e mem_cons_self
    have hyval := ofDigits_head_tail b y
    have hpow : ∀ out, out * b ^ (x.length + 1) = b * (out * b ^ x.length) := by
      intro out
      ring
    unfold subBorrow
    dsimp only
    split
    next hneg =>
      obtain ⟨out, hout, he⟩ := ih hy' hlen' (le_refl 1)
      refine ⟨out, hout, ?_⟩
      have hmul := congrArg (b * ·) he
      simp only [mul_add] at hmul
      rw [ofDigits_cons, ofDigits_cons, hyval, length_cons, hpow]
      omega
    next hneg =>
      obtain ⟨out, hout, he⟩ := ih hy' hlen' (zero_le 1)
      refine ⟨out, hout, ?_⟩
      have hmul := congrArg (b * ·) he
      simp only [mul_add] at hmul
      rw [ofDigits_cons, ofDigits_cons, hyval, length_cons, hpow]
      omega

theorem carryInto_spec (hb : 0 < b) {r : List Nat} (hr : ∀ d ∈ r, d < b) (hfit : ofDigits b r + c < b ^ r.length) :
    ∃ r', carryInto b r c = some r' ∧ ofDigits b r' = ofDigits b r + c ∧ r'.length = r.length ∧
      ∀ d ∈ r', d < b := by
  induction r generalizing c with
  | nil =>
    rw [length_nil, Nat.pow_zero] at hfit
    have hc : c = 0 := by omega
    rw [hc]
    exact ⟨[], rfl, rfl, rfl, hr⟩
  | cons s r ih =>
    cases c with
    | zero => exact ⟨s :: r, rfl, rfl, rfl, hr⟩
    | succ c =>
      have hdiv := Nat.div_add_mod (s + (c + 1)) b
      rw [Nat.ofDigits_cons, length_cons, Nat.pow_succ, Nat.mul_comm (b ^ r.length) b] at hfit
      have hrest : ofDigits b r + (s + (c + 1)) / b < b ^ r.length := by
        apply Nat.lt_of_mul_lt_mul_left (a := b)
        rw [Nat.mul_add]
        omega
      obtain ⟨q, hq, hval, hlen, hlt⟩ := ih (fun d hd => hr d (mem_cons_of_mem s hd)) hrest
      refine ⟨(s + (c + 1)) % b :: q, ?_, ?_, ?_, fun d hd => ?_⟩
      · unfold carryInto
        dsimp only
        rw [hq]
        rfl
      · rw [Nat.ofDigits_cons, Nat.ofDigits_cons, hval, Nat.mul_add]
        omega
      · rw [length_cons, length_cons, hlen]
      · rcases mem_cons.mp hd with rfl | hd
        · exact Nat.mod_lt _ hb
        · exact hlt d hd

theorem mulRow_spec (hb : 0 < b) {y r : List Nat} (hr : ∀ e ∈ r, e < b)
    (hlen : y.length ≤ r.length) (hfit : ofDigits b r + d * ofDigits b y + c < b ^ r.length) :
    ∃ r', mulRow b d y r c = some r' ∧ ofDigits b r' = ofDigits b r + d * ofDigits b y + c ∧
      r'.length = r.length ∧ ∀ e ∈ r', e < b := by
  induction y generalizing r c with
  | nil =>
    rw [Nat.ofDigits_nil, Nat.mul_zero, Nat.add_zero] at hfit ⊢
    have := carryInto_spec hb hr hfit
    cases r with
    | nil => exact this
    | cons s r => exact this
  | cons e y ih =>
    cases r with
    | nil =>
      rw [length_cons, length_nil] at hlen
      omega
    | cons s r =>
      have hdiv := Nat.div_add_mod (s + d * e + c) b
      have hrow : d * ofDigits b (e :: y) = d * e + b * (d * ofDigits b y) := by
        rw [Nat.ofDigits_cons]
        ring
      rw [hrow, Nat.ofDigits_cons, length_cons, Nat.pow_succ, Nat.mul_comm (b ^ r.length) b] at hfit
      have hrest : ofDigits b r + d * ofDigits b y + (s + d * e + c) / b < b ^ r.length := by
        apply Nat.lt_of_mul_lt_mul_left (a := b)
        rw [Nat.mul_add, Nat.mul_add]
        omega
      rw [length_cons, length_cons] at hlen
      obtain ⟨q, hq, hval, hqlen, hlt⟩ := ih (fun f hf => hr f (mem_cons_of_mem s hf)) (by omega) hrest
      refine ⟨(s + d * e + c) % b :: q, ?_, ?_, ?_, fun f hf => ?_⟩
      · unfold mulRow
        dsimp only
        rw [hq]
        rfl
      · rw [hrow, Nat.ofDigits_cons, Nat.ofDigits_cons, hval, Nat.mul_add, Nat.mul_add]
        omega
      · rw [length_cons, length_cons, hqlen]
      · rcases mem_cons.mp hf with rfl | hf
        · exact Nat.mod_lt _ hb
        · exact hlt f hf

theorem mulRows_spec (hb : 0 < b) {x y r : List Nat} (hr : ∀ e ∈ r, e < b) (hy : 0 < y.length)
    (hlen : x.length + y.length ≤ r.length + 1) (hfit : ofDigits b r + ofDigits b x * ofDigits b y < b ^ r.length) :
    ∃ r', mulRows b x y r = some r' ∧ ofDigits b r' = ofDigits b r + ofDigits b x * ofDigits b y ∧
      r'.length = r.length ∧ ∀ e ∈ r', e < b := by
  induction x generalizing r with
  | nil =>
    refine ⟨r, rfl, ?_, rfl, hr⟩
    rw [Nat.ofDigits_nil, Nat.zero_mul, Nat.add_zero]
  | cons d x ih =>
    have hprod : ofDigits b (d :: x) * ofDigits b y =
        d * ofDigits b y + b * (ofDigits b x * ofDigits b y) := by
      rw [Nat.ofDigits_cons]
      ring
    rw [length_cons] at hlen
    rw [hprod] at hfit ⊢
    obtain ⟨q, hq, hval, hqlen, hqlt⟩ := mulRow_spec (d := d) (c := 0) hb hr
      (show y.length ≤ r.length by omega) (by omega)
    cases q with
    | nil =>
      rw [length_nil] at hqlen
      omega
    | cons s q =>
      have hsq : s + b * ofDigits b q = ofDigits b r + d * ofDigits b y := by
        rw [← Nat.ofDigits_cons, hval, Nat.add_zero]
      rw [length_cons] at hqlen
      rw [← hqlen, Nat.pow_succ, Nat.mul_comm (b ^ q.length) b] at hfit
      have hrest : ofDigits b q + ofDigits b x * ofDigits b y < b ^ q.length := by
        apply Nat.lt_of_mul_lt_mul_left (a := b)
        rw [Nat.mul_add]
        omega
      obtain ⟨q', hq', hval', hlen', hlt'⟩ := ih (fun e he => hqlt e (mem_cons_of_mem s he)) (by omega) hrest
      refine ⟨s :: q', ?_, ?_, ?_, fun e he => ?_⟩
      · unfold mulRows
        rw [hq, Option.bind_some]
        dsimp only
        rw [hq']
        rfl
      · rw [Nat.ofDigits_cons, hval', Nat.mul_add]
        omega
      · rw [length_cons, hlen', hqlen]
      · rcases mem_cons.mp he with rfl | he
        · exact hqlt _ mem_cons_self
        · exact hlt' e he

def Trimmed (b : Nat) (x : List Nat) : Prop := (∀ d ∈ x, d < b) ∧ x ≠ [] ∧ (x.getLast? = some 0 → x = [0])

theorem ofDigits_lt (hb : 1 < b) (hx : ∀ d ∈ x, d < b) :
    ofDigits b x < b ^ x.length := Nat.ofDigits_lt_base_pow_length hb hx

theorem Trimmed.le (h : Trimmed b x) (hpos : 0 < ofDigits b x) : b ^ (x.length - 1) ≤ ofDigits b x := by
  obtain ⟨l, d, rfl⟩ : ∃ l d, x = l ++ [d] := ⟨_, _, (dropLast_append_getLast h.2.1).symm⟩
  have hd : d ≠ 0 := by
    intro hd
    have := h.2.2 (by rw [getLast?_concat, hd])
    rw [this] at hpos
    simp at hpos
  rw [Nat.ofDigits_append, Nat.ofDigits_singleton, length_append, length_singleton, Nat.add_sub_cancel]
  calc b ^ l.length = b ^ l.length * 1 := (Nat.mul_one _).symm
    _ ≤ b ^ l.length * d := Nat.mul_le_mul_left _ (Nat.pos_of_ne_zero hd)
    _ ≤ ofDigits b l + b ^ l.length * d := Nat.le_add_left _ _

theorem Trimmed.zero (h : Trimmed b x) (hzero : ofDigits b x = 0) : x = [0] := by
  apply h.2.2
  obtain ⟨l, d, rfl⟩ : ∃ l d, x = l ++ [d] := ⟨_, _, (dropLast_append_getLast h.2.1).symm⟩
  rw [Nat.ofDigits_append, Nat.ofDigits_singleton] at hzero
  rw [getLast?_concat]
  by_cases hb : b = 0
  · have := h.1 d (mem_append.mpr (.inr (mem_singleton.mpr rfl)))
    omega
  · have hpow : 0 < b ^ l.length := Nat.pow_pos (Nat.pos_of_ne_zero hb)
    have : b ^ l.length * d = 0 := by omega
    rcases Nat.mul_eq_zero.mp this with h | h
    · omega
    · rw [h]

theorem compareFrom_spec (hb : 1 < b) (hx : ∀ d ∈ x, d < b) (hy : ∀ d ∈ y, d < b)
    (hnx : n ≤ x.length) (hny : n ≤ y.length) :
    (compareFrom x y n = 1 ∧ ofDigits b (y.take n) < ofDigits b (x.take n)) ∨
      (compareFrom x y n = -1 ∧ ofDigits b (x.take n) < ofDigits b (y.take n)) ∨
      (compareFrom x y n = 0 ∧ x.take n = y.take n) := by
  induction n with
  | zero => exact .inr (.inr ⟨rfl, rfl⟩)
  | succ n ih =>
    have hsnoc : ∀ z : List Nat, n + 1 ≤ z.length → z.take (n + 1) = z.take n ++ [z.getD n 0] := by
      intro z hz
      rw [take_add_one, getD_eq_getElem?_getD, getElem?_eq_getElem (by omega)]
      rfl
    have hlow : ∀ z : List Nat, (∀ d ∈ z, d < b) → n + 1 ≤ z.length →
        ofDigits b (z.take n) < b ^ n := by
      intro z hz hlen
      have := ofDigits_lt hb (x := z.take n) fun d hd => hz d (mem_of_mem_take hd)
      rw [length_take, min_eq_left (by omega)] at this
      exact this
    have hval : ∀ z : List Nat, n + 1 ≤ z.length →
        ofDigits b (z.take (n + 1)) = ofDigits b (z.take n) + b ^ n * z.getD n 0 := by
      intro z hz
      rw [hsnoc z hz, ofDigits_append, ofDigits_singleton, length_take, min_eq_left (by omega)]
    -- a larger top digit outweighs everything below
    have htop : ∀ z w : List Nat, (∀ d ∈ z, d < b) → n + 1 ≤ z.length → n + 1 ≤ w.length →
        z.getD n 0 < w.getD n 0 → ofDigits b (z.take (n + 1)) < ofDigits b (w.take (n + 1)) := by
      intro z w hz hzl hwl hlt
      rw [hval z hzl, hval w hwl]
      have h₁ := hlow z hz hzl
      have h₂ : b ^ n * (z.getD n 0 + 1) ≤ b ^ n * w.getD n 0 := mul_le_mul_left _ hlt
      rw [mul_add, mul_one] at h₂
      omega
    unfold compareFrom
    split
    next hgt => exact .inl ⟨rfl, htop y x hy hny hnx hgt⟩
    next hgt =>
      split
      next hlt => exact .inr (.inl ⟨rfl, htop x y hx hnx hny hlt⟩)
      next hlt =>
        have heq : x.getD n 0 = y.getD n 0 := by omega
        rw [hval x hnx, hval y hny, heq]
        rcases ih (by omega) (by omega) with ⟨h, hval⟩ | ⟨h, hval⟩ | ⟨h, hsame⟩
        · exact .inl ⟨h, by omega⟩
        · exact .inr (.inl ⟨h, by omega⟩)
        · refine .inr (.inr ⟨h, ?_⟩)
          rw [hsnoc x hnx, hsnoc y hny, hsame, heq]

theorem compareDigits_spec (hb : 1 < b) (hx : Trimmed b x) (hy : Trimmed b y) :
    (compareDigits x y = 1 ∧ ofDigits b y < ofDigits b x) ∨ (compareDigits x y = -1 ∧ ofDigits b x < ofDigits b y) ∨
      (compareDigits x y = 0 ∧ x = y) := by
  have hshort : ∀ z w : List Nat, Trimmed b z → Trimmed b w → z.length < w.length →
      ofDigits b z < ofDigits b w := by
    intro z w hz hw hlen
    have h₁ := ofDigits_lt hb hz.1
    have hzpos := length_pos_iff.mpr hz.2.1
    have hpos : 0 < ofDigits b w := by
      by_contra hzero
      have := hw.zero (by omega)
      rw [this, length_singleton] at hlen
      omega
    have h₂ := hw.le hpos
    have h₃ : b ^ z.length ≤ b ^ (w.length - 1) := Nat.pow_le_pow_right (by omega) (by omega)
    omega
  unfold compareDigits
  split
  next hlen => exact .inl ⟨rfl, hshort y x hy hx hlen⟩
  next hlen =>
    split
    next hlen' => exact .inr (.inl ⟨rfl, hshort x y hx hy hlen'⟩)
    next hlen' =>
      have heq : y.length = x.length := by omega
      have h := compareFrom_spec hb hx.1 hy.1 (Nat.le_refl x.length) (Nat.le_of_eq heq.symm)
      rw [take_length, take_of_length_le (Nat.le_of_eq heq)] at h
      exact h

theorem div_digit (hd : 0 < d) (x b w : Nat) :
    (x + b * w) / d = (x + b * (w % d)) / d + b * (w / d) ∧ (x + b * w) % d = (x + b * (w % d)) % d := by
  have h : x + b * w = x + b * (w % d) + d * (b * (w / d)) := by
    calc x + b * w = x + b * (w % d + d * (w / d)) := by rw [mod_add_div]
      _ = x + b * (w % d) + d * (b * (w / d)) := by ring
  rw [h, add_mul_div_left _ _ hd, add_mul_mod_self_left]
  exact ⟨rfl, rfl⟩

theorem digit_lt {d x b w : Nat} (hx : x < b) (hw : w < d) : (x + b * w) / d < b := by
  rw [div_lt_iff_lt_mul (by omega)]
  calc x + b * w < b * (w + 1) := by rw [mul_add, mul_one]; omega
    _ ≤ b * d := mul_le_mul_left b hw

end DigitArithmetic
