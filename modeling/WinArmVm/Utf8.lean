import Mathlib.Data.List.Basic
import Mathlib.Data.Nat.Basic

namespace WinArmVm.ByteString

open List Option

/-- `(self at: i) asInteger` -/
def byteAt (s : List UInt8) (i : Nat) : Nat := (s.getD (i - 1) 0).toNat

def between (b lo hi : Nat) : Bool := lo ≤ b && b ≤ hi

def leadLength (b : Nat) : Option Nat :=
  if between b 0xC2 0xDF then some 2
  else if between b 0xE0 0xEF then some 3
  else if between b 0xF0 0xF4 then some 4
  else none

def utf8SequenceLengthAt (s : List UInt8) (i : Nat) : Option Nat :=
  if between i 1 s.length then
    let b := byteAt s i
    if b < 0x80 then some 1
    else
      match leadLength b with
      | none => none
      | some n =>
        if i + n - 1 > s.length then none
        else if (List.range' 2 (n - 1)).all fun k => between (byteAt s (i + k - 1)) 0x80 0xBF then some n
        else none
  else none

theorem leadLength_some {b n : Nat} (h : leadLength b = some n) :
    (n = 2 ∧ 0xC2 ≤ b ∧ b ≤ 0xDF) ∨ (n = 3 ∧ 0xE0 ≤ b ∧ b ≤ 0xEF) ∨ (n = 4 ∧ 0xF0 ≤ b ∧ b ≤ 0xF4) := by
  unfold leadLength between at h
  simp only [Bool.and_eq_true, decide_eq_true_eq] at h
  split at h
  next h₁ => cases some.inj h; omega
  next =>
    split at h
    next h₂ => cases some.inj h; omega
    next =>
      split at h
      next h₃ => cases some.inj h; omega
      next => cases h

theorem utf8SequenceLengthAt_pos {s : List UInt8} {i n : Nat} (h : utf8SequenceLengthAt s i = some n) : 0 < n := by
  obtain ⟨-, h⟩ := ite_none_right_eq_some.mp h
  dsimp only at h
  split at h
  next => cases h; omega
  next =>
    split at h
    next => cases h
    next n' hn =>
      obtain ⟨-, h⟩ := ite_none_left_eq_some.mp h
      obtain ⟨-, h⟩ := ite_none_right_eq_some.mp h
      cases h
      have := leadLength_some hn
      omega

/-- The loop of `utf8Size`, `n` sequences counted. -/
def utf8SizeFrom (s : List UInt8) (n i : Nat) : Option Nat :=
  if i ≤ s.length then
    match _h : utf8SequenceLengthAt s i with
    | none => none
    | some len => utf8SizeFrom s (n + 1) (i + len)
  else some n
termination_by s.length + 1 - i
decreasing_by
  have := utf8SequenceLengthAt_pos _h
  omega

def utf8Size (s : List UInt8) : Option Nat := utf8SizeFrom s 0 1

def isValidUtf8 (s : List UInt8) : Bool := (utf8Size s).isSome

def codePointAt (s : List UInt8) (i : Nat) : Option Nat :=
  match utf8SequenceLengthAt s i with
  | none => none
  | some len =>
    let b := byteAt s i
    if len = 1 then some b
    else
      let acc := if len = 2 then b &&& 0x1F else if len = 3 then b &&& 0x0F else b &&& 0x07
      some ((List.range' 2 (len - 1)).foldl (fun acc k => (acc <<< 6) + (byteAt s (i + k - 1) &&& 0x3F)) acc)

/-- The loop of `utf8Do:`, the block as what it makes of its state. -/
def utf8DoFrom {β : Type} (s : List UInt8) (aBlock : β → Option Nat → β) (state : β) (i : Nat) : β :=
  if i ≤ s.length then
    match _h : utf8SequenceLengthAt s i with
    | none => state
    | some len => utf8DoFrom s aBlock (aBlock state (codePointAt s i)) (i + len)
  else state
termination_by s.length + 1 - i
decreasing_by
  have := utf8SequenceLengthAt_pos _h
  omega

def utf8Do {β : Type} (s : List UInt8) (aBlock : β → Option Nat → β) (state : β) : β := utf8DoFrom s aBlock state 1

def codePoints (s : List UInt8) : List (Option Nat) := utf8Do s (fun out cp => out ++ [cp]) []

def Tail (b : UInt8) : Prop := 0x80 ≤ b.toNat ∧ b.toNat ≤ 0xBF

/-- A lead byte with as many continuation bytes as it announces. -/
inductive Shaped : List UInt8 → Prop
  | one {a : UInt8} (ha : a.toNat < 0x80) : Shaped [a]
  | two {a b : UInt8} (ha : 0xC2 ≤ a.toNat ∧ a.toNat ≤ 0xDF) (hb : Tail b) : Shaped [a, b]
  | three {a b c : UInt8} (ha : 0xE0 ≤ a.toNat ∧ a.toNat ≤ 0xEF) (hb : Tail b) (hc : Tail c) : Shaped [a, b, c]
  | four {a b c d : UInt8} (ha : 0xF0 ≤ a.toNat ∧ a.toNat ≤ 0xF4) (hb : Tail b) (hc : Tail c) (hd : Tail d) :
      Shaped [a, b, c, d]

def Skewed : List UInt8 → Prop
  | a :: b :: _ => (a.toNat = 0xE0 ∧ b.toNat < 0xA0) ∨ (a.toNat = 0xED ∧ 0xA0 ≤ b.toNat) ∨
      (a.toNat = 0xF0 ∧ b.toNat < 0x90) ∨ (a.toNat = 0xF4 ∧ 0x90 ≤ b.toNat)
  | _ => False

def value : List UInt8 → Nat
  | [a] => a.toNat
  | [a, b] => a.toNat % 32 * 64 + b.toNat % 64
  | [a, b, c] => (a.toNat % 16 * 64 + b.toNat % 64) * 64 + c.toNat % 64
  | [a, b, c, d] => ((a.toNat % 8 * 64 + b.toNat % 64) * 64 + c.toNat % 64) * 64 + d.toNat % 64
  | _ => 0

theorem skewed_cons {a b : UInt8} {x : List UInt8} : Skewed (a :: b :: x) ↔ (a.toNat = 0xE0 ∧ b.toNat < 0xA0) ∨
    (a.toNat = 0xED ∧ 0xA0 ≤ b.toNat) ∨ (a.toNat = 0xF0 ∧ b.toNat < 0x90) ∨ (a.toNat = 0xF4 ∧ 0x90 ≤ b.toNat) := Iff.rfl

theorem value_one (a : UInt8) : value [a] = a.toNat := rfl

theorem value_two (a b : UInt8) : value [a, b] = a.toNat % 32 * 64 + b.toNat % 64 := rfl

theorem value_three (a b c : UInt8) : value [a, b, c] = (a.toNat % 16 * 64 + b.toNat % 64) * 64 + c.toNat % 64 := rfl

theorem value_four (a b c d : UInt8) :
    value [a, b, c, d] = ((a.toNat % 8 * 64 + b.toNat % 64) * 64 + c.toNat % 64) * 64 + d.toNat % 64 := rfl

variable {s x y rest : List UInt8} {p n : Nat}

theorem byteAt_drop (h : s.drop p = x ++ rest) (k : Nat) (hk : k < x.length) : byteAt s (p + 1 + k) = (x.getD k 0).toNat := by
  have hget : s.getD (p + k) 0 = (s.drop p).getD k 0 := by
    simp [getD_eq_getElem?_getD]
  unfold byteAt
  rw [show p + 1 + k - 1 = p + k by omega, hget, h, getD_eq_getElem?_getD, getElem?_append_left hk,
    getD_eq_getElem?_getD]

theorem length_of_drop (h : s.drop p = x ++ rest) (hx : x ≠ []) : p + x.length + rest.length = s.length := by
  have hlen := congrArg List.length h
  have hpos := length_pos_of_ne_nil hx
  rw [length_drop, length_append] at hlen
  omega

theorem Shaped.ne_nil (h : Shaped x) : x ≠ [] := by
  cases h <;> exact cons_ne_nil _ _

theorem length_of_tail {i : Nat} (hin : between i 1 s.length = true) (hlead : leadLength (byteAt s i) = some n)
    (hfit : i + n - 1 ≤ s.length) (htail : ∀ k, 2 ≤ k → k ≤ n → between (byteAt s (i + k - 1)) 0x80 0xBF = true) :
    utf8SequenceLengthAt s i = some n := by
  have hb := leadLength_some hlead
  have hall : ((List.range' 2 (n - 1)).all fun k => between (byteAt s (i + k - 1)) 0x80 0xBF) = true := by
    rw [List.all_eq_true]
    intro k hk
    obtain ⟨hlow, hhigh⟩ := mem_range'_1.mp hk
    exact htail k hlow (by omega)
  unfold utf8SequenceLengthAt
  rw [if_pos hin]
  rw [if_neg (by omega), hlead]
  dsimp only
  rw [if_neg (by omega), if_pos hall]

theorem between_iff {b lo hi : Nat} : between b lo hi = true ↔ lo ≤ b ∧ b ≤ hi := by
  unfold between
  rw [Bool.and_eq_true, decide_eq_true_eq, decide_eq_true_eq]

variable {b : Nat}

theorem leadLength_two (h : 0xC2 ≤ b ∧ b ≤ 0xDF) : leadLength b = some 2 := if_pos (between_iff.mpr h)

theorem leadLength_three (h : 0xE0 ≤ b ∧ b ≤ 0xEF) : leadLength b = some 3 := by
  unfold leadLength
  rw [if_neg (by rw [between_iff]; omega), if_pos (between_iff.mpr h)]

theorem leadLength_four (h : 0xF0 ≤ b ∧ b ≤ 0xF4) : leadLength b = some 4 := by
  unfold leadLength
  rw [if_neg (by rw [between_iff]; omega), if_neg (by rw [between_iff]; omega), if_pos (between_iff.mpr h)]

theorem Shaped.length (h : s.drop p = x ++ rest) (hx : Shaped x) : utf8SequenceLengthAt s (p + 1) = some x.length := by
  have hlen := length_of_drop h hx.ne_nil
  have hpos := length_pos_of_ne_nil hx.ne_nil
  have hfirst : byteAt s (p + 1) = (x.getD 0 0).toNat := byteAt_drop h 0 hpos
  have hin : between (p + 1) 1 s.length = true := between_iff.mpr (by omega)
  have hnext : ∀ k, 2 ≤ k → k ≤ x.length → byteAt s (p + 1 + k - 1) = (x.getD (k - 1) 0).toNat := by
    intro k hlow hhigh
    rw [show p + 1 + k - 1 = p + 1 + (k - 1) by omega]
    exact byteAt_drop h (k - 1) (by omega)
  have hfit : p + 1 + x.length - 1 ≤ s.length := by omega
  cases hx with
  | one ha =>
    unfold utf8SequenceLengthAt
    rw [if_pos hin]
    exact if_pos (by rw [hfirst]; exact ha)
  | two ha hb =>
    refine length_of_tail hin (by rw [hfirst]; exact leadLength_two ha) hfit fun k hlow hhigh => ?_
    rw [hnext k hlow hhigh]
    have hhigh : k ≤ 2 := hhigh
    obtain rfl : k = 2 := by omega
    exact between_iff.mpr hb
  | three ha hb hc =>
    refine length_of_tail hin (by rw [hfirst]; exact leadLength_three ha) hfit fun k hlow hhigh => ?_
    rw [hnext k hlow hhigh]
    have hhigh : k ≤ 3 := hhigh
    obtain rfl | rfl : k = 2 ∨ k = 3 := by omega
    · exact between_iff.mpr hb
    · exact between_iff.mpr hc
  | four ha hb hc hd =>
    refine length_of_tail hin (by rw [hfirst]; exact leadLength_four ha) hfit fun k hlow hhigh => ?_
    rw [hnext k hlow hhigh]
    have hhigh : k ≤ 4 := hhigh
    obtain rfl | rfl | rfl : k = 2 ∨ k = 3 ∨ k = 4 := by omega
    · exact between_iff.mpr hb
    · exact between_iff.mpr hc
    · exact between_iff.mpr hd

theorem shaped_of_length (h : utf8SequenceLengthAt s (p + 1) = some n) :
    ∃ x rest, s.drop p = x ++ rest ∧ Shaped x ∧ x.length = n := by
  have hin : p < s.length ∧ (byteAt s (p + 1) < 0x80 ∧ n = 1 ∨ leadLength (byteAt s (p + 1)) = some n ∧ p + n ≤ s.length ∧
      ∀ k, 2 ≤ k → k ≤ n → Tail (s.getD (p + k - 1) 0)) := by
    obtain ⟨hin, h⟩ := ite_none_right_eq_some.mp h
    have hin := between_iff.mp hin
    dsimp only at h
    refine ⟨by omega, ?_⟩
    split at h
    next hb =>
      cases h
      exact .inl ⟨hb, rfl⟩
    next =>
      right
      split at h
      next => cases h
      next n' hn =>
        obtain ⟨hfit, h⟩ := ite_none_left_eq_some.mp h
        obtain ⟨hall, h⟩ := ite_none_right_eq_some.mp h
        cases h
        refine ⟨hn, by omega, fun k hlow hhigh => ?_⟩
        have hk := all_eq_true.mp hall k (mem_range'_1.mpr ⟨hlow, by omega⟩)
        have hk := between_iff.mp hk
        unfold byteAt at hk
        rw [show p + 1 + k - 1 - 1 = p + k - 1 by omega] at hk
        exact hk
  obtain ⟨hp, hcase⟩ := hin
  have hsplit : ∀ m, p + m ≤ s.length → s.drop p = (s.drop p).take m ++ s.drop (p + m) := by
    intro m _
    rw [← drop_drop, take_append_drop]
  have hcons : ∀ q, q < s.length → s.drop q = s.getD q 0 :: s.drop (q + 1) := by
    intro q hq
    rw [drop_eq_getElem_cons hq, getD_eq_getElem?_getD, getElem?_eq_getElem hq]
    rfl
  have hbyte : byteAt s (p + 1) = (s.getD p 0).toNat := rfl
  rw [hbyte] at hcase
  rcases hcase with ⟨hb, rfl⟩ | ⟨hlead, hfit, htail⟩
  · exact ⟨[_], _, hcons p hp, .one hb, rfl⟩
  · rcases leadLength_some hlead with ⟨rfl, ha⟩ | ⟨rfl, ha⟩ | ⟨rfl, ha⟩
    · refine ⟨[_, _], s.drop (p + 1 + 1), ?_, .two ha (htail 2 (by omega) (by omega)), rfl⟩
      rw [hcons p hp, hcons (p + 1) (by omega)]
      rfl
    · refine ⟨[_, _, _], s.drop (p + 1 + 1 + 1), ?_, .three ha (htail 2 (by omega) (by omega)) (htail 3 (by omega) (by omega)), rfl⟩
      rw [hcons p hp, hcons (p + 1) (by omega), hcons (p + 1 + 1) (by omega)]
      rfl
    · refine ⟨[_, _, _, _], s.drop (p + 1 + 1 + 1 + 1), ?_, .four ha (htail 2 (by omega) (by omega))
        (htail 3 (by omega) (by omega)) (htail 4 (by omega) (by omega)), rfl⟩
      rw [hcons p hp, hcons (p + 1) (by omega), hcons (p + 1 + 1) (by omega), hcons (p + 1 + 1 + 1) (by omega)]
      rfl

theorem Shaped.codePoint (h : s.drop p = x ++ rest) (hx : Shaped x) : codePointAt s (p + 1) = some (value x) := by
  have hpos := length_pos_of_ne_nil hx.ne_nil
  have hfirst : byteAt s (p + 1) = (x.getD 0 0).toNat := byteAt_drop h 0 hpos
  have hnext : ∀ k, k < x.length → byteAt s (p + 1 + k) = (x.getD k 0).toNat := byteAt_drop h
  have hmask : ∀ b : Nat, b &&& 0x3F = b % 64 := fun b => Nat.and_two_pow_sub_one_eq_mod b 6
  have hshift : ∀ b : Nat, b <<< 6 = b * 64 := fun b => Nat.shiftLeft_eq b 6
  unfold codePointAt
  rw [hx.length h]
  cases hx with
  | one ha => exact congrArg some hfirst
  | two ha hb =>
    have h1 := hnext 1 (show 1 < 2 by decide)
    show some (((byteAt s (p + 1) &&& 0x1F) <<< 6) + (byteAt s (p + 1 + 1) &&& 0x3F)) = _
    rw [hfirst, h1, hmask, hshift, Nat.and_two_pow_sub_one_eq_mod _ 5]
    rfl
  | three ha hb hc =>
    have h1 := hnext 1 (show 1 < 3 by decide)
    have h2 := hnext 2 (show 2 < 3 by decide)
    show some (((((byteAt s (p + 1) &&& 0x0F) <<< 6) + (byteAt s (p + 1 + 1) &&& 0x3F)) <<< 6) +
      (byteAt s (p + 1 + 2) &&& 0x3F)) = _
    rw [hfirst, h1, h2, hmask, hmask, hshift, hshift, Nat.and_two_pow_sub_one_eq_mod _ 4]
    rfl
  | four ha hb hc hd =>
    have h1 := hnext 1 (show 1 < 4 by decide)
    have h2 := hnext 2 (show 2 < 4 by decide)
    have h3 := hnext 3 (show 3 < 4 by decide)
    show some (((((((byteAt s (p + 1) &&& 0x07) <<< 6) + (byteAt s (p + 1 + 1) &&& 0x3F)) <<< 6) +
      (byteAt s (p + 1 + 2) &&& 0x3F)) <<< 6) + (byteAt s (p + 1 + 3) &&& 0x3F)) = _
    rw [hfirst, h1, h2, h3, hmask, hmask, hmask, hshift, hshift, hshift, Nat.and_two_pow_sub_one_eq_mod _ 3]
    rfl

variable {chunks : List (List UInt8)}

theorem drop_past (h : s.drop p = x ++ rest) : s.drop (p + x.length) = rest := by
  rw [← drop_drop, h, drop_left]

theorem utf8SizeFrom_chunks (hs : ∀ x ∈ chunks, Shaped x) (h : s.drop p = chunks.flatten) (n : Nat) :
    utf8SizeFrom s n (p + 1) = some (n + chunks.length) := by
  induction chunks generalizing p n with
  | nil =>
    have hlen := congrArg List.length h
    rw [flatten_nil, length_drop, length_nil] at hlen
    unfold utf8SizeFrom
    rw [if_neg (by omega)]
    rfl
  | cons x chunks ih =>
    have hx := hs x mem_cons_self
    have hlen := length_of_drop h hx.ne_nil
    have hpos := length_pos_of_ne_nil hx.ne_nil
    unfold utf8SizeFrom
    rw [if_pos (by omega), hx.length h]
    show utf8SizeFrom s (n + 1) (p + 1 + x.length) = _
    rw [Nat.add_right_comm p 1, ih (fun y hy => hs y (mem_cons_of_mem x hy)) (drop_past h), length_cons]
    congr 1
    omega

theorem chunks_of_utf8SizeFrom {m : Nat} (hp : p ≤ s.length) (h : utf8SizeFrom s n (p + 1) = some m) :
    ∃ chunks : List (List UInt8), (∀ x ∈ chunks, Shaped x) ∧ s.drop p = chunks.flatten := by
  induction hk : s.length - p using Nat.strong_induction_on generalizing p n with
  | _ k ih =>
    unfold utf8SizeFrom at h
    split at h
    next hin =>
      split at h
      next => cases h
      next len hl =>
        obtain ⟨x, rest, hdrop, hx, rfl⟩ := shaped_of_length hl
        have hlen := length_of_drop hdrop hx.ne_nil
        have hpos := length_pos_of_ne_nil hx.ne_nil
        rw [Nat.add_right_comm p 1] at h
        obtain ⟨chunks, hs, hflat⟩ := ih _ (by omega) (by omega) h rfl
        rw [drop_past hdrop] at hflat
        refine ⟨x :: chunks, fun y hy => ?_, by rw [hdrop, hflat]; rfl⟩
        rcases mem_cons.mp hy with rfl | hy
        · exact hx
        · exact hs y hy
    next hout =>
      refine ⟨[], fun x hx => (nomatch hx), ?_⟩
      exact drop_eq_nil_of_le (by omega)

theorem utf8DoFrom_chunks {β : Type} {aBlock : β → Option Nat → β} (hs : ∀ x ∈ chunks, Shaped x)
    (h : s.drop p = chunks.flatten) (state : β) :
    utf8DoFrom s aBlock state (p + 1) = (chunks.map fun x => some (value x)).foldl aBlock state := by
  induction chunks generalizing p state with
  | nil =>
    have hlen := congrArg List.length h
    rw [flatten_nil, length_drop, length_nil] at hlen
    unfold utf8DoFrom
    rw [if_neg (by omega)]
    rfl
  | cons x chunks ih =>
    have hx := hs x mem_cons_self
    have hlen := length_of_drop h hx.ne_nil
    have hpos := length_pos_of_ne_nil hx.ne_nil
    unfold utf8DoFrom
    rw [if_pos (by omega), hx.length h]
    show utf8DoFrom s aBlock (aBlock state (codePointAt s (p + 1))) (p + 1 + x.length) = _
    rw [hx.codePoint h, Nat.add_right_comm p 1, ih (fun y hy => hs y (mem_cons_of_mem x hy)) (drop_past h)]
    rfl

theorem codePoints_chunks (hs : ∀ x ∈ chunks, Shaped x) (h : s = chunks.flatten) :
    codePoints s = chunks.map fun x => some (value x) := by
  have hfold : ∀ (cs out : List (Option Nat)), cs.foldl (fun out cp => out ++ [cp]) out = out ++ cs := by
    intro cs
    induction cs with
    | nil => exact fun out => (append_nil out).symm
    | cons c cs ih =>
      intro out
      rw [foldl_cons, ih, append_assoc]
      rfl
  have hrun := @utf8DoFrom_chunks s 0 chunks _ (fun out cp => out ++ [cp]) hs h []
  rw [hfold, nil_append] at hrun
  exact hrun

theorem Shaped.unique (hx : Shaped x) (hy : Shaped y) {rest' : List UInt8} (h : x ++ rest = y ++ rest') : x = y ∧ rest = rest' := by
  have hl := @Shaped.length (x ++ rest) x rest 0 rfl hx
  have hl' := @Shaped.length (x ++ rest) y rest' 0 h hy
  rw [hl] at hl'
  exact append_inj h (some.inj hl')

theorem chunks_unique {chunks' : List (List UInt8)} (hs : ∀ x ∈ chunks, Shaped x) (hs' : ∀ x ∈ chunks', Shaped x)
    (h : chunks.flatten = chunks'.flatten) : chunks = chunks' := by
  induction chunks generalizing chunks' with
  | nil =>
    cases chunks' with
    | nil => rfl
    | cons y chunks' =>
      have hne := (hs' y mem_cons_self).ne_nil
      exact absurd (append_eq_nil_iff.mp h.symm).1 hne
  | cons x chunks ih =>
    cases chunks' with
    | nil =>
      have hne := (hs x mem_cons_self).ne_nil
      exact absurd (append_eq_nil_iff.mp h).1 hne
    | cons y chunks' =>
      obtain ⟨rfl, hrest⟩ := (hs x mem_cons_self).unique (hs' y mem_cons_self) h
      rw [ih (fun z hz => hs z (mem_cons_of_mem x hz)) (fun z hz => hs' z (mem_cons_of_mem x hz)) hrest]

theorem toNat_ofNat_lt {v : Nat} (h : v < 256) : (UInt8.ofNat v).toNat = v := UInt8.toNat_ofNat_of_lt' h

theorem encode_shaped (c : Char) : Shaped (String.utf8EncodeChar c) ∧ ¬ Skewed (String.utf8EncodeChar c) ∧
    value (String.utf8EncodeChar c) = c.toNat := by
  have hvalid : c.val.toNat < 0xD800 ∨ (0xDFFF < c.val.toNat ∧ c.val.toNat < 0x110000) := c.valid
  have hnat : c.toNat = c.val.toNat := rfl
  unfold String.utf8EncodeChar
  rw [hnat]
  generalize c.val.toNat = v at hvalid
  dsimp only
  split
  next h =>
    have ha := @toNat_ofNat_lt v (by omega)
    exact ⟨.one (by rw [ha]; omega), fun hs => hs, ha⟩
  next =>
    split
    next h =>
      have ha := @toNat_ofNat_lt (v / 64 % 0x20 + 0xC0) (by omega)
      have hb := @toNat_ofNat_lt (v % 0x40 + 0x80) (by omega)
      refine ⟨.two (by rw [ha]; omega) (by unfold Tail; rw [hb]; omega), fun hs => ?_, ?_⟩
      · rw [skewed_cons, ha, hb] at hs
        omega
      · rw [value_two, ha, hb]
        omega
    next =>
      split
      next h =>
        have ha := @toNat_ofNat_lt (v / 4096 % 0x10 + 0xE0) (by omega)
        have hb := @toNat_ofNat_lt (v / 64 % 0x40 + 0x80) (by omega)
        have hc := @toNat_ofNat_lt (v % 0x40 + 0x80) (by omega)
        refine ⟨.three (by rw [ha]; omega) (by unfold Tail; rw [hb]; omega) (by unfold Tail; rw [hc]; omega), fun hs => ?_, ?_⟩
        · rw [skewed_cons, ha, hb] at hs
          omega
        · rw [value_three, ha, hb, hc]
          omega
      next =>
        have ha := @toNat_ofNat_lt (v / 262144 % 0x08 + 0xF0) (by omega)
        have hb := @toNat_ofNat_lt (v / 4096 % 0x40 + 0x80) (by omega)
        have hc := @toNat_ofNat_lt (v / 64 % 0x40 + 0x80) (by omega)
        have hd := @toNat_ofNat_lt (v % 0x40 + 0x80) (by omega)
        refine ⟨.four (by rw [ha]; omega) (by unfold Tail; rw [hb]; omega) (by unfold Tail; rw [hc]; omega)
          (by unfold Tail; rw [hd]; omega), fun hs => ?_, ?_⟩
        · rw [skewed_cons, ha, hb] at hs
          omega
        · rw [value_four, ha, hb, hc, hd]
          omega

theorem exists_char {v : Nat} (h : v < 0xD800 ∨ (0xDFFF < v ∧ v < 0x110000)) : ∃ c : Char, c.val.toNat = v :=
  ⟨Char.ofNatAux v h, rfl⟩

theorem Shaped.encodes (hx : Shaped x) (hs : ¬ Skewed x) : ∃ c : Char, String.utf8EncodeChar c = x := by
  have hbyte : ∀ {v : Nat} {a : UInt8}, v = a.toNat → UInt8.ofNat v = a := by
    rintro v a rfl
    exact UInt8.ofNat_toNat
  cases hx with
  | @one a ha =>
    obtain ⟨c, hc⟩ := exists_char (v := value [a]) (.inl (by rw [value_one]; omega))
    refine ⟨c, ?_⟩
    unfold String.utf8EncodeChar
    rw [hc]
    rw [value_one]
    rw [if_pos (by omega), UInt8.ofNat_toNat]
  | @two a b ha hb =>
    unfold Tail at hb
    obtain ⟨c, hc⟩ := exists_char (v := value [a, b]) (.inl (by rw [value_two]; omega))
    refine ⟨c, ?_⟩
    unfold String.utf8EncodeChar
    rw [hc]
    rw [value_two]
    rw [if_neg (by omega), if_pos (by omega), List.cons.injEq, List.cons.injEq]
    exact ⟨hbyte (by omega), hbyte (by omega), rfl⟩
  | @three a b c ha hb hc =>
    unfold Tail at hb hc
    rw [skewed_cons] at hs
    obtain ⟨e, he⟩ := exists_char (v := value [a, b, c]) (by rw [value_three]; omega)
    refine ⟨e, ?_⟩
    unfold String.utf8EncodeChar
    rw [he]
    rw [value_three]
    rw [if_neg (by omega), if_neg (by omega), if_pos (by omega), List.cons.injEq, List.cons.injEq, List.cons.injEq]
    exact ⟨hbyte (by omega), hbyte (by omega), hbyte (by omega), rfl⟩
  | @four a b c d ha hb hc hd =>
    unfold Tail at hb hc hd
    rw [skewed_cons] at hs
    obtain ⟨e, he⟩ := exists_char (v := value [a, b, c, d]) (by rw [value_four]; omega)
    refine ⟨e, ?_⟩
    unfold String.utf8EncodeChar
    rw [he]
    rw [value_four]
    rw [if_neg (by omega), if_neg (by omega), if_neg (by omega), List.cons.injEq, List.cons.injEq, List.cons.injEq,
      List.cons.injEq]
    exact ⟨hbyte (by omega), hbyte (by omega), hbyte (by omega), hbyte (by omega), rfl⟩

def encode (cs : List Char) : List UInt8 := cs.flatMap String.utf8EncodeChar

/-- Validation is exact, the scalars are those that the bytes encode, and there is one such sequence. -/
structure Utf8Exact (s : List UInt8) : Prop where
  valid : isValidUtf8 s = true ↔ ∃ cs, s = encode cs
  decoded : ∀ cs, s = encode cs → codePoints s = cs.map (fun c => some c.toNat) ∧ utf8Size s = some cs.length
  unique : ∀ cs cs', s = encode cs → s = encode cs' → cs = cs'
  refused : (¬ ∃ cs, s = encode cs) → utf8Size s = none

def NoneSkewed (s : List UInt8) : Prop :=
  ∀ chunks : List (List UInt8), (∀ x ∈ chunks, Shaped x) → s = chunks.flatten → ∀ x ∈ chunks, ¬ Skewed x

theorem encode_chunks (cs : List Char) :
    encode cs = (cs.map String.utf8EncodeChar).flatten ∧ ∀ x ∈ cs.map String.utf8EncodeChar, Shaped x ∧ ¬ Skewed x := by
  refine ⟨flatMap_def .., fun x hx => ?_⟩
  obtain ⟨c, -, rfl⟩ := mem_map.mp hx
  exact ⟨(encode_shaped c).1, (encode_shaped c).2.1⟩

theorem chunks_encode (hs : ∀ x ∈ chunks, Shaped x ∧ ¬ Skewed x) : ∃ cs, chunks.flatten = encode cs := by
  induction chunks with
  | nil => exact ⟨[], rfl⟩
  | cons x chunks ih =>
    obtain ⟨hx, hskew⟩ := hs x mem_cons_self
    obtain ⟨c, hc⟩ := hx.encodes hskew
    obtain ⟨cs, hcs⟩ := ih fun y hy => hs y (mem_cons_of_mem x hy)
    refine ⟨c :: cs, ?_⟩
    rw [flatten_cons, hcs, ← hc]
    rfl

theorem utf8Size_some (h : (utf8Size s).isSome = true) : ∃ chunks : List (List UInt8), (∀ x ∈ chunks, Shaped x) ∧ s = chunks.flatten := by
  obtain ⟨m, hm⟩ := isSome_iff_exists.mp h
  exact chunks_of_utf8SizeFrom (p := 0) (Nat.zero_le _) hm

theorem encode_decoded {cs : List Char} (h : s = encode cs) :
    codePoints s = cs.map (fun c => some c.toNat) ∧ utf8Size s = some cs.length := by
  obtain ⟨hflat, hall⟩ := encode_chunks cs
  have hs : ∀ x ∈ cs.map String.utf8EncodeChar, Shaped x := fun x hx => (hall x hx).1
  constructor
  · rw [codePoints_chunks hs (h.trans hflat), List.map_map]
    exact map_congr_left fun c _ => congrArg some (encode_shaped c).2.2
  · have hsize := utf8SizeFrom_chunks (p := 0) hs (h.trans hflat) 0
    rw [length_map, Nat.zero_add cs.length] at hsize
    exact hsize

theorem encode_injective {cs cs' : List Char} (h : encode cs = encode cs') : cs = cs' := by
  have hcs := (encode_decoded (s := encode cs) rfl).1
  have hcs' := (encode_decoded (s := encode cs) h).1
  rw [hcs] at hcs'
  refine map_injective_iff.mpr (fun c c' hc => ?_) hcs'
  exact Char.toNat_inj.mp (some.inj hc)

/-- Validation is exact where no sequence is skewed, and only there. -/
theorem utf8Exact_iff (s : List UInt8) : Utf8Exact s ↔ NoneSkewed s := by
  constructor
  · intro h chunks hs hflat x hx
    have hsize := utf8SizeFrom_chunks (p := 0) hs hflat 0
    have hvalid : isValidUtf8 s = true := by
      unfold isValidUtf8 utf8Size
      rw [hsize]
      rfl
    obtain ⟨cs, hcs⟩ := h.valid.mp hvalid
    obtain ⟨hflat', hall⟩ := encode_chunks cs
    rw [chunks_unique hs (fun y hy => (hall y hy).1) (hflat.symm.trans (hcs.trans hflat'))] at hx
    exact (hall x hx).2
  · intro h
    have hencoded : (utf8Size s).isSome = true → ∃ cs, s = encode cs := by
      intro hsome
      obtain ⟨chunks, hs, hflat⟩ := utf8Size_some hsome
      obtain ⟨cs, hcs⟩ := chunks_encode fun x hx => ⟨hs x hx, h chunks hs hflat x hx⟩
      exact ⟨cs, hflat.trans hcs⟩
    refine ⟨⟨hencoded, ?_⟩, fun cs hcs => encode_decoded hcs, fun cs cs' hcs hcs' => ?_, fun hnot => ?_⟩
    · rintro ⟨cs, hcs⟩
      unfold isValidUtf8
      rw [(encode_decoded hcs).2]
      rfl
    · exact encode_injective (hcs.symm.trans hcs')
    · by_contra hsome
      exact hnot (hencoded (isSome_iff_ne_none.mpr hsome))

/-- `E0 80 80` is three bytes for U+0000. -/
theorem overlong_is_valid : isValidUtf8 [0xE0, 0x80, 0x80] = true ∧ utf8Size [0xE0, 0x80, 0x80] = some 1 ∧
    codePoints [0xE0, 0x80, 0x80] = [some 0] ∧ (¬ ∃ cs, [0xE0, 0x80, 0x80] = encode cs) ∧ ¬ Utf8Exact [0xE0, 0x80, 0x80] := by
  have hshaped : ∀ x ∈ [[0xE0, 0x80, 0x80]], Shaped x := by
    intro x hx
    rw [mem_singleton.mp hx]
    exact .three (by decide) ⟨by decide, by decide⟩ ⟨by decide, by decide⟩
  have hsize : utf8Size [0xE0, 0x80, 0x80] = some 1 := utf8SizeFrom_chunks (p := 0) hshaped rfl 0
  have hvalid : isValidUtf8 [0xE0, 0x80, 0x80] = true := by
    unfold isValidUtf8
    rw [hsize]
    rfl
  have hnot : ¬ ∃ cs, [0xE0, 0x80, 0x80] = encode cs := by
    rintro ⟨cs, hcs⟩
    obtain ⟨hflat, hall⟩ := encode_chunks cs
    have hone := chunks_unique hshaped (fun y hy => (hall y hy).1) (Eq.trans rfl (hcs.trans hflat))
    have hmem : [0xE0, 0x80, 0x80] ∈ cs.map String.utf8EncodeChar := by
      rw [← hone]
      exact mem_singleton.mpr rfl
    exact (hall _ hmem).2 (.inl ⟨by decide, by decide⟩)
  exact ⟨hvalid, hsize, codePoints_chunks hshaped rfl, hnot, fun h => hnot (h.valid.mp hvalid)⟩

end WinArmVm.ByteString
