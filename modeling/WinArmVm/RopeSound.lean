import Mathlib.Algebra.Group.Nat.Defs
import Mathlib.Data.List.GetD
import WinArmVm.Rope

namespace WinArmVm.Rope

open List

variable {α : Type}

def text : Rope α → List α
  | .leaf str _ => str
  | .branch left right _ _ _ _ _ => left.text ++ right.text

def height : Rope α → Nat
  | .leaf _ _ => 0
  | .branch left right _ _ _ _ _ => 1 + max left.height right.height

/-- `Part t u`: `t` is `u` or a node below it. -/
inductive Part : Rope α → Rope α → Prop
  | self (t) : Part t t
  | left {t l r w n s ns d} : Part t l → Part t (.branch l r w n s ns d)
  | right {t l r w n s ns d} : Part t r → Part t (.branch l r w n s ns d)

@[simp] theorem text_pair (l r : Rope α) : (pair l r).text = l.text ++ r.text := rfl

theorem putOn_eq (t : Rope α) : ∀ ws : List α, t.putOn ws = ws ++ t.text := by
  induction t with
  | leaf str n => intro ws; rfl
  | branch l r w n s ns d ihl ihr =>
    intro ws
    show r.putOn (l.putOn ws) = ws ++ (l.text ++ r.text)
    rw [ihl, ihr, append_assoc]

theorem asString_eq (t : Rope α) : t.asString = t.text := putOn_eq t []

def leaves : Rope α → List (List α)
  | .leaf str _ => if str = [] then [] else [str]
  | .branch left right _ _ _ _ _ => left.leaves ++ right.leaves

theorem collectLeavesInto_eq (t : Rope α) : ∀ coll : List (List α), t.collectLeavesInto coll = coll ++ t.leaves := by
  induction t with
  | leaf str n =>
    intro coll
    show (if str = [] then coll else coll ++ [str]) = coll ++ if str = [] then [] else [str]
    split <;> simp
  | branch l r w n s ns d ihl ihr =>
    intro coll
    show r.collectLeavesInto (l.collectLeavesInto coll) = coll ++ (l.leaves ++ r.leaves)
    rw [ihl, ihr, append_assoc]

theorem flatten_leaves (t : Rope α) : t.leaves.flatten = t.text := by
  induction t with
  | leaf str n =>
    show (if str = [] then [] else [str]).flatten = str
    split
    next h => rw [h]; rfl
    next => simp
  | branch l r w n s ns d ihl ihr =>
    show (l.leaves ++ r.leaves).flatten = l.text ++ r.text
    rw [flatten_append, ihl, ihr]

/-- The strings a rope is built from: none empty, none too long. -/
def Chunks (strings : List (List α)) : Prop := ∀ str ∈ strings, str ≠ [] ∧ str.length ≤ leafMax

theorem Chunks.length_le {strings : List (List α)} (h : Chunks strings) : strings.length ≤ strings.flatten.length := by
  induction strings with
  | nil => exact Nat.le_refl _
  | cons str rest ih =>
    have hne := (h str (mem_cons_self ..)).1
    have hpos := length_pos_iff.mpr hne
    have hrest := ih fun x hx => h x (mem_cons_of_mem _ hx)
    rw [flatten_cons, length_append, length_cons]
    omega

/-- The part of the strings that `balancedFrom` reads. -/
def slice (strings : List (List α)) (lo hi : Nat) : List (List α) := (strings.drop (lo - 1)).take (hi + 1 - lo)

theorem slice_split (strings : List (List α)) {lo mid hi : Nat} (hlo : 0 < lo) (h₁ : lo ≤ mid) (h₂ : mid ≤ hi) :
    slice strings lo mid ++ slice strings (mid + 1) hi = slice strings lo hi := by
  unfold slice
  have hdrop : strings.drop (mid + 1 - 1) = (strings.drop (lo - 1)).drop (mid + 1 - lo) := by
    rw [drop_drop]
    congr 1
    omega
  have hsum : hi + 1 - lo = (mid + 1 - lo) + (hi + 1 - (mid + 1)) := by omega
  rw [hdrop, hsum, take_add]

theorem chunksFrom_spec (str : List α) : ∀ {turns i : Nat}, 0 < i → str.length < turns + i →
    Chunks (chunksFrom str turns i) ∧ (chunksFrom str turns i).flatten = str.drop (i - 1) := by
  intro turns
  induction turns with
  | zero =>
    intro i _ h
    refine ⟨fun x hx => absurd hx (not_mem_nil), ?_⟩
    rw [drop_of_length_le (by omega)]
    rfl
  | succ turns ih =>
    intro i hi h
    unfold chunksFrom
    split
    next hle =>
      have hmax : leafMax = 64 := rfl
      obtain ⟨hchunks, hflat⟩ := ih (i := min (i + leafMax - 1) str.length + 1) (by omega) (by omega)
      have hlen : ((str.take (min (i + leafMax - 1) str.length)).drop (i - 1)).length =
          min (i + leafMax - 1) str.length - (i - 1) := by
        rw [length_drop, length_take, Nat.min_eq_left (Nat.min_le_right ..)]
      refine ⟨?_, ?_⟩
      · intro x hx
        rcases mem_cons.mp hx with rfl | hx
        · refine ⟨fun hnil => ?_, by rw [hlen]; omega⟩
          rw [hnil, length_nil] at hlen
          omega
        · exact hchunks x hx
      · rw [flatten_cons, hflat, Nat.add_sub_cancel, drop_take]
        have hcut : min (i + leafMax - 1) str.length = (i - 1) + (min (i + leafMax - 1) str.length - (i - 1)) := by
          omega
        have hrest : str.drop (min (i + leafMax - 1) str.length) =
            (str.drop (i - 1)).drop (min (i + leafMax - 1) str.length - (i - 1)) := by
          rw [drop_drop, ← hcut]
        rw [hrest, take_append_drop]
    next hgt =>
      refine ⟨fun x hx => absurd hx (not_mem_nil), ?_⟩
      rw [drop_of_length_le (by omega)]
      rfl

variable [DecidableEq α] {nl : α}

def Sound (nl : α) : Rope α → Prop
  | .leaf str n => n = str.count nl ∧ str.length ≤ leafMax
  | .branch l r weight leftNls size newlines depth =>
    l.Sound nl ∧ r.Sound nl ∧ weight = l.text.length ∧ leftNls = l.text.count nl ∧
      size = (l.text ++ r.text).length ∧ newlines = (l.text ++ r.text).count nl ∧
      depth = 1 + max l.depth r.depth ∧ depth ≤ budget size

variable {t : Rope α} {l r : Rope α}

theorem Sound.size_eq (h : t.Sound nl) : t.size = t.text.length := by
  cases t with
  | leaf str n => rfl
  | branch => exact h.2.2.2.2.1

theorem Sound.newlines_eq (h : t.Sound nl) : t.newlines = t.text.count nl := by
  cases t with
  | leaf str n => exact h.1
  | branch => exact h.2.2.2.2.2.1

theorem Sound.depth_le (h : t.Sound nl) : t.depth ≤ budget t.size := by
  cases t with
  | leaf str n => exact Nat.zero_le _
  | branch => exact h.2.2.2.2.2.2.2

theorem Sound.depth_eq : ∀ {t : Rope α}, t.Sound nl → t.depth = t.height := by
  intro t
  induction t with
  | leaf str n => intro _; rfl
  | branch l r w n s ns d ihl ihr =>
    intro h
    have hd : d = 1 + max l.depth r.depth := h.2.2.2.2.2.2.1
    show d = 1 + max l.height r.height
    rw [hd, ihl h.1, ihr h.2.1]

theorem Sound.part {t u : Rope α} (hp : Part t u) (h : u.Sound nl) : t.Sound nl := by
  induction hp with
  | self => exact h
  | left _ ih => exact ih h.1
  | right _ ih => exact ih h.2.1

theorem Sound.isEmpty_iff (h : t.Sound nl) : t.isEmpty = true ↔ t.text = [] := by
  unfold isEmpty
  rw [decide_eq_true_eq, h.size_eq, length_eq_zero_iff]

theorem on_sound {str : List α} (h : str.length ≤ leafMax) : (on nl str).Sound nl := ⟨rfl, h⟩

theorem empty_sound : (empty nl).Sound nl := on_sound (Nat.zero_le _)

@[simp] theorem text_on (str : List α) : (on nl str).text = str := rfl

@[simp] theorem text_empty : (empty nl).text = [] := rfl

theorem pair_sound (hl : l.Sound nl) (hr : r.Sound nl)
    (hd : 1 + max l.depth r.depth ≤ budget (l.text ++ r.text).length) : (pair l r).Sound nl := by
  have hsize : l.size + r.size = (l.text ++ r.text).length := by
    rw [hl.size_eq, hr.size_eq, length_append]
  refine ⟨hl, hr, hl.size_eq, hl.newlines_eq, hsize, ?_, rfl, ?_⟩
  · rw [hl.newlines_eq, hr.newlines_eq, count_append]
  · rw [hsize]
    exact hd

theorem Sound.chunks : t.Sound nl → Chunks t.leaves := by
  induction t with
  | leaf str n =>
    intro h x hx
    have hx' : x ∈ (if str = [] then [] else [str]) := hx
    split at hx'
    next => cases hx'
    next hne =>
      cases mem_singleton.mp hx'
      exact ⟨hne, h.2⟩
  | branch l r w n s ns d ihl ihr =>
    intro h x hx
    rcases mem_append.mp hx with hx | hx
    · exact ihl h.1 x hx
    · exact ihr h.2.1 x hx

theorem lt_two_pow_bitLength : ∀ {turns n : Nat}, n ≤ turns → n < 2 ^ bitLength turns n := by
  intro turns
  induction turns with
  | zero => intro n h; simp [bitLength]; omega
  | succ turns ih =>
    intro n h
    unfold bitLength
    split
    next hpos =>
      have hhalf := ih (n := n / 2) (by omega)
      rw [Nat.pow_succ]
      omega
    next => simp; omega

theorem clog_le_budget {n size : Nat} (h : n ≤ size) : Nat.clog 2 n ≤ budget size := by
  rw [Nat.clog_le_iff_le_pow (by decide)]
  have hbits := lt_two_pow_bitLength (Nat.le_refl (size / leafMax + 2))
  unfold budget
  dsimp only
  generalize bitLength (size / leafMax + 2) (size / leafMax + 2) = b at hbits
  have hquot : size < 64 * (size / 64 + 1) := by omega
  have hsq : (size / 64 + 2) * (size / 64 + 2) ≤ 2 ^ b * 2 ^ b := Nat.mul_le_mul hbits.le hbits.le
  have hfour : 4 * (size / 64 + 1) ≤ (size / 64 + 2) * (size / 64 + 2) := by
    generalize size / 64 = q
    have htwice : q * 2 ≤ q * (q + 2) := Nat.mul_le_mul_left q (by omega)
    rw [Nat.add_mul]
    omega
  have hpow : 2 ^ (2 * b + 4) = 16 * (2 ^ b * 2 ^ b) := by
    rw [Nat.pow_add, Nat.two_mul, Nat.pow_add, Nat.mul_comm]
  rw [hpow]
  omega

structure Balanced (nl : α) (t : Rope α) (strings : List (List α)) : Prop where
  sound : t.Sound nl
  text : t.text = strings.flatten
  depth : t.depth ≤ Nat.clog 2 strings.length

theorem Balanced.plainConcat {xs ys : List (List α)} (hl : Balanced nl l xs) (hr : Balanced nl r ys)
    (hchunks : Chunks (xs ++ ys)) (hsize : max xs.length ys.length = (xs.length + ys.length + 1) / 2)
    (htwo : 2 ≤ xs.length + ys.length) : Balanced nl (plainConcat l r) (xs ++ ys) := by
  have htext : (pair l r).text = (xs ++ ys).flatten := by
    rw [text_pair, hl.text, hr.text, flatten_append]
  unfold Rope.plainConcat
  split
  next hempty =>
    have hnil := (hl.sound.isEmpty_iff).mp hempty
    refine ⟨hr.sound, ?_, Nat.le_trans hr.depth (Nat.clog_mono_right 2 (by simp))⟩
    rw [← htext, text_pair, hnil, nil_append]
  next =>
    split
    next hempty =>
      have hnil := (hr.sound.isEmpty_iff).mp hempty
      refine ⟨hl.sound, ?_, Nat.le_trans hl.depth (Nat.clog_mono_right 2 (by simp))⟩
      rw [← htext, text_pair, hnil, append_nil]
    next =>
      have hdepth : 1 + max l.depth r.depth ≤ Nat.clog 2 (xs ++ ys).length := by
        have hmax : max l.depth r.depth ≤ Nat.clog 2 (max xs.length ys.length) := by
          apply Nat.max_le.mpr
          exact ⟨Nat.le_trans hl.depth (Nat.clog_mono_right 2 (Nat.le_max_left ..)),
            Nat.le_trans hr.depth (Nat.clog_mono_right 2 (Nat.le_max_right ..))⟩
        rw [length_append, Nat.clog_of_two_le (by decide) htwo]
        rw [hsize] at hmax
        have hsame : (xs.length + ys.length + 2 - 1) / 2 = (xs.length + ys.length + 1) / 2 := by omega
        rw [hsame]
        omega
      refine ⟨pair_sound hl.sound hr.sound (Nat.le_trans hdepth ?_), htext, hdepth⟩
      rw [← text_pair, htext]
      exact clog_le_budget hchunks.length_le

theorem balancedFrom_balanced {strings : List (List α)} (hchunks : Chunks strings) : ∀ {turns lo hi : Nat},
    0 < lo → lo ≤ hi → hi ≤ strings.length → hi < turns + lo →
    Balanced nl (balancedFrom nl strings turns lo hi) (slice strings lo hi) := by
  intro turns
  induction turns with
  | zero => intro lo hi _ hle _ hturns; omega
  | succ turns ih =>
    intro lo hi hlo hle hhi hturns
    have hlen : ∀ a b, 0 < a → a ≤ b + 1 → b ≤ strings.length → (slice strings a b).length = b + 1 - a := by
      intro a b ha hab hb
      unfold slice
      rw [length_take, length_drop]
      omega
    unfold balancedFrom
    rw [if_neg (Nat.not_lt.mpr hle)]
    split
    next heq =>
      subst heq
      have hlt : lo - 1 < strings.length := by omega
      have hslice : slice strings lo lo = [strings.getD (lo - 1) []] := by
        unfold slice
        rw [show lo + 1 - lo = 1 by omega, drop_eq_getElem_cons hlt, getD_eq_getElem _ _ hlt]
        rfl
      have hmem : strings.getD (lo - 1) [] ∈ strings := by
        rw [getD_eq_getElem _ _ hlt]
        exact getElem_mem hlt
      rw [hslice]
      exact ⟨on_sound (hchunks _ hmem).2, by simp, Nat.zero_le _⟩
    next hne =>
      have hsub : Chunks (slice strings lo hi) := fun x hx =>
        hchunks x (mem_of_mem_drop (mem_of_mem_take hx))
      have hmid₁ : lo ≤ (lo + hi) / 2 := by omega
      have hmid₂ : (lo + hi) / 2 < hi := by omega
      have hleft := @ih lo ((lo + hi) / 2) hlo hmid₁ (by omega) (by omega)
      have hright := @ih ((lo + hi) / 2 + 1) hi (by omega) (by omega) hhi (by omega)
      have hsplit := slice_split strings hlo hmid₁ hmid₂.le
      have hl := hlen lo ((lo + hi) / 2) hlo (by omega) (by omega)
      have hr := hlen ((lo + hi) / 2 + 1) hi (by omega) (by omega) hhi
      rw [← hsplit] at hsub ⊢
      exact hleft.plainConcat hright hsub (by omega) (by omega)

theorem rebuilt_balanced {strings : List (List α)} (hchunks : Chunks strings) :
    (balancedFrom nl strings (strings.length + 1) 1 strings.length).Sound nl ∧
      (balancedFrom nl strings (strings.length + 1) 1 strings.length).text = strings.flatten := by
  rcases Nat.eq_zero_or_pos strings.length with hz | hpos
  · have hnil : strings = [] := length_eq_zero_iff.mp hz
    subst hnil
    exact ⟨empty_sound, rfl⟩
  · have hb := @balancedFrom_balanced _ _ nl _ hchunks (strings.length + 1) 1 strings.length
      (by omega) hpos (Nat.le_refl _) (by omega)
    have hall : slice strings 1 strings.length = strings := by
      unfold slice
      rw [Nat.add_sub_cancel]
      exact take_length
    rw [hall] at hb
    exact ⟨hb.sound, hb.text⟩

theorem balanced_spec (h : Chunks t.leaves) : (t.balanced nl).Sound nl ∧ (t.balanced nl).text = t.text := by
  have hb := @rebuilt_balanced _ _ nl _ h
  rw [flatten_leaves] at hb
  unfold balanced
  rw [collectLeavesInto_eq, nil_append]
  exact hb

section

variable (hl : l.Sound nl) (hr : r.Sound nl)

include hl hr

theorem concat_spec : (concat nl l r).Sound nl ∧ (concat nl l r).text = l.text ++ r.text := by
  unfold concat
  split
  next hempty =>
    rw [hl.isEmpty_iff.mp hempty, nil_append]
    exact ⟨hr, rfl⟩
  next =>
    split
    next hempty =>
      rw [hr.isEmpty_iff.mp hempty, append_nil]
      exact ⟨hl, rfl⟩
    next =>
      split
      next hsmall =>
        have hle : l.size + r.size ≤ leafMax := of_decide_eq_true (Bool.and_eq_true_iff.mp hsmall).2
        rw [asString_eq, asString_eq]
        refine ⟨on_sound ?_, rfl⟩
        rw [length_append, ← hl.size_eq, ← hr.size_eq]
        exact hle
      next =>
        have hsize : (pair l r).size = (l.text ++ r.text).length := by
          rw [length_append, ← hl.size_eq, ← hr.size_eq]
          rfl
        unfold balancedIfDeep
        split
        next =>
          have hchunks : Chunks (pair l r).leaves := by
            intro x hx
            rcases mem_append.mp hx with hx | hx
            · exact hl.chunks x hx
            · exact hr.chunks x hx
          exact balanced_spec hchunks
        next hdeep =>
          refine ⟨pair_sound hl hr ?_, rfl⟩
          rw [← hsize]
          exact Nat.le_of_not_lt hdeep

theorem concat_sound : (concat nl l r).Sound nl := (concat_spec hl hr).1

theorem text_concat : (concat nl l r).text = l.text ++ r.text := (concat_spec hl hr).2

end

theorem splitAt_spec : ∀ {t : Rope α} {i : Nat}, t.Sound nl →
    (t.splitAt nl i).1.Sound nl ∧ (t.splitAt nl i).2.Sound nl ∧
      (t.splitAt nl i).1.text = t.text.take i ∧ (t.splitAt nl i).2.text = t.text.drop i := by
  intro t
  induction t with
  | leaf str n =>
    intro i h
    unfold splitAt
    split
    next hi =>
      subst hi
      exact ⟨empty_sound, h, rfl, rfl⟩
    next =>
      split
      next hi =>
        refine ⟨h, empty_sound, (take_of_length_le hi).symm, ?_⟩
        rw [text_empty]
        exact (drop_of_length_le hi).symm
      next =>
        have htake : (str.take i).length ≤ leafMax := Nat.le_trans (length_take_le' _ _) h.2
        have hdrop : (str.drop i).length ≤ leafMax := Nat.le_trans (by simp) h.2
        exact ⟨on_sound htake, on_sound hdrop, rfl, rfl⟩
  | branch l r w n s ns d ihl ihr =>
    intro i h
    have hw : w = l.text.length := h.2.2.1
    have hs : s = (l.text ++ r.text).length := h.2.2.2.2.1
    unfold splitAt
    split
    next hi =>
      subst hi
      exact ⟨empty_sound, h, rfl, rfl⟩
    next =>
      split
      next hi =>
        rw [hs] at hi
        refine ⟨h, empty_sound, (take_of_length_le hi).symm, ?_⟩
        rw [text_empty]
        exact (drop_of_length_le hi).symm
      next =>
        split
        next hi =>
          rw [hw] at hi
          obtain ⟨h₁, h₂, htake, hdrop⟩ := ihl (i := i) h.1
          refine ⟨h₁, concat_sound h₂ h.2.1, ?_, ?_⟩
          · show _ = (l.text ++ r.text).take i
            rw [htake, take_append_of_le_length hi]
          · show _ = (l.text ++ r.text).drop i
            rw [text_concat h₂ h.2.1, hdrop, drop_append_of_le_length hi]
        next hi =>
          rw [hw] at hi ⊢
          obtain ⟨h₁, h₂, htake, hdrop⟩ := ihr (i := i - l.text.length) h.2.1
          have hle : l.text.length ≤ i := Nat.le_of_not_le hi
          refine ⟨concat_sound h.1 h₁, h₂, ?_, ?_⟩
          · show _ = (l.text ++ r.text).take i
            rw [text_concat h.1 h₁, htake, take_append, take_of_length_le hle]
          · show _ = (l.text ++ r.text).drop i
            rw [hdrop, drop_append, drop_of_length_le hle, nil_append]

theorem fromString_spec (str : List α) : (fromString nl str).Sound nl ∧ (fromString nl str).text = str := by
  unfold fromString
  split
  next hz =>
    rw [length_eq_zero_iff.mp hz]
    exact ⟨empty_sound, rfl⟩
  next =>
    obtain ⟨hchunks, hflat⟩ := @chunksFrom_spec _ str (str.length + 1) 1 (by omega) (by omega)
    obtain ⟨hsound, htext⟩ := @rebuilt_balanced _ _ nl _ hchunks
    exact ⟨hsound, htext.trans hflat⟩

theorem insert_spec {t : Rope α} (h : t.Sound nl) (str : List α) (pos : Nat) : (t.insert nl str pos).Sound nl ∧
      (t.insert nl str pos).text = t.text.take (pos - 1) ++ str ++ t.text.drop (pos - 1) := by
  unfold insert
  split
  next hnil =>
    rw [hnil, append_nil, take_append_drop]
    exact ⟨h, rfl⟩
  next =>
    obtain ⟨h₁, h₂, htake, hdrop⟩ := splitAt_spec (i := pos - 1) h
    obtain ⟨hnew, htext⟩ := @fromString_spec _ _ nl str
    have hfirst := concat_spec h₁ hnew
    have hall := concat_spec hfirst.1 h₂
    refine ⟨hall.1, ?_⟩
    rw [hall.2, hfirst.2, htake, htext, hdrop]

theorem delete_spec (h : t.Sound nl) (first last : Nat) : (t.delete nl first last).Sound nl ∧
      (t.delete nl first last).text =
        if last < first then t.text else t.text.take (first - 1) ++ t.text.drop last := by
  unfold delete
  split
  next => exact ⟨h, rfl⟩
  next =>
    obtain ⟨h₁, _, htake, _⟩ := splitAt_spec (i := first - 1) h
    obtain ⟨_, h₂, _, hdrop⟩ := splitAt_spec (i := last) h
    have hall := concat_spec h₁ h₂
    refine ⟨hall.1, ?_⟩
    rw [hall.2, htake, hdrop]

end WinArmVm.Rope
