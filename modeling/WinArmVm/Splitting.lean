import WinArmVm.Utf8

namespace WinArmVm.ByteString

open List

/-- The inner loop of the search: the string at `i` against `aString` from its `j`th byte on. -/
def matchesFrom (s aString : List UInt8) (i j : Nat) (ok : Bool) : Bool :=
  if ok = true ∧ j ≤ aString.length then
    matchesFrom s aString i (j + 1) (if byteAt s (i + j - 1) = byteAt aString j then ok else false)
  else ok
termination_by aString.length + 1 - j

/-- 0 where the string is not found. -/
def searchFrom (s aString : List UInt8) (i : Nat) : Nat :=
  if (i : Int) ≤ s.length - aString.length + 1 then
    if matchesFrom s aString i 1 true then i else searchFrom s aString (i + 1)
  else 0
termination_by s.length + 2 - i

def indexOfSubstring (s aString : List UInt8) (start : Nat) : Nat :=
  if aString = [] then if start < 1 then 1 else start
  else searchFrom s aString (max start 1)

def copyFrom (s : List UInt8) (start stop : Nat) : List UInt8 := (s.drop (start - 1)).take (stop + 1 - start)

variable {s sep x : List UInt8} {i j p q start : Nat}

theorem searchFrom_le (h : 0 < searchFrom s sep i) : i ≤ searchFrom s sep i ∧ searchFrom s sep i + sep.length ≤ s.length + 1 := by
  induction hk : s.length + 2 - i using Nat.strong_induction_on generalizing i with
  | _ k ih =>
    unfold searchFrom at h ⊢
    split
    next hle =>
      rw [if_pos hle] at h
      split
      next => omega
      next hmatch =>
        rw [if_neg hmatch] at h
        have := ih _ (by omega) h rfl
        omega
    next hle =>
      rw [if_neg hle] at h
      omega

theorem indexOfSubstring_le (hsep : 0 < sep.length) (h : 0 < indexOfSubstring s sep start) :
    start ≤ indexOfSubstring s sep start ∧ indexOfSubstring s sep start + sep.length ≤ s.length + 1 := by
  have hne : sep ≠ [] := ne_nil_of_length_pos hsep
  unfold indexOfSubstring at h ⊢
  rw [if_neg hne] at h ⊢
  have := searchFrom_le h
  omega

/-- The loop of `splitOn:`. -/
def splitFrom (s sep : List UInt8) (hsep : 0 < sep.length) (out : List (List UInt8)) (start : Nat) : List (List UInt8) :=
  if _h : 0 < indexOfSubstring s sep start then
    splitFrom s sep hsep (out ++ [copyFrom s start (indexOfSubstring s sep start - 1)])
      (indexOfSubstring s sep start + sep.length)
  else out ++ [copyFrom s start s.length]
termination_by s.length + 1 - start
decreasing_by
  have := indexOfSubstring_le hsep _h
  omega

def splitOn (s aSeparator : List UInt8) : List (List UInt8) :=
  if h : 0 < aSeparator.length then splitFrom s aSeparator h [] 1 else [s]

/-- The loop of `occurrencesOfString:`. -/
def countFrom (s aString : List UInt8) (hsep : 0 < aString.length) (n start : Nat) : Nat :=
  if _h : 0 < indexOfSubstring s aString start then
    countFrom s aString hsep (n + 1) (indexOfSubstring s aString start + aString.length)
  else n
termination_by s.length + 1 - start
decreasing_by
  have := indexOfSubstring_le hsep _h
  omega

def occurrencesOfString (s aString : List UInt8) : Nat :=
  if h : 0 < aString.length then countFrom s aString h 0 1 else 0

/-- `join:`, what has been written and whether the next string is the first. -/
def join (sep : List UInt8) (aCollection : List (List UInt8)) : List UInt8 :=
  (aCollection.foldl (fun acc each => ((if acc.2 then acc.1 else acc.1 ++ sep) ++ each, false)) ([], true)).1

theorem matchesFrom_true : matchesFrom s sep i (j + 1) true = true ↔ ∀ k, j ≤ k → k < sep.length → byteAt s (i + k) = byteAt sep (k + 1) := by
  have hfalse : ∀ j, matchesFrom s sep i j false = false := by
    intro j
    unfold matchesFrom
    rw [if_neg fun h => Bool.false_ne_true h.1]
  induction hk : sep.length - j using Nat.strong_induction_on generalizing j with
  | _ n ih =>
    unfold matchesFrom
    by_cases hj : j + 1 ≤ sep.length
    · rw [if_pos ⟨rfl, hj⟩]
      by_cases hbyte : byteAt s (i + (j + 1) - 1) = byteAt sep (j + 1)
      · have hnext := @ih (sep.length - (j + 1)) (by omega) (j + 1) rfl
        rw [if_pos hbyte]
        refine Iff.trans hnext ?_
        constructor
        · intro h k hlow hhigh
          rcases Nat.eq_or_lt_of_le hlow with rfl | hlt
          · exact hbyte
          · exact h k hlt hhigh
        · exact fun h k hlow hhigh => h k (by omega) hhigh
      · rw [if_neg hbyte, hfalse]
        refine iff_of_false Bool.false_ne_true fun h => hbyte (h j (Nat.le_refl j) hj)
    · rw [if_neg fun h => hj h.2]
      exact iff_of_true rfl fun k hlow hhigh => by omega

theorem matches_iff (hfit : p + sep.length ≤ s.length) : matchesFrom s sep (p + 1) 1 true = true ↔ sep <+: s.drop p := by
  have hleft : ∀ k, byteAt s (p + 1 + k) = ((s.drop p).getD k 0).toNat := by
    intro k
    unfold byteAt
    rw [show p + 1 + k - 1 = p + k by omega, getD_eq_getElem?_getD, getD_eq_getElem?_getD, getElem?_drop]
  have hright : ∀ k, byteAt sep (k + 1) = (sep.getD k 0).toNat := fun k => rfl
  rw [show (1 : Nat) = 0 + 1 from rfl, matchesFrom_true, prefix_iff_getElem?]
  have hlen : (s.drop p).length = s.length - p := length_drop
  constructor
  · intro h k hk
    have hb := UInt8.toNat_inj.mp ((hleft k).symm.trans ((h k (Nat.zero_le k) hk).trans (hright k)))
    have hin : k < (s.drop p).length := by omega
    rw [getD_eq_getElem?_getD, getD_eq_getElem?_getD, getElem?_eq_getElem hin, getElem?_eq_getElem hk] at hb
    rw [getElem?_eq_getElem hin]
    exact congrArg some hb
  · intro h k _ hk
    rw [hleft, hright, getD_eq_getElem?_getD, h k hk, getD_eq_getElem?_getD, getElem?_eq_getElem hk]

/-- The first place at or after `p` where the string goes on with what is sought. -/
def FirstAt (s sep : List UInt8) (p q : Nat) : Prop := p ≤ q ∧ sep <+: s.drop q ∧ ∀ k, p ≤ k → k < q → ¬ sep <+: s.drop k

theorem prefix_fits (hsep : 0 < sep.length) (h : sep <+: s.drop p) : p + sep.length ≤ s.length := by
  have hlen := h.length_le
  rw [length_drop] at hlen
  omega

theorem searchFrom_spec (hsep : 0 < sep.length) (p : Nat) :
    (searchFrom s sep (p + 1) = 0 ∧ ∀ k, p ≤ k → ¬ sep <+: s.drop k) ∨
      ∃ q, searchFrom s sep (p + 1) = q + 1 ∧ FirstAt s sep p q := by
  induction hk : s.length + 1 - p using Nat.strong_induction_on generalizing p with
  | _ n ih =>
    unfold searchFrom
    by_cases hle : ((p + 1 : Nat) : Int) ≤ s.length - sep.length + 1
    · have hfit : p + sep.length ≤ s.length := by omega
      rw [if_pos hle]
      by_cases hmatch : matchesFrom s sep (p + 1) 1 true = true
      · rw [if_pos hmatch]
        exact .inr ⟨p, rfl, Nat.le_refl p, (matches_iff hfit).mp hmatch, fun k hlow hhigh => by omega⟩
      · rw [if_neg hmatch]
        have hnot := mt (matches_iff hfit).mpr hmatch
        rcases ih _ (by omega) (p + 1) rfl with ⟨hzero, hnone⟩ | ⟨q, hq, hlow, hat, hbefore⟩
        · refine .inl ⟨hzero, fun k hpk => ?_⟩
          rcases Nat.eq_or_lt_of_le hpk with rfl | hlt
          · exact hnot
          · exact hnone k hlt
        · refine .inr ⟨q, hq, by omega, hat, fun k hpk hkq => ?_⟩
          rcases Nat.eq_or_lt_of_le hpk with rfl | hlt
          · exact hnot
          · exact hbefore k hlt hkq
    · rw [if_neg hle]
      refine .inl ⟨rfl, fun k hpk hat => ?_⟩
      have := prefix_fits hsep hat
      omega

theorem indexOfSubstring_spec (hsep : 0 < sep.length) (p : Nat) :
    (indexOfSubstring s sep (p + 1) = 0 ∧ ∀ k, p ≤ k → ¬ sep <+: s.drop k) ∨
      ∃ q, indexOfSubstring s sep (p + 1) = q + 1 ∧ FirstAt s sep p q := by
  unfold indexOfSubstring
  rw [if_neg (ne_nil_of_length_pos hsep), Nat.max_eq_left (by omega)]
  exact searchFrom_spec hsep p

theorem infix_drop (h : sep <:+: (s.drop p).take (q - p)) (hsep : 0 < sep.length) : ∃ k, p ≤ k ∧ k < q ∧ sep <+: s.drop k := by
  obtain ⟨a, b, hab⟩ := h
  have hlen := congrArg List.length hab
  rw [length_append, length_append, length_take] at hlen
  refine ⟨p + a.length, by omega, by omega, b ++ (s.drop p).drop (q - p), ?_⟩
  have hall : s.drop p = a ++ (sep ++ b ++ (s.drop p).drop (q - p)) := by
    conv => lhs; rw [← take_append_drop (q - p) (s.drop p), ← hab]
    simp only [append_assoc]
  have hdrop : s.drop (p + a.length) = sep ++ b ++ (s.drop p).drop (q - p) := by
    rw [← drop_drop]
    conv => lhs; rw [hall]
    exact drop_left
  rw [hdrop, append_assoc]

theorem intercalate_cons {y : List UInt8} {fields : List (List UInt8)} (h : fields ≠ []) :
    sep.intercalate (y :: fields) = y ++ (sep ++ sep.intercalate fields) := by
  rw [intercalate_cons_of_ne_nil h, append_assoc]

theorem splitFrom_spec (hsep : 0 < sep.length) (hp : p ≤ s.length) :
    ∃ fields, (∀ out, splitFrom s sep hsep out (p + 1) = out ++ fields) ∧ fields ≠ [] ∧ sep.intercalate fields = s.drop p ∧
      (∀ n, countFrom s sep hsep n (p + 1) + 1 = n + fields.length) ∧ ∀ f ∈ fields, ¬ sep <:+: f := by
  induction hk : s.length - p using Nat.strong_induction_on generalizing p with
  | _ n ih =>
    rcases indexOfSubstring_spec (s := s) hsep p with ⟨hzero, hnone⟩ | ⟨q, hq, hpq, hat, hbefore⟩
    · refine ⟨[s.drop p], fun out => ?_, cons_ne_nil _ _, intercalate_singleton, fun n => ?_, fun f hf hin => ?_⟩
      · unfold splitFrom
        rw [dif_neg (by omega)]
        unfold copyFrom
        rw [Nat.add_sub_cancel, take_of_length_le (by rw [length_drop]; omega)]
      · unfold countFrom
        rw [dif_neg (by omega)]
        rfl
      · rw [mem_singleton.mp hf] at hin
        have hin : sep <:+: (s.drop p).take (s.length - p) := by
          rw [take_of_length_le (by rw [length_drop])]
          exact hin
        obtain ⟨k, hpk, -, hpre⟩ := infix_drop hin hsep
        exact hnone k hpk hpre
    · have hfit := prefix_fits hsep hat
      obtain ⟨fields, hsplit, hne, hinter, hcount, hfree⟩ := ih _ (by omega) (p := q + sep.length) hfit rfl
      refine ⟨(s.drop p).take (q - p) :: fields, fun out => ?_, cons_ne_nil _ _, ?_, fun n => ?_, fun f hf hin => ?_⟩
      · unfold splitFrom
        rw [dif_pos (by omega), hq, Nat.add_right_comm, hsplit]
        unfold copyFrom
        rw [Nat.add_sub_cancel, Nat.add_sub_cancel, show q + 1 - (p + 1) = q - p by omega, append_assoc]
        rfl
      · obtain ⟨rest, hrest⟩ := hat
        rw [intercalate_cons hne, hinter, ← drop_drop, ← hrest, drop_left, hrest,
          show s.drop q = (s.drop p).drop (q - p) by rw [drop_drop, Nat.add_sub_cancel' hpq], take_append_drop]
      · unfold countFrom
        rw [dif_pos (by omega), hq, Nat.add_right_comm, hcount, length_cons]
        omega
      · rcases mem_cons.mp hf with rfl | hf
        · obtain ⟨k, hpk, hkq, hpre⟩ := infix_drop hin hsep
          exact hbefore k hpk hkq hpre
        · exact hfree f hf hin

theorem join_eq (sep : List UInt8) (fields : List (List UInt8)) : join sep fields = sep.intercalate fields := by
  have hrest : ∀ (fields : List (List UInt8)) (out : List UInt8),
      (fields.foldl (fun acc each => ((if acc.2 then acc.1 else acc.1 ++ sep) ++ each, false)) (out, false)).1 =
        out ++ (fields.map fun f => sep ++ f).flatten := by
    intro fields
    induction fields with
    | nil => exact fun out => (append_nil out).symm
    | cons f fields ih =>
      intro out
      rw [foldl_cons]
      show (List.foldl _ (out ++ sep ++ f, false) fields).1 = _
      rw [ih, map_cons, flatten_cons, append_assoc, append_assoc, append_assoc]
  have hinter : ∀ (fields : List (List UInt8)) (f : List UInt8),
      sep.intercalate (f :: fields) = f ++ (fields.map fun f => sep ++ f).flatten := by
    intro fields
    induction fields with
    | nil =>
      intro f
      rw [intercalate_singleton, map_nil, flatten_nil, append_nil]
    | cons g fields ih =>
      intro f
      rw [intercalate_cons (cons_ne_nil g fields), ih, map_cons, flatten_cons, append_assoc]
  cases fields with
  | nil => rfl
  | cons f fields =>
    rw [hinter]
    exact hrest fields f

/-- Splitting and joining are inverse, with one field more than there are separators and none in a field; the scans are
functions, so each ends. -/
theorem split_join (s sep : List UInt8) (hsep : sep ≠ []) :
    join sep (splitOn s sep) = s ∧ (splitOn s sep).length = occurrencesOfString s sep + 1 ∧
      ∀ f ∈ splitOn s sep, ¬ sep <:+: f := by
  have hpos := length_pos_of_ne_nil hsep
  obtain ⟨fields, hsplit, -, hinter, hcount, hfree⟩ := splitFrom_spec hpos (Nat.zero_le s.length)
  have hfields : splitOn s sep = fields := (dif_pos hpos).trans (hsplit [])
  have hnum : occurrencesOfString s sep + 1 = fields.length := by
    have h := hcount 0
    rw [Nat.zero_add, Nat.zero_add] at h
    rw [← h]
    exact congrArg (· + 1) (dif_pos hpos)
  rw [hfields, hnum, join_eq, hinter]
  exact ⟨rfl, rfl, hfree⟩

/-- `aaaaa` at `aa`: two separators, the last byte alone. -/
theorem split_join_overlapping : join [97, 97] (splitOn [97, 97, 97, 97, 97] [97, 97]) = [97, 97, 97, 97, 97] ∧
      (splitOn [97, 97, 97, 97, 97] [97, 97]).length = occurrencesOfString [97, 97, 97, 97, 97] [97, 97] + 1 :=
  ⟨(split_join _ _ (by decide)).1, (split_join _ _ (by decide)).2.1⟩

end WinArmVm.ByteString
