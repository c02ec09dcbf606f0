import Mathlib.Data.List.Range
import Mathlib.Data.List.Sort
import Mathlib.Data.List.Infix

namespace VersionTable

open List

/-- A row of a table that keeps numbered versions of owners under a primary key. -/
structure Row (α : Type) where
  id : Nat
  owner : Nat
  number : Nat
  content : α

variable {α : Type}

def rowsOf (t : List (Row α)) (o : Nat) : List (Row α) := t.filter (·.owner = o)

/-- The greatest version number of an owner, zero where it has none. -/
def maxNumber (t : List (Row α)) (o : Nat) : Nat := ((rowsOf t o).map Row.number).foldr max 0

def nextId (t : List (Row α)) : Nat := (t.map Row.id).foldr max 0 + 1

def insert (t : List (Row α)) (o : Nat) (c : α) : List (Row α) := t ++ [⟨nextId t, o, maxNumber t o + 1, c⟩]

def latest (t : List (Row α)) (o : Nat) : Option (Row α) := (rowsOf t o).find? (·.number = maxNumber t o)

def descending (t : List (Row α)) (o : Nat) : List (Row α) := (rowsOf t o).insertionSort fun r v => v.number ≤ r.number

/-- Outside the newest `limit` by number. -/
def Aged (t : List (Row α)) (o limit : Nat) (r : Row α) : Prop := r.owner = o ∧ r.number + limit ≤ maxNumber t o

instance (t : List (Row α)) (o limit : Nat) (r : Row α) : Decidable (Aged t o limit r) :=
  inferInstanceAs (Decidable (_ ∧ _))

/-- Outside the newest `keep` by counting. -/
def Doomed (t : List (Row α)) (keep : Nat) (r : Row α) : Prop :=
  keep ≤ ((rowsOf t r.owner).filter (r.number < ·.number)).length

instance (t : List (Row α)) (keep : Nat) (r : Row α) : Decidable (Doomed t keep r) :=
  inferInstanceAs (Decidable (_ ≤ _))

def history (t : List (Row α)) (o : Nat) : List α := (rowsOf t o).map Row.content

/-- Only the newest `n`. -/
def newest {β : Type} (n : Nat) (l : List β) : List β := l.drop (l.length - n)

def edit (t : List (Row α)) (o limit : Nat) (c : α) : List (Row α) :=
  (insert t o c).filter fun r => ¬ Aged (insert t o c) o limit r

structure Ordered (t : List (Row α)) : Prop where
  ids : t.Pairwise (·.id < ·.id)
  numbers : ∀ o, ∃ lo, (rowsOf t o).map Row.number = List.range' (lo + 1) (rowsOf t o).length

variable {t : List (Row α)} {o : Nat} {n : Nat} {l : List (Row α)} {p : Row α → Bool} {lo : Nat}

theorem foldr_max_ge {l : List Nat} (h : n ∈ l) : n ≤ l.foldr max 0 := by
  induction l with
  | nil => cases h
  | cons a l ih =>
    rw [foldr_cons]
    rcases mem_cons.mp h with rfl | h
    · exact Nat.le_max_left _ _
    · exact Nat.le_trans (ih h) (Nat.le_max_right _ _)

theorem foldr_max_range' (lo n : Nat) : (List.range' (lo + 1) (n + 1)).foldr max 0 = lo + n + 1 := by
  induction n generalizing lo with
  | zero => simp
  | succ n ih =>
    rw [range'_succ, foldr_cons, ih (lo + 1)]
    omega

variable {r : Row α} {β : Type}

theorem lt_nextId (h : r ∈ t) : r.id < nextId t := Nat.lt_succ_of_le (foldr_max_ge (List.mem_map_of_mem h))

theorem length_history (t : List (Row α)) (o : Nat) : (history t o).length = (rowsOf t o).length := List.length_map _

theorem Ordered.nil : Ordered ([] : List (Row α)) := ⟨List.Pairwise.nil, fun _ => ⟨0, rfl⟩⟩

theorem Ordered.id_inj (h : Ordered t) {r v : Row α} (hr : r ∈ t) (hv : v ∈ t) (he : r.id = v.id) : r = v := by
  have hnodup : (t.map Row.id).Nodup := pairwise_map.mpr (h.ids.imp fun hlt => Nat.ne_of_lt hlt)
  exact inj_on_of_nodup_map hnodup hr hv he

theorem newest_eq_self {l : List β} (h : l.length ≤ n) : newest n l = l := by
  unfold newest
  rw [Nat.sub_eq_zero_of_le h, drop_zero]

theorem newest_nil (n : Nat) : newest n ([] : List β) = [] := List.drop_nil

theorem newest_append {l m : List β} (h : m.length ≤ n) : newest n (l ++ m) = newest (n - m.length) l ++ m := by
  unfold newest
  rw [drop_append_of_le_length (by rw [length_append]; omega), length_append]
  congr 2
  omega

theorem length_newest (n : Nat) (l : List β) : (newest n l).length = min n l.length := by
  unfold newest
  rw [length_drop]
  omega

theorem maxNumber_eq (hn : (rowsOf t o).map Row.number = List.range' (lo + 1) (rowsOf t o).length)
    (hpos : rowsOf t o ≠ []) : maxNumber t o = lo + (rowsOf t o).length := by
  unfold maxNumber
  rw [hn]
  obtain ⟨n, hlen⟩ : ∃ n, (rowsOf t o).length = n + 1 :=
    Nat.exists_eq_succ_of_ne_zero (fun hz => hpos (eq_nil_of_length_eq_zero hz))
  rw [hlen, foldr_max_range']
  omega

theorem rowsOf_insert (t : List (Row α)) (o o' : Nat) (c : α) : rowsOf (insert t o c) o' =
      if o' = o then rowsOf t o ++ [⟨nextId t, o, maxNumber t o + 1, c⟩] else rowsOf t o' := by
  unfold rowsOf insert
  rw [filter_append]
  split
  next he => simp [he]
  next hne =>
    have hne' : o ≠ o' := fun he => hne he.symm
    simp [hne']

theorem history_insert (t : List (Row α)) (o o' : Nat) (c : α) :
    history (insert t o c) o' = if o' = o then history t o ++ [c] else history t o' := by
  unfold history
  rw [rowsOf_insert]
  split
  next => rw [map_append, map_singleton]
  next => rfl

theorem Ordered.insert (h : Ordered t) (o : Nat) (c : α) : Ordered (insert t o c) := by
  refine ⟨?_, fun o' => ?_⟩
  · unfold VersionTable.insert
    rw [pairwise_append]
    refine ⟨h.ids, pairwise_singleton _ _, fun r hr v hv => ?_⟩
    rw [mem_singleton.mp hv]
    exact lt_nextId hr
  · rw [rowsOf_insert]
    split
    next =>
      obtain ⟨lo, hn⟩ := h.numbers o
      by_cases hnil : rowsOf t o = []
      · have hmax : maxNumber t o = 0 := by
          unfold maxNumber
          rw [hnil]
          rfl
        refine ⟨0, ?_⟩
        rw [hnil, hmax]
        rfl
      · refine ⟨lo, ?_⟩
        have hmax := maxNumber_eq hn hnil
        rw [map_append, hn, length_append, length_singleton, range'_concat, hmax]
        simp only [map_cons, map_nil, Nat.one_mul]
        congr 2
        omega
    next => exact h.numbers o'

theorem filter_ge_eq_drop {a : Nat} (h : l.map Row.number = List.range' a l.length)
    (c : Nat) : l.filter (fun r => c ≤ r.number) = l.drop (c - a) := by
  induction l generalizing a with
  | nil => simp
  | cons r l ih =>
    rw [map_cons, length_cons, range'_succ, List.cons.injEq] at h
    have hl := ih h.2
    rw [filter_cons]
    split
    next hc =>
      have hle : c ≤ r.number := of_decide_eq_true hc
      rw [hl, show c - (a + 1) = 0 by omega, show c - a = 0 by omega, drop_zero, drop_zero]
    next hc =>
      have hlt : ¬ c ≤ r.number := fun hle => hc (decide_eq_true hle)
      rw [hl, show c - a = (c - (a + 1)) + 1 by omega, drop_succ_cons]

theorem number_of_mem (h : (rowsOf t o).map Row.number = List.range' (lo + 1) (rowsOf t o).length)
    (hr : r ∈ rowsOf t o) : lo + 1 ≤ r.number ∧ r.number ≤ lo + (rowsOf t o).length := by
  have hmem : r.number ∈ (rowsOf t o).map Row.number := mem_map_of_mem hr
  rw [h, mem_range'_1] at hmem
  omega

theorem rowsOf_filter (t : List (Row α)) (o : Nat) (p : Row α → Bool) :
    rowsOf (t.filter p) o = (rowsOf t o).filter p := by
  unfold rowsOf
  rw [filter_filter, filter_filter]
  apply filter_congr
  intro r _
  exact Bool.and_comm _ _

theorem newest_map {β γ : Type} (f : β → γ) (n : Nat) (l : List β) : (newest n l).map f = newest n (l.map f) := by
  unfold newest
  rw [map_drop, length_map]

theorem rowsOf_kept (h : Ordered t) (limit : Nat)
    (hp : ∀ lo, (rowsOf t o).map Row.number = List.range' (lo + 1) (rowsOf t o).length →
      ∀ r ∈ rowsOf t o, p r = true ↔ lo + (rowsOf t o).length + 1 ≤ r.number + limit) :
    rowsOf (t.filter p) o = newest limit (rowsOf t o) := by
  obtain ⟨lo, hn⟩ := h.numbers o
  rw [rowsOf_filter]
  have hge : (rowsOf t o).filter p =
      (rowsOf t o).filter (fun r => lo + (rowsOf t o).length + 1 - limit ≤ r.number) := by
    apply filter_congr
    intro r hr
    rw [Bool.eq_iff_iff, hp lo hn r hr, decide_eq_true_eq]
    omega
  rw [hge, filter_ge_eq_drop hn]
  congr 1
  omega

theorem Ordered.filter (h : Ordered t)
    (hp : ∀ o, ∃ n, rowsOf (t.filter p) o = newest n (rowsOf t o)) : Ordered (t.filter p) := by
  refine ⟨h.ids.filter _, fun o => ?_⟩
  obtain ⟨n, hkept⟩ := hp o
  obtain ⟨lo, hn⟩ := h.numbers o
  refine ⟨lo + ((rowsOf t o).length - n), ?_⟩
  rw [hkept]
  unfold newest
  rw [map_drop, hn, drop_range', length_drop]
  congr 1
  omega

theorem rowsOf_prune (h : Ordered t) (o limit o' : Nat) : rowsOf (t.filter fun r => ¬ Aged t o limit r) o' =
      if o' = o then newest limit (rowsOf t o) else rowsOf t o' := by
  split
  next he =>
    rw [he]
    apply rowsOf_kept h
    intro lo hn r hr
    have howner : r.owner = o := of_decide_eq_true (mem_filter.mp hr).2
    have hmax := maxNumber_eq hn (ne_nil_of_mem hr)
    rw [decide_eq_true_eq]
    unfold Aged
    rw [hmax]
    omega
  next hne =>
    rw [rowsOf_filter, filter_eq_self]
    intro r hr
    have howner : r.owner = o' := of_decide_eq_true (mem_filter.mp hr).2
    rw [decide_eq_true_eq]
    intro haged
    exact hne (howner.symm.trans haged.1)

theorem rowsOf_pruneAll (h : Ordered t) (keep o : Nat) :
    rowsOf (t.filter fun r => ¬ Doomed t keep r) o = newest keep (rowsOf t o) := by
  apply rowsOf_kept h
  intro lo hn r hr
  have howner : r.owner = o := of_decide_eq_true (mem_filter.mp hr).2
  have hbounds := number_of_mem hn hr
  have hcount : ((rowsOf t r.owner).filter (r.number < ·.number)).length =
      lo + (rowsOf t o).length - r.number := by
    have hdrop := filter_ge_eq_drop hn (r.number + 1)
    have hlt : (rowsOf t o).filter (r.number < ·.number) = (rowsOf t o).filter (r.number + 1 ≤ ·.number) := rfl
    rw [howner, hlt, hdrop, length_drop]
    omega
  rw [decide_eq_true_eq]
  unfold Doomed
  rw [hcount]
  omega

theorem Ordered.prune (h : Ordered t) (o limit : Nat) : Ordered (t.filter fun r => ¬ Aged t o limit r) := by
  apply h.filter
  intro o'
  rw [rowsOf_prune h]
  split
  next he => exact ⟨limit, by rw [he]⟩
  next => exact ⟨_, (newest_eq_self (Nat.le_refl _)).symm⟩

theorem Ordered.pruneAll (h : Ordered t) (keep : Nat) : Ordered (t.filter fun r => ¬ Doomed t keep r) :=
  h.filter fun o => ⟨keep, rowsOf_pruneAll h keep o⟩

theorem history_pruneAll (h : Ordered t) (keep o : Nat) :
    history (t.filter fun r => ¬ Doomed t keep r) o = newest keep (history t o) := by
  unfold history
  rw [rowsOf_pruneAll h, newest_map]

theorem Ordered.edit (h : Ordered t) (o limit : Nat) (c : α) : Ordered (edit t o limit c) :=
  (h.insert o c).prune o limit

theorem history_edit (h : Ordered t) (o limit o' : Nat) (c : α) :
    history (edit t o limit c) o' = if o' = o then newest limit (history t o ++ [c]) else history t o' := by
  have hins := history_insert t o o' c
  unfold edit history at *
  rw [rowsOf_prune (h.insert o c)]
  split
  next he =>
    rw [he, if_pos rfl] at hins
    rw [newest_map, hins]
  next hne =>
    rw [if_neg hne] at hins
    exact hins

theorem foldr_max_concat (l : List Nat) (n : Nat) : (l ++ [n]).foldr max 0 = max (l.foldr max 0) n := by
  induction l with
  | nil => exact Nat.max_comm _ _
  | cons a l ih => rw [cons_append, foldr_cons, foldr_cons, ih, Nat.max_assoc]

theorem maxNumber_insert (t : List (Row α)) (o : Nat) (c : α) : maxNumber (insert t o c) o = maxNumber t o + 1 := by
  have hrows := rowsOf_insert t o o c
  rw [if_pos rfl] at hrows
  unfold maxNumber at *
  rw [hrows, map_append, map_singleton, foldr_max_concat]
  exact Nat.max_eq_right (Nat.le_succ _)

theorem mem_edit {o limit : Nat} (hlimit : 0 < limit) {c : α} :
    r ∈ edit t o limit c ↔ r = ⟨nextId t, o, maxNumber t o + 1, c⟩ ∨
      r ∈ t ∧ ¬ (r.owner = o ∧ r.number + limit ≤ maxNumber t o + 1) := by
  unfold edit
  rw [mem_filter, decide_eq_true_eq]
  unfold Aged
  rw [maxNumber_insert]
  unfold insert
  rw [mem_append, mem_singleton]
  constructor
  · rintro ⟨h | h, hkeep⟩
    · exact .inr ⟨h, hkeep⟩
    · exact .inl h
  · rintro (rfl | ⟨h, hkeep⟩)
    · refine ⟨.inr rfl, fun haged => ?_⟩
      have hle : maxNumber t o + 1 + limit ≤ maxNumber t o + 1 := haged.2
      omega
    · exact ⟨.inl h, hkeep⟩

section

variable (h : ∀ r ∈ t, r.owner ≠ o)

include h

theorem rowsOf_of_not_owned : rowsOf t o = [] := by
  unfold rowsOf
  rw [filter_eq_nil_iff]
  intro r hr
  simpa using h r hr

theorem maxNumber_of_not_owned : maxNumber t o = 0 := by
  unfold maxNumber
  rw [rowsOf_of_not_owned h]
  rfl

theorem history_of_not_owned : history t o = [] := by
  unfold history
  rw [rowsOf_of_not_owned h]
  rfl

theorem insert_first {c : α} : t ++ [⟨nextId t, o, 1, c⟩] = insert t o c := by
  unfold insert
  rw [maxNumber_of_not_owned h]

end

theorem mem_insert {o : Nat} {c : α} (h : r ∈ insert t o c) : r ∈ t ∨ r = ⟨nextId t, o, maxNumber t o + 1, c⟩ := by
  rcases mem_append.mp h with h | h
  · exact .inl h
  · exact .inr (mem_singleton.mp h)

theorem newest_ne_nil {l : List β} (hn : 0 < n) (hl : l ≠ []) : newest n l ≠ [] := by
  intro h
  have hlen := length_newest n l
  have hpos := length_pos_iff.mpr hl
  rw [h, length_nil] at hlen
  omega

theorem latest_eq (h : Ordered t) (o : Nat) : latest t o = (rowsOf t o).getLast? := by
  obtain ⟨lo, hn⟩ := h.numbers o
  unfold latest
  rcases eq_nil_or_concat (rowsOf t o) with hnil | ⟨l, r, hr⟩
  · rw [hnil]
    rfl
  · have hne : rowsOf t o ≠ [] := by
      rw [hr]
      simp
    have hmax := maxNumber_eq hn hne
    rw [hmax]
    rw [hr, concat_eq_append] at hn ⊢
    rw [map_append, map_singleton, length_append, length_singleton, range'_concat] at hn
    obtain ⟨hl, hlast⟩ := append_inj' hn rfl
    have hnumber : r.number = lo + (l.length + 1) := by
      have hsingle := singleton_inj.mp hlast
      omega
    rw [find?_append, getLast?_append, getLast?_singleton, length_append, length_singleton]
    have hnone : l.find? (fun v => v.number = lo + (l.length + 1)) = none := by
      rw [find?_eq_none]
      intro v hv
      have hmem : v.number ∈ l.map Row.number := mem_map_of_mem hv
      rw [hl, mem_range'_1] at hmem
      rw [decide_eq_true_eq]
      omega
    rw [hnone]
    simp [hnumber]

theorem latest_of_number (h : Ordered t) (hr : r ∈ t) (hn : r.number = maxNumber t r.owner) :
    latest t r.owner = some r := by
  obtain ⟨lo, hrun⟩ := h.numbers r.owner
  have hmem : r ∈ rowsOf t r.owner := mem_filter.mpr ⟨hr, decide_eq_true rfl⟩
  have hnodup : ((rowsOf t r.owner).map Row.number).Nodup := by
    rw [hrun]
    exact nodup_range'
  obtain ⟨v, hv⟩ : ∃ v, latest t r.owner = some v := by
    unfold latest
    rw [← Option.isSome_iff_exists, find?_isSome]
    exact ⟨r, hmem, decide_eq_true hn⟩
  have hnumber : v.number = maxNumber t r.owner := by simpa using find?_some hv
  rw [hv, inj_on_of_nodup_map hnodup (mem_of_find?_eq_some hv) hmem (hnumber.trans hn.symm)]

theorem insertionSort_reversed {le : Row α → Row α → Prop} [DecidableRel le]
    (h : l.Pairwise fun r v => ¬ le r v) : l.insertionSort le = l.reverse := by
  induction l with
  | nil => rfl
  | cons r l ih =>
    obtain ⟨hr, hl⟩ := pairwise_cons.mp h
    rw [insertionSort_cons, ih hl, reverse_cons]
    have hlast : ∀ m : List (Row α), (∀ v ∈ m, ¬ le r v) → m.orderedInsert le r = m ++ [r] := by
      intro m hm
      induction m with
      | nil => rfl
      | cons v m ihm =>
        rw [List.orderedInsert, if_neg (hm v mem_cons_self), ihm fun w hw => hm w (mem_cons_of_mem _ hw)]
        rfl
    exact hlast _ fun v hv => hr v (mem_reverse.mp hv)

theorem descending_eq (h : Ordered t) (o : Nat) : descending t o = (rowsOf t o).reverse := by
  obtain ⟨lo, hn⟩ := h.numbers o
  apply insertionSort_reversed
  have hrising : (rowsOf t o).Pairwise fun r v => r.number < v.number := by
    rw [← pairwise_map (f := Row.number) (R := (· < ·)), hn]
    exact pairwise_lt_range'
  exact hrising.imp fun hlt => by omega

end VersionTable
