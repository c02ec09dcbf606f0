import Mathlib.Order.Lattice
import Mathlib.Data.List.Basic

namespace BinarySearch

variable {α κ : Type} [LinearOrder κ] (key : α → κ)

/-- Half of the `size` places from `base` on at a time, down to the one that can hold `k`. -/
def narrow (xs : List α) (k : κ) : Nat → Nat → Nat → Nat
  | 0, base, _ => base
  | fuel + 1, base, size =>
    if size ≤ 1 then base
    else
      let mid := base + size / 2
      let base := match xs[mid]? with
        | some x => if k < key x then base else mid
        | none => base
      narrow xs k fuel base (size - size / 2)

/-- The element of a list sorted by `key` that has the key `k`. -/
def find (xs : List α) (k : κ) : Option α :=
  match xs[narrow key xs k xs.length 0 xs.length]? with
  | some x => if key x = k then some x else none
  | none => none

variable {key}

theorem narrow_eq {xs : List α} (hsorted : xs.Pairwise (key · < key ·)) {t : Nat} {x : α} (ht : xs[t]? = some x) :
    ∀ {fuel base size : Nat}, size ≤ fuel + 1 → base ≤ t → t < base + size →
      narrow key xs (key x) fuel base size = t := by
  have hlt : ∀ {i j : Nat} {a b : α}, xs[i]? = some a → xs[j]? = some b → i < j → key a < key b := by
    intro i j a b ha hb hij
    obtain ⟨hi, rfl⟩ := List.getElem?_eq_some_iff.mp ha
    obtain ⟨hj, rfl⟩ := List.getElem?_eq_some_iff.mp hb
    exact List.pairwise_iff_getElem.mp hsorted i j hi hj hij
  intro fuel
  induction fuel with
  | zero =>
    intro base size hfuel hlow hhigh
    show base = t
    omega
  | succ fuel ih =>
    intro base size hfuel hlow hhigh
    unfold narrow
    split
    next => omega
    next hsize =>
      dsimp only
      cases hmid : xs[base + size / 2]? with
      | none =>
        dsimp only
        have hout := List.getElem?_eq_none_iff.mp hmid
        have hin := (List.getElem?_eq_some_iff.mp ht).1
        exact ih (by omega) hlow (by omega)
      | some y =>
        dsimp only
        split
        next hbelow =>
          have hnot : ¬ base + size / 2 ≤ t := by
            intro hle
            rcases Nat.lt_or_eq_of_le hle with hgt | heq
            · exact absurd (hlt hmid ht hgt) (not_lt_of_gt hbelow)
            · rw [heq, ht] at hmid
              cases hmid
              exact absurd hbelow (lt_irrefl _)
          exact ih (by omega) hlow (by omega)
        next hbelow =>
          have hge : base + size / 2 ≤ t := by
            by_contra hlt'
            exact hbelow (hlt ht hmid (by omega))
          have hend : t < base + size / 2 + (size - size / 2) := by omega
          exact ih (by omega) hge hend

theorem find_mem {xs : List α} (hsorted : xs.Pairwise (key · < key ·)) {x : α} (hx : x ∈ xs) :
    find key xs (key x) = some x := by
  obtain ⟨t, ht⟩ := List.mem_iff_getElem?.mp hx
  have hin := (List.getElem?_eq_some_iff.mp ht).1
  have hplace : narrow key xs (key x) xs.length 0 xs.length = t :=
    narrow_eq hsorted ht (Nat.le_succ _) (Nat.zero_le _) (by omega)
  unfold find
  rw [hplace, ht]
  exact if_pos rfl

end BinarySearch
