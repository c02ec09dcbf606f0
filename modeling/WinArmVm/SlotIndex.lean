import Mathlib.Logic.Equiv.Basic
import Mathlib.Data.List.Induction
import Mathlib.Order.Basic

namespace SlotIndex

open List

variable {ι κ σ : Type}

structure View (ι κ : Type) where
  owns : ι → κ → Prop
  index : κ → Option ι

def Last (rank : ι → Nat) (owns : ι → κ → Prop) (a : κ) (i : ι) : Prop := owns i a ∧ ∀ j, owns j a → rank j ≤ rank i

namespace View

variable {rank : ι → Nat} {v v' : View ι κ} {i : ι}

def Coherent (v : View ι κ) : Prop := ∀ a i, v.index a = some i → v.owns i a

def Settled (rank : ι → Nat) (v : View ι κ) : Prop := ∀ a i, v.index a = some i ↔ Last rank v.owns a i

theorem Settled.coherent (h : v.Settled rank) : v.Coherent := fun a i hi => ((h a i).mp hi).1

structure Hooked (v : View ι κ) (i : ι) (keys : κ → Prop) (v' : View ι κ) : Prop where
  free : ∀ a, ¬ v.owns i a
  here : ∀ a, v'.owns i a ↔ keys a
  others : ∀ j a, j ≠ i → (v'.owns j a ↔ v.owns j a)
  taken : ∀ a, keys a → v'.index a = some i
  kept : ∀ a, ¬ keys a → v'.index a = v.index a

structure Unhooked (v : View ι κ) (i : ι) (v' : View ι κ) : Prop where
  here : ∀ a, ¬ v'.owns i a
  others : ∀ j a, j ≠ i → (v'.owns j a ↔ v.owns j a)
  dropped : ∀ a, v.index a = some i → v'.index a = none
  kept : ∀ a, v.index a ≠ some i → v'.index a = v.index a

theorem Hooked.coherent {keys : κ → Prop} (h : v.Hooked i keys v') (hv : v.Coherent) : v'.Coherent := by
  intro a j hj
  by_cases hk : keys a
  · rw [h.taken a hk] at hj
    cases hj
    exact (h.here a).mpr hk
  · rw [h.kept a hk] at hj
    have hown := hv a j hj
    have hne : j ≠ i := fun e => h.free a (e ▸ hown)
    exact (h.others j a hne).mpr hown

theorem Unhooked.coherent (h : v.Unhooked i v') (hv : v.Coherent) : v'.Coherent := by
  intro a j hj
  by_cases hi : v.index a = some i
  · rw [h.dropped a hi] at hj
    cases hj
  · rw [h.kept a hi] at hj
    have hne : j ≠ i := fun e => hi (e ▸ hj)
    exact (h.others j a hne).mpr (hv a j hj)

theorem Hooked.settled {keys : κ → Prop} (h : v.Hooked i keys v') (hv : v.Settled rank)
    (hlast : ∀ a, keys a → ∀ j, v.owns j a → rank j < rank i) : v'.Settled rank := by
  intro a j
  by_cases hk : keys a
  · rw [h.taken a hk]
    constructor
    · intro e
      cases Option.some.inj e
      refine ⟨(h.here a).mpr hk, ?_⟩
      intro x hx
      by_cases he : x = i
      · exact Nat.le_of_eq (congrArg rank he)
      · exact Nat.le_of_lt (hlast a hk x ((h.others x a he).mp hx))
    · rintro ⟨hown, hmax⟩
      have hle := hmax i ((h.here a).mpr hk)
      by_cases he : j = i
      · rw [he]
      · have hlt := hlast a hk j ((h.others j a he).mp hown)
        omega
  · have howns : ∀ x, v'.owns x a ↔ v.owns x a := by
      intro x
      by_cases he : x = i
      · subst x
        exact ⟨fun hx => absurd ((h.here a).mp hx) hk, fun hx => absurd hx (h.free a)⟩
      · exact h.others x a he
    rw [h.kept a hk, hv a j]
    unfold Last
    simp only [howns]

theorem Unhooked.settled (h : v.Unhooked i v') (hv : v.Settled rank)
    (halone : ∀ a, v.index a = some i → ∀ j, v.owns j a → j = i) : v'.Settled rank := by
  intro a j
  by_cases hi : v.index a = some i
  · rw [h.dropped a hi]
    constructor
    · intro e
      cases e
    · rintro ⟨hown, _⟩
      by_cases he : j = i
      · exact absurd (he ▸ hown) (h.here a)
      · exact absurd (halone a hi j ((h.others j a he).mp hown)) he
  · rw [h.kept a hi, hv a j]
    constructor
    · rintro ⟨hown, hmax⟩
      have hne : j ≠ i := by
        intro e
        subst j
        exact hi ((hv a i).mpr ⟨hown, hmax⟩)
      refine ⟨(h.others j a hne).mpr hown, ?_⟩
      intro x hx
      have hxne : x ≠ i := fun e => h.here a (e ▸ hx)
      exact hmax x ((h.others x a hxne).mp hx)
    · rintro ⟨hown, hmax⟩
      have hne : j ≠ i := fun e => h.here a (e ▸ hown)
      have hold := (h.others j a hne).mp hown
      refine ⟨hold, ?_⟩
      intro x hx
      by_cases he : x = i
      · subst x
        by_contra hlt
        -- otherwise the slot that gives the key up was the last one
        refine hi ((hv a i).mpr ⟨hx, ?_⟩)
        intro y hy
        by_cases hy' : y = i
        · exact Nat.le_of_eq (congrArg rank hy')
        · have := hmax y ((h.others y a hy').mpr hy)
          omega
      · exact hmax x ((h.others x a he).mpr hx)

theorem settled_iff_renamed (ρ : κ ≃ κ) (howns : ∀ i a, v'.owns i (ρ a) ↔ v.owns i a)
    (hbuilt : v'.Settled rank) : (∀ a, v'.index (ρ a) = v.index a) ↔ v.Settled rank := by
  have hrenamed : ∀ a i, v'.index (ρ a) = some i ↔ Last rank v.owns a i := by
    intro a i
    rw [hbuilt (ρ a) i]
    unfold Last
    simp only [howns]
  constructor
  · intro h a i
    rw [← h a]
    exact hrenamed a i
  · intro h a
    apply Option.ext
    intro i
    rw [hrenamed a i, h a i]

end View

theorem foldl_last (rank : ι → Nat) (owns : ι → Prop) (index : σ → Option ι) (I : σ → Prop) {f : σ → ι → σ}
    (hI : ∀ s i, I s → I (f s i)) (htake : ∀ s i, I s → owns i → index (f s i) = some i)
    (hkeep : ∀ s i, I s → ¬ owns i → index (f s i) = index s)
    {s : σ} (hs : I s) (hnone : index s = none) {l : List ι} (hl : l.Pairwise fun i j => rank i < rank j) :
    I (l.foldl f s) ∧ ∀ i, index (l.foldl f s) = some i ↔ i ∈ l ∧ owns i ∧ ∀ j ∈ l, owns j → rank j ≤ rank i := by
  induction l using List.reverseRecOn with
  | nil => exact ⟨hs, by simp [hnone]⟩
  | append_singleton l x ih =>
    rw [foldl_append, foldl_cons, foldl_nil]
    obtain ⟨hl', _, hlt⟩ := pairwise_append.mp hl
    obtain ⟨hinv, hlast⟩ := ih hl'
    refine ⟨hI _ x hinv, ?_⟩
    intro i
    by_cases hx : owns x
    · rw [htake _ x hinv hx]
      constructor
      · intro e
        rw [← Option.some.inj e]
        refine ⟨mem_append_right l (mem_singleton_self x), hx, ?_⟩
        intro j hj _
        rcases mem_append.mp hj with hj | hj
        · exact Nat.le_of_lt (hlt j hj x (mem_singleton_self x))
        · exact Nat.le_of_eq (congrArg rank (mem_singleton.mp hj))
      · rintro ⟨hi, _, hmax⟩
        rcases mem_append.mp hi with hi | hi
        · have h₁ := hlt i hi x (mem_singleton_self x)
          have h₂ := hmax x (mem_append_right l (mem_singleton_self x)) hx
          omega
        · rw [mem_singleton.mp hi]
    · rw [hkeep _ x hinv hx, hlast i]
      constructor
      · rintro ⟨hi, hown, hmax⟩
        refine ⟨mem_append_left [x] hi, hown, ?_⟩
        intro j hj hown'
        rcases mem_append.mp hj with hj | hj
        · exact hmax j hj hown'
        · exact absurd (mem_singleton.mp hj ▸ hown') hx
      · rintro ⟨hi, hown, hmax⟩
        rcases mem_append.mp hi with hi | hi
        · exact ⟨hi, hown, fun j hj => hmax j (mem_append_left [x] hj)⟩
        · exact absurd (mem_singleton.mp hi ▸ hown) hx

end SlotIndex
