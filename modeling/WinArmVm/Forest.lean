import Mathlib.Data.Option.Basic

/-- A forest given by parent links. The depth is the measure every climb to a root goes down by. -/
structure Forest (α : Type) where
  parent : α → Option α
  depth : α → Nat
  depth_lt : ∀ {a p}, parent a = some p → depth p < depth a

namespace Forest

open Option

variable {α β : Type} (F : Forest α)

/-- The first answer of `f` met while climbing, after at most `n` nodes. -/
def climb (f : α → Option β) : Nat → α → Option β
  | 0, _ => none
  | n + 1, a =>
    match f a with
    | some b => some b
    | none => (F.parent a).bind (climb f n)

def firstOn (f : α → Option β) (a : α) : Option β := F.climb f (F.depth a + 1) a

/-- Whether `b` is met while climbing from `a`, `a` itself first. -/
def meets [DecidableEq α] (b : α) : Nat → α → Bool
  | 0, _ => false
  | n + 1, a => a = b || (F.parent a).any (meets b n)

def onChain [DecidableEq α] (a b : α) : Bool := F.meets b (F.depth a + 1) a

variable {F}

theorem climbing {P : α → Prop} (step : ∀ a, (∀ p, F.parent a = some p → P p) → P a) (a : α) : P a := by
  induction a using (measure F.depth).wf.induction with
  | h a ih =>
    apply step
    intro p hp
    exact ih p (F.depth_lt hp)

theorem climb_enough (f : α → Option β) (a : α) : ∀ n, F.depth a < n → F.climb f n a = F.firstOn f a := by
  induction a using F.climbing with
  | step a ih =>
    intro n hn
    obtain ⟨m, rfl⟩ := Nat.exists_eq_succ_of_ne_zero (Nat.ne_zero_of_lt hn)
    unfold firstOn climb
    cases hf : f a with
    | some b => rfl
    | none =>
      cases hp : F.parent a with
      | none => rfl
      | some p =>
        have hd := F.depth_lt hp
        change F.climb f m p = F.climb f (F.depth a) p
        rw [ih p hp m (by omega), ih p hp _ hd]

theorem firstOn_eq (f : α → Option β) (a : α) : F.firstOn f a = (f a).or ((F.parent a).bind (F.firstOn f)) := by
  rw [firstOn, climb]
  cases hf : f a with
  | some b => rfl
  | none =>
    cases hp : F.parent a with
    | none => rfl
    | some p => exact climb_enough f p _ (F.depth_lt hp)

variable {f : α → Option β} {a : α}

theorem firstOn_of_some {b : β} (h : f a = some b) : F.firstOn f a = some b := by
  rw [firstOn_eq, h, some_or]

theorem firstOn_of_none (h : f a = none) : F.firstOn f a = (F.parent a).bind (F.firstOn f) := by
  rw [firstOn_eq, h, none_or]

theorem exists_of_firstOn {b : β} (h : F.firstOn f a = some b) : ∃ c, f c = some b := by
  induction a using F.climbing with
  | step a ih =>
    cases hf : f a with
    | some b' =>
      rw [firstOn_of_some hf] at h
      exact ⟨a, hf.trans h⟩
    | none =>
      rw [firstOn_of_none hf] at h
      obtain ⟨p, hp, hb⟩ := bind_eq_some_iff.mp h
      exact ih p hp hb

theorem meets_enough [DecidableEq α] (b a : α) : ∀ n, F.depth a < n → F.meets b n a = F.onChain a b := by
  induction a using F.climbing with
  | step a ih =>
    intro n hn
    obtain ⟨m, rfl⟩ := Nat.exists_eq_succ_of_ne_zero (Nat.ne_zero_of_lt hn)
    unfold onChain meets
    cases hp : F.parent a with
    | none => rfl
    | some p =>
      have hd := F.depth_lt hp
      simp only [any_some]
      rw [ih p hp m (by omega), ih p hp _ hd]

theorem onChain_self [DecidableEq α] (a : α) : F.onChain a a = true := by
  simp [onChain, meets]

theorem onChain_parent [DecidableEq α] {a b p : α} (hp : F.parent a = some p)
    (h : F.onChain p b = true) : F.onChain a b = true := by
  have hd := F.depth_lt hp
  unfold onChain meets
  rw [hp, any_some, meets_enough b p _ hd, h]
  simp

variable {f g : α → Option β}

theorem firstOn_congr [DecidableEq α] (h : ∀ b, F.onChain a b = true → f b = g b) : F.firstOn f a = F.firstOn g a := by
  induction a using F.climbing with
  | step a ih =>
    rw [firstOn_eq f, firstOn_eq g, h a (onChain_self a)]
    cases hp : F.parent a with
    | none => rfl
    | some p =>
      simp only [bind_some]
      rw [ih p hp fun b hb => h b (onChain_parent hp hb)]

theorem firstOn_isSome (h : ∀ b, (f b).isSome → (g b).isSome)
    (ha : (F.firstOn f a).isSome) : (F.firstOn g a).isSome := by
  induction a using F.climbing with
  | step a ih =>
    cases hg : g a with
    | some b => simp [firstOn_of_some hg]
    | none =>
      have hf : f a = none := by
        cases hf : f a with
        | none => rfl
        | some b => simpa [hg] using h a (by simp [hf])
      rw [firstOn_of_none hf] at ha
      rw [firstOn_of_none hg]
      cases hp : F.parent a with
      | none => simp [hp] at ha
      | some p =>
        simp only [hp, bind_some] at ha ⊢
        exact ih p hp ha

end Forest
