import Mathlib.Data.Sum.Basic
import Mathlib.Data.List.Basic

namespace StateRun

variable {σ τ ε α β γ δ : Type}

abbrev Run (σ ε α : Type) : Type := StateT σ (ExceptT ε Option) α

def exhausted : Run σ ε α := fun _ => none

/-- As many turns as a loop makes, up to a number of them. -/
def loop (step : β → Run σ ε (β ⊕ γ)) : Nat → β → Run σ ε γ
  | 0, _ => exhausted
  | n + 1, b => step b >>= fun
    | .inl b => loop step n b
    | .inr c => pure c

theorem bind_eq (p : Run σ ε α) (f : α → Run σ ε β) (s : σ) : (p >>= f) s = match p s with
      | none => none
      | some (.error e) => some (.error e)
      | some (.ok (a, t)) => f a t := by
  have hbind : (p >>= f) s = Option.bind (p s) (ExceptT.bindCont fun r => f r.1 r.2) := rfl
  rw [hbind]
  cases p s with
  | none => rfl
  | some r => cases r <;> rfl

theorem bind_ok {p : Run σ ε α} {f : α → Run σ ε β} {s u : σ} {b : β} (h : (p >>= f) s = some (.ok (b, u))) :
    ∃ a t, p s = some (.ok (a, t)) ∧ f a t = some (.ok (b, u)) := by
  rw [bind_eq] at h
  split at h
  next => cases h
  next => cases h
  next a t ht => exact ⟨a, t, ht, h⟩

section Ends

variable {Q Q' : α → σ → Prop} {E E' : ε → Prop}

/-- The computation is not exhausted; what it answers and what it fails with are as said. -/
def Ends (p : Run σ ε α) (Q : α → σ → Prop) (E : ε → Prop) (s : σ) : Prop :=
  match p s with
  | none => False
  | some (.error e) => E e
  | some (.ok (a, t)) => Q a t

theorem Ends.mono {p : Run σ ε α} {s : σ} (h : Ends p Q E s) (hQ : ∀ a t, Q a t → Q' a t)
    (hE : ∀ e, E e → E' e) : Ends p Q' E' s := by
  unfold Ends at h ⊢
  split at h
  next => exact h
  next e _ => exact hE e h
  next a t _ => exact hQ a t h

theorem Ends.answers {p : Run σ ε α} {s : σ} (h : Ends p Q E s) : ∃ r, p s = some r := by
  unfold Ends at h
  cases hrun : p s with
  | none =>
    rw [hrun] at h
    exact h.elim
  | some r => exact ⟨r, rfl⟩

theorem Ends.bind {p : Run σ ε α} {f : α → Run σ ε β} {R : β → σ → Prop} {s : σ} (h : Ends p Q E s)
    (hf : ∀ a t, Q a t → Ends (f a) R E t) : Ends (p >>= f) R E s := by
  unfold Ends at h
  unfold Ends
  rw [bind_eq]
  generalize p s = r at h
  cases r with
  | none => exact h
  | some r =>
    cases r with
    | error e => exact h
    | ok r => exact hf r.1 r.2 h

end Ends

end StateRun

namespace Triple

variable {ε σ α β : Type} {A : ε → Prop} {P Q : α → σ → Prop}

def Ends (A : ε → Prop) (P : α → σ → Prop) : EStateM.Result ε σ α → Prop
  | .ok a s => P a s
  | .error e _ => A e

variable {f : α → EStateM ε σ PUnit} {x : EStateM ε σ α}

theorem bind_ok {f : α → EStateM ε σ β} {a : α} {s t : σ} (h : x s = .ok a t) : (x >>= f) s = f a t := by
  show (match x s with | .ok a t => f a t | .error e t => .error e t) = f a t
  rw [h]

theorem get_bind (f : σ → EStateM ε σ β) (s : σ) : (get >>= f) s = f s s := rfl

theorem set_apply (s t : σ) : (set t : EStateM ε σ PUnit) s = .ok ⟨⟩ t := rfl

theorem modify_apply (f : σ → σ) (s : σ) : (modify f : EStateM ε σ PUnit) s = .ok ⟨⟩ (f s) := rfl

theorem Ends.mono {r : EStateM.Result ε σ α} (h : Ends A P r) (hPQ : ∀ a s, P a s → Q a s) : Ends A Q r := by
  cases r with
  | ok a s => exact hPQ a s h
  | error e s => exact h

theorem Ends.bind {f : α → EStateM ε σ β} {R : β → σ → Prop} {s : σ} (hx : Ends A P (x s))
    (hf : ∀ a t, P a t → Ends A R (f a t)) : Ends A R ((x >>= f) s) := by
  show Ends A R (match x s with | .ok a t => f a t | .error e t => .error e t)
  cases h : x s with
  | ok a t =>
    rw [h] at hx
    exact hf a t hx
  | error e t =>
    rw [h] at hx
    exact hx

theorem forM_cons (x : α) (l : List α) : (x :: l).forM f = (f x >>= fun _ => l.forM f) := rfl

theorem ends_forM {I : List α → σ → Prop} (step : ∀ x l s, I (x :: l) s → Ends A (fun _ t => I l t) (f x s)) :
    ∀ (l : List α) (s : σ), I l s → Ends A (fun _ t => I [] t) (l.forM f s) := by
  intro l
  induction l with
  | nil => intro s h; exact h
  | cons x l ih =>
    intro s h
    rw [forM_cons]
    exact (step x l s h).bind fun _ t ht => ih t ht

end Triple
