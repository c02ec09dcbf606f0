import Mathlib.Data.List.Induction

namespace StepRun

open Option List

variable {σ ε : Type} {exec : σ → ε → Option σ} {s t u : σ} {es es' : List ε}

/-- The steps one after another; none where one of them cannot happen. -/
def run (exec : σ → ε → Option σ) (s : σ) : List ε → Option σ
  | [] => some s
  | e :: es => (exec s e).bind fun t => run exec t es

theorem guarded {c : Prop} [Decidable c] (h : (if c then some s else none) = some t) : c ∧ t = s := by
  obtain ⟨hc, ht⟩ := ite_none_right_eq_some.mp h
  exact ⟨hc, (some.inj ht).symm⟩

theorem guarded_not {c : Prop} [Decidable c] (h : (if c then none else some s) = some t) : ¬ c ∧ t = s := by
  obtain ⟨hc, ht⟩ := ite_none_left_eq_some.mp h
  exact ⟨hc, (some.inj ht).symm⟩

theorem run_cons {e : ε} (h : exec s e = some t) : run exec s (e :: es) = run exec t es := by
  rw [run, h, bind_some]

theorem run_append (h : run exec s es = some t) : run exec s (es ++ es') = run exec t es' := by
  induction es generalizing s with
  | nil =>
    cases h
    rfl
  | cons e es ih =>
    obtain ⟨u, hu, hrest⟩ := bind_eq_some_iff.mp h
    rw [cons_append, run_cons hu, ih hrest]

theorem run_split (h : run exec s (es ++ es') = some t) : ∃ u, run exec s es = some u ∧ run exec u es' = some t := by
  induction es generalizing s with
  | nil => exact ⟨s, rfl, h⟩
  | cons e es ih =>
    obtain ⟨u, hu, hrest⟩ := bind_eq_some_iff.mp h
    obtain ⟨v, hv, he⟩ := ih hrest
    exact ⟨v, bind_eq_some_iff.mpr ⟨u, hu, hv⟩, he⟩

theorem run_concat {e : ε} (h : run exec s (es ++ [e]) = some t) : ∃ u, run exec s es = some u ∧ exec u e = some t := by
  obtain ⟨u, hu, hlast⟩ := run_split h
  obtain ⟨v, hv, hrest⟩ := bind_eq_some_iff.mp hlast
  cases hrest
  exact ⟨u, hu, hv⟩

theorem run_keeps {I : σ → Prop} (hstep : ∀ s e t, I s → exec s e = some t → I t) (hs : I s)
    (h : run exec s es = some t) : I t := by
  induction es generalizing s with
  | nil =>
    cases h
    exact hs
  | cons e es ih =>
    obtain ⟨u, hu, hrest⟩ := bind_eq_some_iff.mp h
    exact ih (hstep s e u hs hu) hrest

def Always (exec : σ → ε → Option σ) (s : σ) (es : List ε) (P : σ → Prop) : Prop :=
  ∀ pre post u, es = pre ++ post → run exec s pre = some u → P u

def Stepwise (exec : σ → ε → Option σ) (s : σ) (es : List ε) (M : σ → ε → Prop) : Prop :=
  ∀ pre e post u, es = pre ++ e :: post → run exec s pre = some u → M u e

variable {M : σ → ε → Prop}

theorem stepwise_nil : Stepwise exec s [] M := by
  intro pre e post u heq
  cases pre <;> cases heq

theorem stepwise_cons {e : ε} (hm : M s e) (hx : exec s e = some t)
    (h : Stepwise exec t es M) : Stepwise exec s (e :: es) M := by
  intro pre e' post u heq hu
  cases pre with
  | nil =>
    obtain ⟨rfl, rfl⟩ := List.cons.inj heq
    cases hu
    exact hm
  | cons e'' pre =>
    obtain ⟨rfl, hrest⟩ := List.cons.inj heq
    exact h pre e' post u hrest ((run_cons hx).symm.trans hu)

theorem always_of_stepwise {I : σ → Prop}
    (hkeep : ∀ s e t, I s → M s e → exec s e = some t → I t) (hI : I s) (h : Stepwise exec s es M) :
    Always exec s es I := by
  intro pre
  induction pre using List.reverseRecOn with
  | nil =>
    intro post u _ hu
    cases hu
    exact hI
  | append_singleton pre e ih =>
    intro post u heq hu
    obtain ⟨v, hv, hx⟩ := run_concat hu
    have hsplit : es = pre ++ e :: post := by rw [heq, append_assoc, singleton_append]
    exact hkeep v e u (ih _ v hsplit hv) (h pre e post v hsplit hv) hx

theorem always_iff_stepwise {I P : σ → Prop} (hkeep : ∀ s e t, I s → exec s e = some t → I t)
    (hiff : ∀ s e t, I s → P s → exec s e = some t → (P t ↔ M s e)) (hI : I s) (hP : P s)
    (h : run exec s es = some t) : Always exec s es P ↔ Stepwise exec s es M := by
  constructor
  · intro hall pre e post u heq hu
    have hsplit : es = (pre ++ [e]) ++ post := by rw [heq, append_assoc, singleton_append]
    rw [hsplit] at h
    obtain ⟨v, hv, -⟩ := run_split h
    obtain ⟨u', hu', hx⟩ := run_concat hv
    rw [hu] at hu'
    cases hu'
    exact (hiff u e v (run_keeps hkeep hI hu) (hall pre _ u heq hu) hx).mp (hall _ post v hsplit hv)
  · intro hall
    have hboth := always_of_stepwise (I := fun u => I u ∧ P u)
      (fun s e t hs hm hx => ⟨hkeep s e t hs.1 hx, (hiff s e t hs.1 hs.2 hx).mpr hm⟩) ⟨hI, hP⟩ hall
    exact fun pre post u heq hu => (hboth pre post u heq hu).2

end StepRun
