import Mathlib.Data.List.Infix

structure BoundedLoop (σ β : Type) where
  step : σ → σ ⊕ β
  size : σ → Nat
  shrinks : ∀ {s s'}, step s = .inl s' → size s' < size s

namespace BoundedLoop

variable {σ β : Type} (l : BoundedLoop σ β)

def go : (turns : Nat) → (s : σ) → l.size s < turns → β
  | 0, _, h => absurd h (Nat.not_lt_zero _)
  | turns + 1, s, h =>
    match hs : l.step s with
    | .inl s' => go turns s' (Nat.lt_of_lt_of_le (l.shrinks hs) (Nat.le_of_lt_succ h))
    | .inr b => b

def run (s : σ) : β := l.go (l.size s + 1) s (Nat.lt_succ_self _)

theorem go_done {turns : Nat} {s : σ} {b : β} (h : l.step s = .inr b) (hs : l.size s < turns + 1) :
    l.go (turns + 1) s hs = b := by
  unfold go
  split
  next s' hs => cases h.symm.trans hs
  next b' hs => exact (Sum.inr.inj (h.symm.trans hs)).symm

theorem go_next {turns : Nat} {s s' : σ} (h : l.step s = .inl s') (hs : l.size s < turns + 1) : l.go (turns + 1) s hs =
      l.go turns s' (Nat.lt_of_lt_of_le (l.shrinks h) (Nat.le_of_lt_succ hs)) := by
  rw [go]
  split
  next s'' hs' =>
    cases Sum.inl.inj (h.symm.trans hs')
    rfl
  next b hs' => cases h.symm.trans hs'

theorem go_eq (turns turns' : Nat) : ∀ (s : σ) (h : l.size s < turns) (h' : l.size s < turns'),
    l.go turns s h = l.go turns' s h' := by
  induction turns generalizing turns' with
  | zero => exact fun _ h => absurd h (Nat.not_lt_zero _)
  | succ turns ih =>
    intro s h h'
    cases turns' with
    | zero => exact absurd h' (Nat.not_lt_zero _)
    | succ turns' =>
      cases hs : l.step s with
      | inl s' =>
        rw [l.go_next hs, l.go_next hs]
        exact ih turns' s' _ _
      | inr b => rw [l.go_done hs, l.go_done hs]

theorem run_done {s : σ} {b : β} (h : l.step s = .inr b) : l.run s = b := l.go_done h _

theorem run_next {s s' : σ} (h : l.step s = .inl s') : l.run s = l.run s' := by
  unfold run
  rw [l.go_next h]
  exact l.go_eq _ _ s' _ _

theorem run_induct {P : σ → β → Prop} (done : ∀ s b, l.step s = .inr b → P s b)
    (next : ∀ s s' b, l.step s = .inl s' → P s' b → P s b) (s : σ) : P s (l.run s) := by
  have h : ∀ n s, l.size s < n → P s (l.run s) := by
    intro n
    induction n with
    | zero => exact fun _ h => absurd h (Nat.not_lt_zero _)
    | succ n ih =>
      intro s hs
      cases hstep : l.step s with
      | inr b =>
        rw [l.run_done hstep]
        exact done s b hstep
      | inl s' =>
        rw [l.run_next hstep]
        exact next s s' _ hstep (ih s' (Nat.lt_of_lt_of_le (l.shrinks hstep) (Nat.le_of_lt_succ hs)))
  exact h _ s (Nat.lt_succ_self _)

end BoundedLoop

def Scan (α β : Type) : Type := List α → β × List α

namespace Scan

variable {α β γ : Type}

instance : Monad (Scan α) where
  pure b := fun s => (b, s)
  bind f g := fun s => g (f s).1 (f s).2

theorem bind_apply (f : Scan α β) (g : β → Scan α γ) (s : List α) : (f >>= g) s = g (f s).1 (f s).2 := rfl

theorem pure_apply (b : β) (s : List α) : (pure b : Scan α β) s = (b, s) := rfl

theorem dropWhile_stops {p : α → Bool} {l cs : List α} {c : α} (h : l.dropWhile p = c :: cs) : p c = false := by
  have hne : l.dropWhile p ≠ [] := by rw [h]; exact List.cons_ne_nil _ _
  have hhead := List.head_dropWhile_not p hne
  simp only [h, List.head_cons] at hhead
  exact hhead

def peek : Scan α (Option α) := fun s => (s.head?, s)

def advance : Scan α (Option α) := fun s => (s.head?, s.tail)

def takeWhile (p : α → Bool) : Scan α (List α) := fun s => (s.takeWhile p, s.dropWhile p)

def eat [BEq α] (lit : List α) : Scan α Bool := fun s => if lit.isPrefixOf s then (true, s.drop lit.length) else (false, s)

def lookahead (f : Scan α β) : Scan α β := fun s => ((f s).1, s)

def attempt (f : Scan α (Option β)) : Scan α (Option β) := fun s =>
  match f s with
  | (some b, rest) => (some b, rest)
  | (none, _) => (none, s)

variable {f : Scan α (Option β)} {g : β → Scan α γ} {x y : List α}

theorem attempt_none {s : List α} (h : (attempt f s).1 = none) : (attempt f s).2 = s := by
  unfold attempt at h ⊢
  split at h
  next => cases h
  next => rfl

theorem attempt_some {s rest : List α} {b : β} (h : attempt f s = (some b, rest)) : f s = (some b, rest) := by
  unfold attempt at h
  split at h
  next hs => rw [hs, h]
  next => cases h

def given (c : Prop) [Decidable c] (f : Scan α β) (b : β) : Scan α β := if c then f else pure b

def Progress {σ : Type} (turn : σ → Scan α (σ ⊕ β)) : Prop :=
  ∀ a a' s s', turn a s = (.inl a', s') → s'.length < s.length

def loopTurns {σ : Type} (turn : σ → Scan α (σ ⊕ β)) (h : Progress turn) : BoundedLoop (σ × List α) (β × List α) where
  step r :=
    match turn r.1 r.2 with
    | (.inl a, s) => .inl (a, s)
    | (.inr b, s) => .inr (b, s)
  size r := r.2.length
  shrinks {r r'} hr := by
    split at hr
    next a s hs =>
      cases Sum.inl.inj hr
      exact h _ _ _ _ hs
    next => cases hr

def loop {σ : Type} (turn : σ → Scan α (σ ⊕ β)) (h : Progress turn) (a : σ) : Scan α β := fun s => (loopTurns turn h).run (a, s)

section

variable {σ : Type} {turn : σ → Scan α (σ ⊕ β)} (h : Progress turn)

theorem loop_next {a a' : σ} {s s' : List α} (ht : turn a s = (.inl a', s')) : loop turn h a s = loop turn h a' s' := by
  apply (loopTurns turn h).run_next
  dsimp only [loopTurns]
  rw [ht]

theorem loop_done {a : σ} {b : β} {s s' : List α} (ht : turn a s = (.inr b, s')) : loop turn h a s = (b, s') := by
  apply (loopTurns turn h).run_done
  dsimp only [loopTurns]
  rw [ht]

theorem loop_induct {P : σ → List α → β × List α → Prop} (done : ∀ a s b s', turn a s = (.inr b, s') → P a s (b, s'))
    (next : ∀ a s a' s' r, turn a s = (.inl a', s') → P a' s' r → P a s r) (a : σ) (s : List α) :
    P a s (loop turn h a s) := by
  refine (loopTurns turn h).run_induct (P := fun r b => P r.1 r.2 b) ?_ ?_ (a, s)
  · intro r b hr
    dsimp only [loopTurns] at hr
    split at hr
    next => cases hr
    next b s hs =>
      cases Sum.inr.inj hr
      exact done _ _ _ _ hs
  · intro r r' b hr hp
    dsimp only [loopTurns] at hr
    split at hr
    next a s hs =>
      cases Sum.inl.inj hr
      exact next _ _ _ _ _ hs hp
    next => cases hr

end

/-- A scan of `x` that ends before `y`, whatever comes behind. -/
def Reads (f : Scan α β) (x : List α) (v : β) (y : List α) : Prop := ∀ t, f (x ++ t) = (v, y ++ t)

/-- A scan that leaves a rest of what it is given, and looks no further than the next character. -/
structure Steady (f : Scan α β) : Prop where
  suffix : ∀ s, (f s).2 <:+ s
  reads : ∀ {x y t v}, f (x ++ t) = (v, y ++ t) → y ≠ [] → Reads f x v y

theorem rest_before {r x t y : List α} (hr : r <:+ x ++ t) (hy : y ++ t <:+ r) (hne : y ≠ []) :
    ∃ z, z ≠ [] ∧ r = z ++ t ∧ z <:+ x := by
  obtain ⟨w, rfl⟩ := hy
  refine ⟨w ++ y, by simp [hne], by simp, ?_⟩
  rw [← List.append_assoc] at hr
  exact List.suffix_append_self_iff.mp hr

theorem Reads.bind {f : Scan α β} {x y z : List α} {b : β} {c : γ} (hf : Reads f x b y)
    (hg : Reads (g b) y c z) : Reads (f >>= g) x c z := by
  intro t
  rw [bind_apply, hf t]
  exact hg t

theorem Reads.attempt_some {b : β} (hf : Reads f x (some b) y) : Reads (attempt f) x (some b) y := by
  intro t
  unfold attempt
  rw [hf t]

theorem Reads.attempt_none (hf : Reads f x none y) : Reads (attempt f) x none x := by
  intro t
  unfold attempt
  rw [hf t]

theorem Reads.lookahead {f : Scan α β} {b : β} (hf : Reads f x b y) : Reads (lookahead f) x b x := by
  intro t
  unfold Scan.lookahead
  rw [hf t]

theorem Reads.eat [BEq α] [LawfulBEq α] {lit x y t : List α} (h : eat lit (x ++ t) = (true, y ++ t)) :
    Reads (eat lit) x true y := by
  have hx : x = lit ++ y := by
    unfold Scan.eat at h
    split at h
    next hp =>
      obtain ⟨w, hw⟩ := List.isPrefixOf_iff_prefix.mp hp
      have hr : (x ++ t).drop lit.length = y ++ t := congrArg Prod.snd h
      rw [← hw, List.drop_left] at hr
      rw [hr, ← List.append_assoc] at hw
      exact (List.append_cancel_right hw).symm
    next => cases h
  intro t'
  unfold Scan.eat
  rw [hx, List.append_assoc, if_pos (List.isPrefixOf_iff_prefix.mpr (List.prefix_append _ _)), List.drop_left]

namespace Steady

theorem pure (b : β) : Steady (pure b : Scan α β) := by
  refine ⟨fun s => List.suffix_refl s, fun {x y t v} h _ t' => ?_⟩
  obtain ⟨hb, hs⟩ := Prod.mk.inj h
  rw [List.append_cancel_right hs, ← hb]
  rfl

theorem bind {f : Scan α β} {g : β → Scan α γ} (hf : Steady f) (hg : ∀ b, Steady (g b)) : Steady (f >>= g) := by
  refine ⟨fun s => ((hg _).suffix _).trans (hf.suffix s), fun {x y t v} h hy => ?_⟩
  rw [bind_apply] at h
  have hrest := (hg (f (x ++ t)).1).suffix (f (x ++ t)).2
  rw [h] at hrest
  obtain ⟨z, hz, hr, _⟩ := rest_before (hf.suffix _) hrest hy
  have hfz : f (x ++ t) = ((f (x ++ t)).1, z ++ t) := by rw [← hr]
  rw [hr] at h
  exact (hf.reads hfz hz).bind ((hg _).reads h hy)

theorem head_of_ne {x : List α} (hx : x ≠ []) (t : List α) : (x ++ t).head? = x.head? := by
  cases x with
  | nil => exact absurd rfl hx
  | cons c cs => rfl

theorem peek : Steady (peek : Scan α (Option α)) := by
  refine ⟨fun s => List.suffix_refl s, fun {x y t v} h hy t' => ?_⟩
  obtain ⟨hv, hs⟩ := Prod.mk.inj h
  have hs := List.append_cancel_right hs
  subst hs
  rw [head_of_ne hy] at hv
  unfold Scan.peek
  rw [head_of_ne hy, hv]

theorem advance : Steady (advance : Scan α (Option α)) := by
  refine ⟨fun s => List.tail_suffix s, fun {x y t v} h hy t' => ?_⟩
  obtain ⟨hv, hs⟩ := Prod.mk.inj h
  cases x with
  | nil =>
    have hlen := congrArg List.length hs
    have hpos := List.length_pos_iff.mpr hy
    rw [List.length_tail, List.length_append, List.length_append, List.length_nil] at hlen
    omega
  | cons c cs =>
    rw [← hv, ← List.append_cancel_right hs]
    rfl

theorem takeWhile (p : α → Bool) : Steady (takeWhile p) := by
  refine ⟨fun s => List.dropWhile_suffix p, fun {x y t v} h hy t' => ?_⟩
  obtain ⟨hv, hs⟩ := Prod.mk.inj h
  subst hv
  unfold Scan.takeWhile
  clear h
  induction x with
  | nil =>
    have hlen := (List.dropWhile_suffix p (l := [] ++ t)).length_le
    have hpos := List.length_pos_iff.mpr hy
    rw [hs, List.length_append, List.nil_append] at hlen
    omega
  | cons c cs ih =>
    rw [List.cons_append, List.cons_append] at *
    by_cases hc : p c = true
    · rw [List.dropWhile_cons_of_pos hc] at hs
      rw [List.takeWhile_cons_of_pos hc, List.dropWhile_cons_of_pos hc, List.takeWhile_cons_of_pos hc]
      have h := Prod.mk.inj (ih hs)
      rw [h.1, h.2]
    · rw [List.dropWhile_cons_of_neg hc, ← List.cons_append] at hs
      rw [List.takeWhile_cons_of_neg hc, List.dropWhile_cons_of_neg hc, List.takeWhile_cons_of_neg hc,
        ← List.append_cancel_right hs]
      rfl

theorem ite {c : Prop} [Decidable c] {f g : Scan α β} (hf : Steady f) (hg : Steady g) : Steady (if c then f else g) := by
  split
  next => exact hf
  next => exact hg

theorem loop {σ : Type} {turn : σ → Scan α (σ ⊕ β)} (h : Progress turn) (ht : ∀ a, Steady (turn a)) (a : σ) :
    Steady (loop turn h a) := by
  have hrun : ∀ s, (Scan.loop turn h a s).2 <:+ s ∧ ∀ x y t v, s = x ++ t → Scan.loop turn h a s = (v, y ++ t) →
      y ≠ [] → Reads (Scan.loop turn h a) x v y := by
    intro s
    refine loop_induct h (P := fun a s r => r.2 <:+ s ∧ ∀ x y t v, s = x ++ t → r = (v, y ++ t) → y ≠ [] →
      Reads (Scan.loop turn h a) x v y) ?_ ?_ a s
    · intro a s b s' hs
      have hsuffix := (ht a).suffix s
      rw [hs] at hsuffix
      refine ⟨hsuffix, fun x y t v hx hv hy t' => ?_⟩
      rw [hx] at hs
      obtain ⟨rfl, rfl⟩ := Prod.mk.inj hv
      exact loop_done h ((ht a).reads hs hy t')
    · intro a s a' s' r hs hr
      have hsuffix := (ht a).suffix s
      rw [hs] at hsuffix
      refine ⟨hr.1.trans hsuffix, fun x y t v hx hv hy t' => ?_⟩
      rw [hx] at hs hsuffix
      have hrest := hr.1
      rw [hv] at hrest
      obtain ⟨z, hz, rfl, _⟩ := rest_before hsuffix hrest hy
      rw [loop_next h ((ht a).reads hs hz t')]
      exact hr.2 z y t v rfl hv hy t'
  exact ⟨fun s => (hrun s).1, fun {x y t v} hr hy => (hrun _).2 x y t v rfl hr hy⟩

end Steady

variable {σ : Type}

theorem progress_advance {g : σ → Option α → Scan α (σ ⊕ β)} (hg : ∀ a c, Steady (g a c))
    (hnone : ∀ a, ∃ b s, g a none [] = (.inr b, s)) : Progress fun a => (advance : Scan α _) >>= g a := by
  intro a a' s s' h
  have h : g a s.head? s.tail = (.inl a', s') := h
  cases s with
  | nil =>
    obtain ⟨b, s, hb⟩ := hnone a
    cases hb.symm.trans h
  | cons c cs =>
    have hle := (hg a (some c)).suffix cs
    have hr : (g a (some c) cs).2 = s' := congrArg Prod.snd h
    rw [hr] at hle
    exact Nat.lt_succ_of_le hle.length_le

def Trims (f : Scan α β) : Prop := ∀ s, (f s).2 <:+ s

theorem Trims.attempt (hf : Trims f) : Trims (attempt f) := by
  intro s
  unfold Scan.attempt
  have h := hf s
  split
  next b rest hs =>
    rw [hs] at h
    exact h
  next => exact List.suffix_refl s

theorem trims_eat [BEq α] (lit : List α) : Trims (eat lit) := by
  intro s
  unfold eat
  split
  next => exact List.drop_suffix _ _
  next => exact List.suffix_refl s

theorem Trims.bind {f : Scan α β} (hf : Trims f) (hg : ∀ b, Trims (g b)) : Trims (f >>= g) :=
  fun s => (hg _ _).trans (hf s)

theorem Trims.ite {c : Prop} [Decidable c] {f g : Scan α β} (hf : Trims f) (hg : Trims g) :
    Trims (if c then f else g) := by
  split
  next => exact hf
  next => exact hg

theorem Trims.given {c : Prop} [Decidable c] {f : Scan α β} (hf : Trims f) (b : β) : Trims (given c f b) :=
  .ite hf (Steady.pure b).suffix

theorem Trims.loop {turn : σ → Scan α (σ ⊕ β)} (h : Progress turn) (ht : ∀ a, Trims (turn a)) (a : σ) :
    Trims (loop turn h a) := by
  intro s
  refine loop_induct h (P := fun _ s r => r.2 <:+ s) ?_ ?_ a s
  · intro a s b s' hs
    have hsuf := ht a s
    rw [hs] at hsuf
    exact hsuf
  · intro a s a' s' b hs hb
    have hsuf := ht a s
    rw [hs] at hsuf
    exact hb.trans hsuf

theorem Trims.lookahead (f : Scan α β) : Trims (lookahead f) := fun s => List.suffix_refl s

def Eats (f : Scan α β) : Prop := ∀ c cs, (f (c :: cs)).2 <:+ cs

theorem Eats.advance : Eats (advance : Scan α _) := fun _ cs => List.suffix_refl cs

theorem Eats.bind {f : Scan α β} (hf : Eats f) (hg : ∀ b, Trims (g b)) : Eats (f >>= g) :=
  fun c cs => (hg _ _).trans (hf c cs)

theorem Eats.ite {c : Prop} [Decidable c] {f g : Scan α β} (hf : Eats f) (hg : Eats g) : Eats (if c then f else g) := by
  split
  next => exact hf
  next => exact hg

theorem progress_peek {g : σ → Option α → Scan α (σ ⊕ β)} (hg : ∀ a c, Eats (g a (some c)))
    (hnone : ∀ a, ∃ b s, g a none [] = (.inr b, s)) : Progress fun a => (peek : Scan α _) >>= g a := by
  intro a a' s s' h
  have h : g a s.head? s = (.inl a', s') := h
  cases s with
  | nil =>
    obtain ⟨b, s, hb⟩ := hnone a
    cases hb.symm.trans h
  | cons c cs =>
    have hle := hg a c c cs
    have hr : (g a (some c) (c :: cs)).2 = s' := congrArg Prod.snd h
    rw [hr] at hle
    exact Nat.lt_succ_of_le hle.length_le

end Scan
