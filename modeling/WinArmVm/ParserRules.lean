import WinArmVm.Parser

namespace WinArmVm.Frontend.Parser

open StateRun

/-- What is known of a parser: its token, the one after it where it has been looked at, how many tokens it has moved past
at least, how deep in literals it is, and whether its failing is of no account. -/
structure Known where
  cur : Option Tok
  next : Option Tok
  moved : Nat
  depth : Nat
  lax : Bool

namespace Known

def withCur (k : Known) (t : Tok) : Known := { k with cur := some t }

def withNext (k : Known) (t : Tok) : Known := { k with next := some t }

def bumped (k : Known) : Known := { k with
  cur := k.next
  next := none
  moved := match k.cur with
    | some c => if c = .eof then k.moved else k.moved + 1
    | none => k.moved }

/-- The second is known some tokens after the first, when the next token has not been looked at. -/
structure Later (n : Nat) (k k' : Known) : Prop where
  next : k'.next = none
  moved : k.moved + n ≤ k'.moved
  depth : k'.depth = k.depth

def Begins (p : Tok → Bool) (k : Known) : Prop := k.next = none ∨ ∃ c, k.cur = some c ∧ p c = true

variable {k k' k'' : Known} {m n : Nat} {t : Tok}

theorem Later.mono (h : k.Later n k') (hle : m ≤ n) : k.Later m k' := ⟨h.next, by have := h.moved; omega, h.depth⟩

theorem Later.trans (h : k.Later m k') (h' : k'.Later n k'') : k.Later (m + n) k'' :=
  ⟨h'.next, by have := h.moved; have := h'.moved; omega, h'.depth.trans h.depth⟩

theorem Later.step (h : k.Later m k') (h' : k'.Later n k'') : k.Later m k'' := (h.trans h').mono (by omega)

theorem Later.refl (h : k.next = none) : k.Later 0 k := ⟨h, Nat.le_refl _, rfl⟩

theorem Later.withCur (h : k.next = none) : k.Later 0 (k.withCur t) := ⟨h, Nat.le_refl _, rfl⟩

theorem Later.of_withCur (h : (k.withCur t).Later n k') : k.Later n k' := ⟨h.next, h.moved, h.depth⟩

theorem Later.of_withNext (h : (k.withNext t).Later n k') : k.Later n k' := ⟨h.next, h.moved, h.depth⟩

theorem Later.begins {p : Tok → Bool} (h : k.Later n k') : k'.Begins p := Or.inl h.next

theorem bumped_later (hc : k.cur = some t) (ht : t ≠ .eof) : k.Later 1 k.bumped := by
  refine ⟨rfl, ?_, rfl⟩
  simp only [bumped, hc, if_neg ht]
  exact Nat.le_refl _

theorem bumped_later_zero : k.Later 0 k.bumped := by
  refine ⟨rfl, ?_, rfl⟩
  unfold bumped
  split
  next =>
    split
    next => exact Nat.le_refl _
    next => exact Nat.le_succ _
  next => exact Nat.le_refl _

end Known

structure Basics where
  /-- More tokens than that are not passed. -/
  total : Nat
  SameSpan : Span → Span → Prop
  J : {α β : Type} → Known → Parse α → Parse β → (α → β → Known → Prop) → Prop
  mono : ∀ {α β : Type} {k : Known} {p : Parse α} {q : Parse β} {P Q : α → β → Known → Prop}, J k p q P →
    (∀ a b k', P a b k' → Q a b k') → J k p q Q
  pure : ∀ {α β : Type} {k : Known} {a : α} {b : β} {P : α → β → Known → Prop}, P a b k → J k (pure a) (pure b) P
  bind : ∀ {α β γ δ : Type} {k : Known} {p : Parse α} {q : Parse β} {f : α → Parse γ} {g : β → Parse δ}
    {Q : α → β → Known → Prop} {P : γ → δ → Known → Prop}, J k p q Q →
    (∀ a b k', Q a b k' → J k' (f a) (g b) P) → J k (p >>= f) (q >>= g) P
  tok : ∀ {k : Known} {P : Tok → Tok → Known → Prop}, (∀ t, (∀ c, k.cur = some c → t = c) → P t t (k.withCur t)) →
    J k tok tok P
  span : ∀ {k : Known} {P : Span → Span → Known → Prop}, (∀ here here', SameSpan here here' → P here here' k) →
    J k span span P
  /-- Nothing fails between a look at the end of the text and the move to it. -/
  fail : ∀ {α β : Type} {k : Known} {here here' : Span} {msg msg' : String} {P : α → β → Known → Prop},
    k.lax = true ∨ k.next ≠ some .eof → J k (fail here msg) (fail here' msg') P
  bump : ∀ {k : Known} {P : Unit → Unit → Known → Prop}, P () () k.bumped → J k bump bump P
  peek : ∀ {k : Known} {P : Tok → Tok → Known → Prop}, k.next = none → (∃ c, k.cur = some c ∧ c ≠ .eof) →
    (∀ t, P t t (k.withNext t)) → J k peek2 peek2 P
  peekAgain : ∀ {k : Known} {t : Tok} {P : Tok → Tok → Known → Prop}, k.next = some t → P t t k → J k peek2 peek2 P
  setPragmaMode : ∀ {k : Known} {v : Bool} {P : Unit → Unit → Known → Prop}, P () () k →
    J k (setPragmaMode v) (setPragmaMode v) P
  enterLiteralSeq : ∀ {k : Known} {P : Unit → Unit → Known → Prop}, P () () { k with depth := k.depth + 1 } →
    J k enterLiteralSeq enterLiteralSeq P
  exitLiteralSeq : ∀ {k : Known} {P : Unit → Unit → Known → Prop}, P () () { k with depth := k.depth - 1 } →
    J k exitLiteralSeq exitLiteralSeq P
  spent : ∀ {α β : Type} {k : Known} {p : Parse α} {P : α → β → Known → Prop}, total < k.moved → J k p exhausted P
  spent_left : ∀ {α β : Type} {k : Known} {p : Parse α} {q : Parse β} {P : α → β → Known → Prop}, J k p q P →
    J k exhausted q P
  /-- Where the first fails whatever comes next, how the second fails is of no account. -/
  lax : ∀ {α β : Type} {k : Known} {c : Tok} {p : Parse α} {q : Parse β} {P : α → β → Known → Prop}, k.next = none →
    k.cur = some c → c ≠ .eof → (∀ s : Parser, s.cur.1 = c → ∀ r, p s ≠ some (.ok r)) → J { k with lax := true } p q P →
    J k p q P

namespace Basics

variable (L : Basics) {α β γ δ : Type} {k k' : Known} {P : γ → δ → Known → Prop} {R : α → β → Prop} {n : Nat}

theorem tok_bind {f : Tok → Parse γ} {g : Tok → Parse δ}
    (h : ∀ t, (∀ c, k.cur = some c → t = c) → L.J (k.withCur t) (f t) (g t) P) : L.J k (Parser.tok >>= f) (Parser.tok >>= g) P := by
  apply L.bind (Q := fun a b k' => a = b ∧ (∀ c, k.cur = some c → a = c) ∧ k' = k.withCur a)
  · exact L.tok fun t ht => ⟨rfl, ht, rfl⟩
  · rintro t _ _ ⟨rfl, ht, rfl⟩
    exact h t ht

theorem span_bind {f : Span → Parse γ} {g : Span → Parse δ}
    (h : ∀ here here', L.SameSpan here here' → L.J k (f here) (g here') P) :
    L.J k (Parser.span >>= f) (Parser.span >>= g) P := by
  apply L.bind (Q := fun a b k' => L.SameSpan a b ∧ k' = k)
  · exact L.span fun here here' hs => ⟨hs, rfl⟩
  · rintro here here' _ ⟨hs, rfl⟩
    exact h here here' hs

theorem tok_span_bind {f : Tok → Span → Parse γ} {g : Tok → Span → Parse δ}
    (h : ∀ t, (∀ c, k.cur = some c → t = c) → ∀ here here', L.J (k.withCur t) (f t here) (g t here') P) :
    L.J k (Parser.tok >>= fun t => Parser.span >>= f t) (Parser.tok >>= fun t => Parser.span >>= g t) P :=
  L.tok_bind fun t ht => L.span_bind fun here here' _ => h t ht here here'

variable {f : Unit → Parse γ} {g : Unit → Parse δ} {p : Parse α} {q : Parse β}

theorem bump_bind (h : L.J k.bumped (f ()) (g ()) P) : L.J k (Parser.bump >>= f) (Parser.bump >>= g) P := by
  apply L.bind (Q := fun _ _ k' => k' = k.bumped)
  · exact L.bump rfl
  · rintro _ _ _ rfl
    exact h

theorem peek_bind {f : Tok → Parse γ} {g : Tok → Parse δ} (hnext : k.next = none) (hcur : ∃ c, k.cur = some c ∧ c ≠ .eof)
    (h : ∀ t, L.J (k.withNext t) (f t) (g t) P) : L.J k (Parser.peek2 >>= f) (Parser.peek2 >>= g) P := by
  apply L.bind (Q := fun a b k' => a = b ∧ k' = k.withNext a)
  · exact L.peek hnext hcur fun t => ⟨rfl, rfl⟩
  · rintro t _ _ ⟨rfl, rfl⟩
    exact h t

theorem peekAgain_bind {f : Tok → Parse γ} {g : Tok → Parse δ} {t : Tok} (hnext : k.next = some t)
    (h : L.J k (f t) (g t) P) : L.J k (Parser.peek2 >>= f) (Parser.peek2 >>= g) P := by
  apply L.bind (Q := fun a b k' => a = t ∧ b = t ∧ k' = k)
  · exact L.peekAgain hnext ⟨rfl, rfl, rfl⟩
  · rintro _ _ _ ⟨rfl, rfl, rfl⟩
    exact h

theorem setPragmaMode_bind {v : Bool} (h : L.J k (f ()) (g ()) P) :
    L.J k (Parser.setPragmaMode v >>= f) (Parser.setPragmaMode v >>= g) P := by
  apply L.bind (Q := fun _ _ k' => k' = k)
  · exact L.setPragmaMode rfl
  · rintro _ _ _ rfl
    exact h

theorem enterLiteralSeq_bind (h : L.J { k with depth := k.depth + 1 } (f ()) (g ()) P) :
    L.J k (Parser.enterLiteralSeq >>= f) (Parser.enterLiteralSeq >>= g) P := by
  apply L.bind (Q := fun _ _ k' => k' = { k with depth := k.depth + 1 })
  · exact L.enterLiteralSeq rfl
  · rintro _ _ _ rfl
    exact h

theorem exitLiteralSeq_bind (h : L.J { k with depth := k.depth - 1 } (f ()) (g ()) P) :
    L.J k (Parser.exitLiteralSeq >>= f) (Parser.exitLiteralSeq >>= g) P := by
  apply L.bind (Q := fun _ _ k' => k' = { k with depth := k.depth - 1 })
  · exact L.exitLiteralSeq rfl
  · rintro _ _ _ rfl
    exact h

theorem ite {c : Prop} [Decidable c] {x y : Parse γ} {x' y' : Parse δ} (ht : c → L.J k x x' P) (hf : ¬ c → L.J k y y' P) :
    L.J k (if c then x else y) (if c then x' else y') P := by
  by_cases hc : c
  · rw [if_pos hc, if_pos hc]
    exact ht hc
  · rw [if_neg hc, if_neg hc]
    exact hf hc

def Does (k : Known) (p : Parse α) (q : Parse β) (R : α → β → Prop) (n : Nat) : Prop :=
  L.J k p q fun a b k' => R a b ∧ k.Later n k'

variable {L}

theorem Does.bind {f : α → Parse γ} {g : β → Parse δ} (h : L.Does k p q R n)
    (hf : ∀ a b k', R a b → k.Later n k' → L.J k' (f a) (g b) P) : L.J k (p >>= f) (q >>= g) P :=
  L.bind h fun a b k' hab => hf a b k' hab.1 hab.2

theorem Does.of_withCur {t : Tok} (h : L.Does (k.withCur t) p q R n) :
    L.J (k.withCur t) p q fun a b k' => R a b ∧ k.Later n k' :=
  L.mono h fun _ _ _ hab => ⟨hab.1, hab.2.of_withCur⟩

theorem Does.after {m : Nat} (h : L.Does k' p q R n) (hk : k.Later m k') :
    L.J k' p q fun a b k'' => R a b ∧ k.Later m k'' :=
  L.mono h fun _ _ _ hab => ⟨hab.1, hk.step hab.2⟩

variable (L)

def Turn (I : α → β → Prop) (R : γ → δ → Prop) (k : Known) : α ⊕ γ → β ⊕ δ → Known → Prop
  | .inl a, .inl b, k' => I a b ∧ k.Later 1 k'
  | .inr c, .inr d, k' => R c d ∧ k.Later 0 k'
  | _, _, _ => False

variable {step' : β → Parse (β ⊕ δ)} {step : α → Parse (α ⊕ γ)} {I : α → β → Prop}

theorem loop_turn {R : γ → δ → Prop} {a : α} {b : β} (hfirst : L.J k (step a) (step' b) (Turn I R k)) (n : Nat)
    (hrest : ∀ m a' b' k', k.Later 1 k' → I a' b' → L.Does k' (StateRun.loop step m a') (StateRun.loop step' n b') R 0)
    (m : Nat) : L.Does k (StateRun.loop step m a) (StateRun.loop step' (n + 1) b) R 0 := by
  have hturn : ∀ m, L.Does k (StateRun.loop step (m + 1) a) (StateRun.loop step' (n + 1) b) R 0 := by
    intro m
    apply L.bind hfirst
    intro r r' k' hr
    cases r with
    | inl a' =>
      cases r' with
      | inr d => exact hr.elim
      | inl b' =>
        refine L.mono (hrest m a' b' k' hr.2 hr.1) ?_
        intro c d k'' hcd
        exact ⟨hcd.1, (hr.2.mono (Nat.zero_le 1)).step hcd.2⟩
    | inr c =>
      cases r' with
      | inl b' => exact hr.elim
      | inr d => exact L.pure hr
  cases m with
  | zero => exact L.spent_left (hturn 0)
  | succ m => exact hturn m

theorem loop {R : γ → δ → Prop}
    (hstep : ∀ a b k', k.Later 0 k' → I a b → L.J k' (step a) (step' b) (Turn I R k')) (n : Nat) :
    ∀ (m : Nat) (k' : Known) (a : α) (b : β), k.Later 0 k' → I a b → L.total < k'.moved + n →
      L.Does k' (StateRun.loop step m a) (StateRun.loop step' n b) R 0 := by
  induction n with
  | zero =>
    intro m k' a b _ _ hn
    exact L.spent hn
  | succ n ih =>
    intro m k' a b hk hab hn
    refine L.loop_turn (hstep a b k' hk hab) n (fun m a' b' k'' hk'' hab' => ?_) m
    have hmoved := hk''.moved
    exact ih m k'' a' b' (hk.step hk'') hab' (by omega)

theorem loop_from {R : γ → δ → Prop} {a : α} {b : β} (hfirst : L.J k (step a) (step' b) (Turn I R k))
    (hstep : ∀ a b k', k.Later 1 k' → I a b → L.J k' (step a) (step' b) (Turn I R k')) (m n : Nat)
    (hn : L.total < k.moved + n) : L.Does k (StateRun.loop step m a) (StateRun.loop step' n b) R 0 := by
  cases n with
  | zero => exact L.spent hn
  | succ n =>
    refine L.loop_turn hfirst n (fun m a' b' k' hk' hab => ?_) m
    have hmoved := hk'.moved
    exact L.loop (k := k') (fun a b k'' hk'' hab => hstep a b k'' (hk'.step hk'') hab) n m k' a' b'
      (Known.Later.refl hk'.next) hab (by omega)

theorem loop_eq {turn turn' : α → Parse (α ⊕ γ)} (hturn : ∀ a k', k.Later 0 k' → L.J k' (turn a) (turn' a) (Turn Eq Eq k'))
    (hnext : k.next = none) (m n : Nat) (a : α) (hn : L.total < k.moved + n) :
    L.Does k (StateRun.loop turn m a) (StateRun.loop turn' n a) Eq 0 := by
  refine L.loop (fun a b k' hk' hab => ?_) n m k a a (Known.Later.refl hnext) rfl hn
  rw [← hab]
  exact hturn a k' hk'

section Keywords

variable (hspan : ∀ here here', L.SameSpan here here' → here = here')

include hspan

theorem keywordSymbolTurn_turn {acc : String × Option Nat} (hnext : k.next = none) :
    L.J k (keywordSymbolTurn acc) (keywordSymbolTurn acc) (Turn Eq Eq k) := by
  apply L.tok_bind
  intro t ht
  apply L.span_bind
  intro here here' hs
  cases hspan here here' hs
  cases t with
  | keyword w =>
    apply L.ite
    · intro _
      exact L.pure ⟨rfl, Known.Later.withCur hnext⟩
    · intro _
      exact L.bump_bind (L.pure ⟨rfl, (Known.bumped_later (k := k.withCur (.keyword w)) rfl (by simp)).of_withCur⟩)
  | _ => exact L.pure ⟨rfl, Known.Later.withCur hnext⟩

theorem keywordSymbol_of_eq {w : String} {m n : Nat} {P : String → String → Known → Prop} (hcur : k.cur = some (.keyword w))
    (hn : L.total < k.moved + n) (hP : ∀ s k', k.Later 1 k' → P s s k') :
    L.J k (StateRun.loop keywordSymbolTurn m ("", none)) (StateRun.loop keywordSymbolTurn n ("", none)) P := by
  cases n with
  | zero => exact L.spent hn
  | succ n =>
    have hturn : ∀ m, L.J k (StateRun.loop keywordSymbolTurn (m + 1) ("", none))
        (StateRun.loop keywordSymbolTurn (n + 1) ("", none)) P := by
      intro m
      -- the first keyword is always taken
      have hfirst : L.J k (keywordSymbolTurn ("", none)) (keywordSymbolTurn ("", none))
          fun r r' k' => (∃ acc, r = .inl acc ∧ r' = .inl acc) ∧ k.Later 1 k' := by
        apply L.tok_bind
        intro t ht
        cases ht _ hcur
        apply L.span_bind
        intro here here' hs
        cases hspan here here' hs
        exact L.bump_bind (L.pure ⟨⟨_, rfl, rfl⟩, (Known.bumped_later (k := k.withCur (.keyword w)) rfl (by simp)).of_withCur⟩)
      apply L.bind hfirst
      rintro _ _ k' ⟨⟨acc, rfl, rfl⟩, hk'⟩
      have hmoved := hk'.moved
      refine L.mono (L.loop (k := k') (I := Eq) (R := Eq) (fun a b k'' hk'' hab => by
        rw [hab]
        exact L.keywordSymbolTurn_turn hspan hk''.next) n m k' acc acc (Known.Later.refl hk'.next) rfl (by omega)) ?_
      rintro s _ k'' ⟨rfl, hk''⟩
      exact hP s k'' (hk'.step hk'')
    cases m with
    | zero => exact L.spent_left (hturn 0)
    | succ m => exact hturn m

end Keywords

end Basics

structure Rules extends Basics where
  keywordSymbol : ∀ {k : Known} {w : String} {m n : Nat} {P : String → String → Known → Prop},
    k.cur = some (.keyword w) → k.next = none → 0 < k.depth → total < k.moved + n →
    (∀ s k', k.Later 1 k' → P s s k') →
    J k (loop keywordSymbolTurn m ("", none)) (loop keywordSymbolTurn n ("", none)) P

def Basics.rules (L : Basics) (hspan : ∀ here here', L.SameSpan here here' → here = here') : Rules :=
  { L with keywordSymbol := fun hcur _ _ hn hP => L.keywordSymbol_of_eq hspan hcur hn hP }

end WinArmVm.Frontend.Parser
