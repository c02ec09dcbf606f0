import WinArmVm.LexerCut

namespace WinArmVm.Frontend

open StateRun Option

namespace Parser

variable {α β γ : Type} {r : List Char} {k : Known}

/-- A parser of the whole text, and the one of the part before the cut that has seen the same tokens. -/
structure InStep (r : List Char) (k : Known) (s t : Parser) : Prop where
  lax : k.lax = false
  lx : Lexer.Along r s.lx t.lx
  cur : s.cur = t.cur
  peeked : s.peeked = t.peeked
  depth : s.literalSeqDepth = t.literalSeqDepth
  known : ∀ c, k.cur = some c → t.cur.1 = c
  next : k.next = t.peeked.map Prod.fst

structure AtEnd (k : Known) (t : Parser) : Prop where
  lax : k.lax = false
  rest : t.lx.rest = []
  cur : t.peeked = none → t.cur.1 = .eof
  peeked : ∀ found, t.peeked = some found → found.1 = .eof
  known : ∀ c, k.cur = some c → t.cur.1 = c
  next : k.next = t.peeked.map Prod.fst

/-- What fails, fails for want of text. -/
def Awaits (q : Parse α) (t : Parser) (Q : α → Parser → Prop) : Prop :=
  match q t with
  | none => True
  | some (.error e) => e.eof = true
  | some (.ok (a, t')) => Q a t'

theorem Awaits.mono {q : Parse α} {t : Parser} {Q Q' : α → Parser → Prop} (h : Awaits q t Q)
    (hQ : ∀ a t', Q a t' → Q' a t') : Awaits q t Q' := by
  unfold Awaits at h ⊢
  split at h
  next => trivial
  next => exact h
  next a t' _ => exact hQ a t' h

theorem Awaits.bind {q : Parse α} {g : α → Parse β} {t : Parser} {Q : α → Parser → Prop} {Q' : β → Parser → Prop}
    (h : Awaits q t Q) (hg : ∀ a t', Q a t' → Awaits (g a) t' Q') : Awaits (q >>= g) t Q' := by
  unfold Awaits at h ⊢
  rw [bind_eq]
  generalize q t = result at h
  cases result with
  | none => trivial
  | some result =>
    cases result with
    | error e => exact h
    | ok found => exact hg found.1 found.2 h

def Ended (P : α → β → Known → Prop) (b : β) (t : Parser) : Prop := ∃ a k, P a b k ∧ AtEnd k t

namespace AtEnd

variable {t : Parser}

theorem no_next (h : AtEnd k t) (hnext : k.next ≠ some .eof) : t.peeked = none := by
  cases hpeeked : t.peeked with
  | none => rfl
  | some found =>
    have hk := h.next
    rw [hpeeked, map_some, h.peeked found hpeeked] at hk
    exact absurd hk hnext

theorem cur_eof (h : AtEnd k t) {c : Tok} (hnext : k.next = none) (hcur : k.cur = some c) : c = .eof := by
  have hpeeked := h.no_next (by rw [hnext]; exact fun hn => nomatch hn)
  exact (h.known c hcur).symm.trans (h.cur hpeeked)

theorem bump (h : AtEnd k t) : Awaits bump t fun _ t' => AtEnd k.bumped t' := by
  obtain ⟨hlax, hrest, -, hpeeked, -, hnext⟩ := h
  unfold Awaits Parser.bump
  cases hfound : t.peeked with
  | some found =>
    rw [hfound] at hnext
    refine ⟨hlax, hrest, ?_, ?_, ?_, rfl⟩
    · intro _
      exact hpeeked found hfound
    · intro _ hnone
      cases hnone
    · intro c hc
      exact Option.some.inj (hnext.symm.trans hc)
  | none =>
    rw [hfound] at hnext
    simp only [Lexer.nextToken, hrest, skipTrivia]
    refine ⟨hlax, rfl, fun _ => rfl, ?_, ?_, ?_⟩
    · intro _ hsome
      cases hsome
    · intro c hc
      cases hnext.symm.trans hc
    · rfl

end AtEnd

namespace InStep

variable {s t : Parser}

theorem bump (h : InStep r k s t) {u : Unit} {s' : Parser} (hrun : Parser.bump s = some (.ok (u, s'))) :
    Awaits Parser.bump t fun _ t' => InStep r k.bumped s' t' ∨ AtEnd k.bumped t' := by
  obtain ⟨hlax, hlx, hcur, hpeeked, hdepth, -, hnext⟩ := h
  unfold Parser.bump at hrun
  unfold Awaits Parser.bump
  cases hfound : t.peeked with
  | some found =>
    rw [hpeeked, hfound] at hrun
    rw [hfound] at hnext
    cases hrun
    refine .inl ⟨hlax, hlx, rfl, rfl, hdepth, ?_, rfl⟩
    intro c hc
    exact Option.some.inj (hnext.symm.trans hc)
  | none =>
    rw [hpeeked, hfound] at hrun
    rw [hfound] at hnext
    have hknown : ∀ c, k.bumped.cur = some c → False := fun c hc => nomatch hnext.symm.trans hc
    cases htoken : s.lx.nextToken with
    | error e =>
      rw [htoken] at hrun
      cases hrun
    | ok found =>
      rw [htoken] at hrun
      cases hrun
      obtain ⟨m', hm, hlx'⟩ | ⟨start', m', hm, hrest⟩ | ⟨e, hm, he⟩ := hlx.nextToken htoken
      · simp only [hm]
        exact .inl ⟨hlax, hlx', rfl, rfl, hdepth, fun c hc => (hknown c hc).elim, rfl⟩
      · simp only [hm]
        refine .inr ⟨hlax, hrest, fun _ => rfl, ?_, fun c hc => (hknown c hc).elim, rfl⟩
        intro _ hsome
        cases hsome
      · simp only [hm]
        exact he

theorem peek (h : InStep r k s t) (hnone : k.next = none) {tok : Tok} {s' : Parser}
    (hrun : peek2 s = some (.ok (tok, s'))) :
    Awaits peek2 t fun tok' t' => tok' = tok ∧ InStep r (k.withNext tok') s' t' ∨ AtEnd (k.withNext tok') t' := by
  obtain ⟨hlax, hlx, hcur, hpeeked, hdepth, hknown, hnext⟩ := h
  rw [hnone] at hnext
  have hfound : t.peeked = none := map_eq_none_iff.mp hnext.symm
  unfold peek2 at hrun
  unfold Awaits peek2
  rw [hpeeked, hfound] at hrun
  rw [hfound]
  cases htoken : s.lx.nextToken with
  | error e =>
    rw [htoken] at hrun
    cases hrun
  | ok found =>
    rw [htoken] at hrun
    cases hrun
    obtain ⟨m', hm, hlx'⟩ | ⟨start', m', hm, hrest⟩ | ⟨e, hm, he⟩ := hlx.nextToken htoken
    · rw [hm]
      exact .inl ⟨rfl, hlax, hlx', hcur, rfl, hdepth, hknown, rfl⟩
    · rw [hm]
      refine .inr ⟨hlax, hrest, fun hsome => (nomatch hsome), ?_, hknown, rfl⟩
      intro _ hsome
      cases hsome
      rfl
    · rw [hm]
      exact he

end InStep

def cutBasics (r : List Char) : Basics where
  total := 0
  SameSpan := Eq
  J k p q P := (∀ t, AtEnd k t → Awaits q t (Ended P)) ∧ ∀ s t a s', InStep r k s t → p s = some (.ok (a, s')) →
      Awaits q t fun b t' => (∃ k', P a b k' ∧ InStep r k' s' t') ∨ Ended P b t'
  mono := by
    intro α β k p q P Q h hPQ
    have hended : ∀ b t, Ended P b t → Ended Q b t := by
      rintro b t ⟨a, k', hP, hk'⟩
      exact ⟨a, k', hPQ a b k' hP, hk'⟩
    refine ⟨fun t ht => (h.1 t ht).mono hended, ?_⟩
    intro s t a s' hs hp
    apply (h.2 s t a s' hs hp).mono
    rintro b t' (⟨k', hP, hk'⟩ | hend)
    · exact Or.inl ⟨k', hPQ a b k' hP, hk'⟩
    · exact Or.inr (hended b t' hend)
  pure := by
    intro α β k a b P hP
    refine ⟨fun t ht => ⟨a, k, hP, ht⟩, ?_⟩
    intro s t a' s' hs hp
    cases hp
    exact Or.inl ⟨k, hP, hs⟩
  bind := by
    intro α β γ δ k p q f g Q P h hf
    have hended : ∀ b t, Ended Q b t → Awaits (g b) t (Ended P) := by
      rintro b t ⟨a, k', hQ, hk'⟩
      exact (hf a b k' hQ).1 t hk'
    refine ⟨fun t ht => (h.1 t ht).bind hended, ?_⟩
    intro s t c s' hs hp
    obtain ⟨a, s₁, hp, hrest⟩ := bind_ok hp
    apply (h.2 s t a s₁ hs hp).bind
    rintro b t' (⟨k', hQ, hk'⟩ | hend)
    · exact (hf a b k' hQ).2 s₁ t' c s' hk' hrest
    · exact (hended b t' hend).mono fun _ _ => Or.inr
  tok := by
    intro k P h
    refine ⟨fun t ht => ⟨_, _, h _ ht.known, ht.lax, ht.rest, ht.cur, ht.peeked, fun c hc => Option.some.inj hc, ht.next⟩, ?_⟩
    intro s t a s' hs hp
    cases hp
    have hcur : s.cur.1 = t.cur.1 := congrArg Prod.fst hs.cur
    rw [hcur]
    exact Or.inl ⟨_, h _ hs.known, hs.lax, hs.lx, hs.cur, hs.peeked, hs.depth, fun c hc => Option.some.inj hc, hs.next⟩
  span := by
    intro k P h
    refine ⟨fun t ht => ⟨_, _, h _ _ rfl, ht⟩, ?_⟩
    intro s t a s' hs hp
    cases hp
    exact Or.inl ⟨_, h _ _ (congrArg Prod.snd hs.cur), hs⟩
  fail := by
    intro α β k here here' msg msg' P h
    refine ⟨?_, fun s t a s' hs hp => nomatch hp⟩
    intro t ht
    obtain hlax | hnext := h
    · cases ht.lax.symm.trans hlax
    · exact beq_iff_eq.mpr (ht.cur (ht.no_next hnext))
  bump := by
    intro k P h
    refine ⟨fun t ht => ht.bump.mono fun _ _ hk => ⟨(), _, h, hk⟩, ?_⟩
    intro s t a s' hs hp
    apply (hs.bump hp).mono
    rintro b t' (hk | hk)
    · exact Or.inl ⟨_, h, hk⟩
    · exact Or.inr ⟨(), _, h, hk⟩
  peek := by
    intro k P hnext hcur h
    obtain ⟨c, hc, hne⟩ := hcur
    refine ⟨fun t ht => absurd (ht.cur_eof hnext hc) hne, ?_⟩
    intro s t a s' hs hp
    apply (hs.peek hnext hp).mono
    rintro b t' (⟨rfl, hk⟩ | hk)
    · exact Or.inl ⟨_, h b, hk⟩
    · exact Or.inr ⟨b, _, h b, hk⟩
  peekAgain := by
    intro k tok P hsome h
    have hpeeked : ∀ t : Parser, k.next = t.peeked.map Prod.fst → ∃ found, t.peeked = some found ∧ found.1 = tok := by
      intro t hnext
      rw [hsome] at hnext
      exact Option.map_eq_some_iff.mp hnext.symm
    refine ⟨?_, ?_⟩
    · intro t ht
      obtain ⟨found, hfound, rfl⟩ := hpeeked t ht.next
      unfold Awaits peek2
      rw [hfound]
      exact ⟨_, _, h, ht⟩
    · intro s t a s' hs hp
      obtain ⟨found, hfound, rfl⟩ := hpeeked t hs.next
      unfold peek2 at hp
      rw [hs.peeked, hfound] at hp
      cases hp
      unfold Awaits peek2
      rw [hfound]
      exact Or.inl ⟨_, h, hs⟩
  setPragmaMode := by
    intro k v P h
    refine ⟨fun t ht => ⟨(), k, h, ht.lax, ht.rest, ht.cur, ht.peeked, ht.known, ht.next⟩, ?_⟩
    intro s t a s' hs hp
    cases hp
    exact Or.inl ⟨k, h, hs.lax, hs.lx.setPragmaMode v, hs.cur, hs.peeked, hs.depth, hs.known, hs.next⟩
  enterLiteralSeq := by
    intro k P h
    refine ⟨fun t ht => ⟨(), _, h, ht.lax, ?_, ht.cur, ht.peeked, ht.known, ht.next⟩, ?_⟩
    · have hrest := ht.rest
      split
      next => exact hrest
      next => exact hrest
    · intro s t a s' hs hp
      cases hp
      refine Or.inl ⟨_, h, hs.lax, ?_, hs.cur, hs.peeked, congrArg (· + 1) hs.depth, hs.known, hs.next⟩
      simp only [hs.depth]
      split
      next => exact hs.lx.setInLiteralSeq true
      next => exact hs.lx
  exitLiteralSeq := by
    intro k P h
    refine ⟨fun t ht => ⟨(), _, h, ht.lax, ?_, ht.cur, ht.peeked, ht.known, ht.next⟩, ?_⟩
    · have hrest := ht.rest
      split
      next => exact hrest
      next => exact hrest
    · intro s t a s' hs hp
      cases hp
      refine Or.inl ⟨_, h, hs.lax, ?_, hs.cur, hs.peeked, congrArg (· - 1) hs.depth, hs.known, hs.next⟩
      simp only [hs.depth]
      split
      next => exact hs.lx.setInLiteralSeq false
      next => exact hs.lx
  spent _ := ⟨fun _ _ => trivial, fun _ _ _ _ _ _ => trivial⟩
  spent_left h := ⟨h.1, fun _ _ _ _ _ hp => nomatch hp⟩
  lax := by
    intro α β k c p q P hnext hcur hne hnever h
    refine ⟨fun t ht => absurd (ht.cur_eof hnext hcur) hne, ?_⟩
    intro s t a s' hs hp
    have hc : s.cur.1 = c := (congrArg Prod.fst hs.cur).trans (hs.known c hcur)
    exact absurd hp (hnever s hc _)

theorem new_cut {pre rest : List Char} {p : Parser} (hcut : Cut pre rest) (h : Parser.new (pre ++ rest) = .ok p) :
    (∃ q, Parser.new pre = .ok q ∧ (InStep rest ⟨none, none, 0, 0, false⟩ p q ∨ AtEnd ⟨none, none, 0, 0, false⟩ q)) ∨
    ∃ e, Parser.new pre = .error e ∧ e.eof = true := by
  unfold Parser.new at h ⊢
  cases htoken : (Lexer.new (pre ++ rest)).nextToken with
  | error e =>
    rw [htoken] at h
    cases h
  | ok found =>
    rw [htoken] at h
    cases h
    have hlx : Lexer.Along rest (Lexer.new (pre ++ rest)) (Lexer.new pre) := ⟨rfl, hcut⟩
    obtain ⟨m', hm, hlx'⟩ | ⟨start', m', hm, hrest⟩ | ⟨e, hm, he⟩ := hlx.nextToken htoken
    · rw [hm]
      exact .inl ⟨_, rfl, .inl ⟨rfl, hlx', rfl, rfl, rfl, fun c hc => (nomatch hc), rfl⟩⟩
    · rw [hm]
      exact .inl ⟨_, rfl, .inr ⟨rfl, hrest, fun _ => rfl, fun c hc => (nomatch hc), fun c hc => (nomatch hc), rfl⟩⟩
    · rw [hm]
      exact .inr ⟨e, rfl, he⟩

end Parser

/-- Where a text is accepted, what comes before a line break of it is accepted or fails at its end. -/
theorem parseOneTopItem_cut {pre rest : List Char} {item : Option TopItem} (hcut : Cut pre rest)
    (h : parseOneTopItem (pre ++ rest) = some (.ok item)) :
    ∃ r, parseOneTopItem pre = some r ∧ ∀ e, r = .error e → e.eof = true := by
  obtain ⟨r, hr⟩ := parseOneTopItem_ends pre
  refine ⟨r, hr, ?_⟩
  rintro e rfl
  unfold parseOneTopItem at h hr
  cases hnew : Parser.new (pre ++ rest) with
  | error e' =>
    rw [hnew] at h
    cases h
  | ok p =>
    rw [hnew] at h
    obtain ⟨found, hrun, hitem⟩ := map_eq_some_iff.mp h
    cases found with
    | error e' => cases hitem
    | ok found =>
      obtain ⟨a, s'⟩ := found
      let L := (Parser.cutBasics rest).rules fun _ _ h => h
      have hparsed : L.J ⟨none, none, 0, 0, false⟩ (Parser.oneTopItem (turnsFor (pre ++ rest)))
          (Parser.oneTopItem (turnsFor pre)) fun a b _ => Parser.Rules.SameAnswer a b := L.oneTopItem_does (Nat.succ_pos _) rfl
      obtain ⟨q, hq, hstart⟩ | ⟨e', hq, he'⟩ := Parser.new_cut hcut hnew
      · rw [hq] at hr
        obtain ⟨result, hresult, hmap⟩ := map_eq_some_iff.mp hr
        have hawaits : Parser.Awaits (Parser.oneTopItem (turnsFor pre)) q fun _ _ => True := by
          obtain hstep | hend := hstart
          · exact (hparsed.2 p q a s' hstep hrun).mono fun _ _ _ => trivial
          · exact (hparsed.1 q hend).mono fun _ _ _ => trivial
        unfold Parser.Awaits at hawaits
        rw [hresult] at hawaits
        cases result with
        | error e' =>
          cases hmap
          exact hawaits
        | ok found => cases hmap
      · rw [hq] at hr
        cases hr
        exact he'

theorem parseOneTopItem_cut_paren : ∃ r, parseOneTopItem "(\n".toList = some r ∧ ∀ e, r = .error e → e.eof = true := by
  have hok : ((parseOneTopItem ("(\n".toList ++ "3)".toList)).bind Except.toOption).isSome = true := by decide +kernel
  obtain ⟨item, hitem⟩ := isSome_iff_exists.mp hok
  obtain ⟨result, hparse, h⟩ := bind_eq_some_iff.mp hitem
  cases result with
  | error e => cases h
  | ok found => exact parseOneTopItem_cut (.inr (.inl rfl)) hparse

/-- So it is for a file: its lines so far are accepted, or more of them are asked for. -/
theorem parseFile_cut {pre rest : List Char} {items : List TopItem} (hcut : Cut pre rest)
    (h : parseFile (pre ++ rest) = some (.ok items)) :
    ∃ r, parseFile pre = some r ∧ ∀ e, r = .error e → e.eof = true := by
  unfold parseFile parseFileWith at h ⊢
  cases hnew : Parser.new (pre ++ rest) with
  | error e' =>
    rw [hnew] at h
    cases h
  | ok p =>
    rw [hnew] at h
    obtain ⟨found, hrun, hitems⟩ := map_eq_some_iff.mp h
    cases found with
    | error e' => cases hitems
    | ok found =>
      obtain ⟨a, s'⟩ := found
      have hparsed := ((Parser.cutBasics rest).rules fun _ _ h => h).topItems_does (k := ⟨none, none, 0, 0, false⟩)
        (Nat.succ_pos (pre.length + 2)) (turnsFor (pre ++ rest)) rfl
      obtain ⟨q, hq, hstart⟩ | ⟨e', hq, he'⟩ := Parser.new_cut hcut hnew
      · obtain ⟨result, hresult⟩ := Parser.topItems_ends hq
        have hawaits : Parser.Awaits (loop (Parser.topItemsTurn (turnsFor pre)) (turnsFor pre) []) q fun _ _ => True := by
          obtain hstep | hend := hstart
          · exact (hparsed.2 p q a s' hstep hrun).mono fun _ _ _ => trivial
          · exact (hparsed.1 q hend).mono fun _ _ _ => trivial
        unfold Parser.Awaits at hawaits
        rw [hresult] at hawaits
        simp only [hq, hresult]
        refine ⟨_, rfl, fun e he => ?_⟩
        cases result with
        | error e' =>
          cases he
          exact hawaits
        | ok found => cases he
      · rw [hq]
        exact ⟨_, rfl, fun e he => by
          cases he
          exact he'⟩

theorem parseFile_cut_paren : ∃ r, parseFile "(\n".toList = some r ∧ ∀ e, r = .error e → e.eof = true := by
  have hok : ((parseFile ("(\n".toList ++ "3).".toList)).bind Except.toOption).isSome = true := by decide +kernel
  obtain ⟨items, hitems⟩ := isSome_iff_exists.mp hok
  obtain ⟨result, hparse, h⟩ := bind_eq_some_iff.mp hitems
  cases result with
  | error e => cases h
  | ok found => exact parseFile_cut (.inr (.inl rfl)) hparse

end WinArmVm.Frontend
