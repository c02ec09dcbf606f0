import WinArmVm.ParserRules
import WinArmVm.ClassParser

namespace WinArmVm.Frontend.Parser

open StateRun

namespace Known

variable {k k' : Known} {n : Nat} {t : Tok}

theorem next_ne_eof (h : k.next = none) : k.next ≠ some .eof := by
  rw [h]
  exact fun he => nomatch he

variable {p : Tok → Bool}

section

variable (h : k.Begins p) (ht : ∀ c, k.cur = some c → t = c)

include h ht

theorem Begins.next_eq_none (hp : ¬ p t = true) : k.next = none := by
  obtain h | ⟨c, hc, hpc⟩ := h
  · exact h
  · rw [ht c hc] at hp
    exact absurd hpc hp

theorem Begins.next_ne_eof (hp : ¬ p t = true) : k.next ≠ some .eof := Known.next_ne_eof (h.next_eq_none ht hp)

theorem Begins.withCur : (k.withCur t).Begins p := by
  obtain h | ⟨c, hc, hpc⟩ := h
  · exact .inl h
  · rw [← ht c hc] at hpc
    exact .inr ⟨t, rfl, hpc⟩

end

theorem withCur_bumped_later (ht : t ≠ .eof) : k.Later 1 (k.withCur t).bumped := (bumped_later rfl ht).of_withCur

theorem Later.leave (h : ({ k with depth := k.depth + 1 } : Known).Later n k') :
    k.Later n { k' with depth := k'.depth - 1 } := by
  refine ⟨h.next, h.moved, ?_⟩
  have hdepth := h.depth
  simp only at hdepth ⊢
  omega

end Known

namespace Rules

open Basics

variable (L : Rules) {k : Known} {turns turns' : Nat}

variable {γ δ : Type} {P : γ → δ → Known → Prop} {here here' : Span} {msg msg' : String}

theorem fails (hnext : k.next = none) : L.J k (Parser.fail here msg) (Parser.fail here' msg') P :=
  L.fail (.inr (Known.next_ne_eof hnext))

variable {c : Prop} [Decidable c] {x : Parse γ} {x' : Parse δ}

theorem ite_fail (hnext : k.next = none) (h : c → L.J k x x' P) :
    L.J k (if c then x else Parser.fail here msg) (if c then x' else Parser.fail here' msg') P :=
  L.ite h fun _ => L.fails hnext

theorem fail_ite (hnext : k.next = none) (h : ¬ c → L.J k x x' P) :
    L.J k (if c then Parser.fail here msg else x) (if c then Parser.fail here' msg' else x') P :=
  L.ite (fun _ => L.fails hnext) h

omit [Decidable c]

theorem ite_bump {t want : Tok} {f : Unit → Parse γ} {g : Unit → Parse δ} (hw : want ≠ .eof)
    (ht : k.Later 1 (k.withCur t).bumped → L.J (k.withCur t).bumped (f ()) (g ()) P)
    (hf : ¬ (t == want) = true → L.J (k.withCur t) x x' P) :
    L.J (k.withCur t) (if t == want then Parser.bump >>= f else x) (if t == want then Parser.bump >>= g else x') P := by
  refine L.ite (fun hc => L.bump_bind (ht ?_)) hf
  exact Known.withCur_bumped_later (by rw [eq_of_beq hc]; exact hw)

theorem checkNotReserved_does {here here' : Span} {name : String}
    (h : k.lax = true ∨ k.next ≠ some .eof ∨ isReserved name = false) :
    L.J k (checkNotReserved here name) (checkNotReserved here' name) fun _ _ k' => k' = k := by
  apply L.ite
  · intro hres
    apply L.fail
    obtain h | h | h := h
    · exact .inl h
    · exact .inr h
    · rw [h] at hres
      cases hres
  · intro _
    exact L.pure rfl

theorem expect_does {want : Tok} {msg : String} (hnext : k.next = none) (hw : want ≠ .eof) :
    L.Does k (expect want msg) (expect want msg) (fun _ _ => True) 1 := by
  apply L.tok_span_bind
  intro t ht here here'
  refine L.ite_fail hnext fun hc => ?_
  have ht : t ≠ .eof := by
    rw [eq_of_beq hc]
    exact hw
  exact L.bump ⟨trivial, Known.withCur_bumped_later ht⟩

theorem expectIdent_does {msg : String} (hk : k.Begins isIdent) : L.Does k (expectIdent msg) (expectIdent msg) Eq 1 := by
  apply L.tok_span_bind
  intro t ht here here'
  cases t with
  | ident name =>
    apply L.bump_bind
    exact L.pure ⟨rfl, Known.withCur_bumped_later (by simp)⟩
  | _ => exact L.fail (.inr (hk.next_ne_eof ht (by simp [isIdent])))

theorem expectKeyword_does {kw : String} (hnext : k.next = none) :
    L.Does k (expectKeyword kw) (expectKeyword kw) (fun _ _ => True) 1 := by
  apply L.tok_span_bind
  intro t ht here here'
  refine L.ite_fail hnext fun hc => ?_
  have ht : t ≠ .eof := by
    rw [eq_of_beq hc]
    simp
  exact L.bump ⟨trivial, Known.withCur_bumped_later ht⟩

section Literals

variable {elems elems' : Parse (List Literal)} {least : Nat}

theorem parseArrayItems_does {t : Tok} (hcur : k.cur = some t) (ht : t ≠ .eof) (hleast : least ≤ k.moved + 1)
    (helems : ∀ k' : Known, k'.next = none → 0 < k'.depth → least ≤ k'.moved → L.Does k' elems elems' Eq 0) :
    L.Does k (parseArrayItems elems) (parseArrayItems elems') Eq 1 := by
  apply L.enterLiteralSeq_bind
  apply L.bump_bind
  have hin : ({ k with depth := k.depth + 1 } : Known).Later 1 ({ k with depth := k.depth + 1 } : Known).bumped :=
    Known.bumped_later hcur ht
  have hmoved := hin.moved
  apply (helems _ hin.next (by rw [hin.depth]; exact Nat.succ_pos _) (Nat.le_trans hleast hmoved)).bind
  rintro items _ k' rfl hk'
  apply L.tok_span_bind
  intro t _ here here'
  refine L.ite_fail hk'.next fun hc => ?_
  apply L.exitLiteralSeq_bind
  apply L.bump_bind
  have hout : k.Later 1 { (k'.withCur t) with depth := (k'.withCur t).depth - 1 } :=
    ((hin.step hk').step (Known.Later.withCur hk'.next)).leave
  exact L.pure ⟨rfl, hout.step Known.bumped_later_zero⟩

theorem parseArrayLiteral_does {t : Tok} (hcur : k.cur = some t) (ht : t ≠ .eof) (hleast : least ≤ k.moved + 1)
    (helems : ∀ k' : Known, k'.next = none → 0 < k'.depth → least ≤ k'.moved → L.Does k' elems elems' Eq 0) :
    L.Does k (parseArrayLiteral elems) (parseArrayLiteral elems') Eq 1 := by
  apply (L.parseArrayItems_does hcur ht hleast helems).bind
  rintro items _ k' rfl hk'
  exact L.pure ⟨rfl, hk'⟩

theorem byteArrayTurn_turn {bytes : List Nat} (hnext : k.next = none) :
    L.J k (byteArrayTurn bytes) (byteArrayTurn bytes) (Turn Eq Eq k) := by
  apply L.tok_span_bind
  intro t ht here here'
  cases t with
  | rBracket => exact L.pure ⟨rfl, Known.Later.withCur hnext⟩
  | intLit negative radix digits =>
    apply L.bump_bind
    have hmoved : k.Later 1 (k.withCur (.intLit negative radix digits)).bumped := Known.withCur_bumped_later (by simp)
    refine L.fail_ite hmoved.next fun _ => ?_
    exact L.pure ⟨rfl, hmoved⟩
  | _ => exact L.fails hnext

section

variable (hturns : L.total < turns')

include hturns

theorem parseByteArrayLiteral_does {t : Tok} (hcur : k.cur = some t) (ht : t ≠ .eof) :
    L.Does k (parseByteArrayLiteral turns) (parseByteArrayLiteral turns') Eq 1 := by
  apply L.enterLiteralSeq_bind
  apply L.bump_bind
  have hin : ({ k with depth := k.depth + 1 } : Known).Later 1 ({ k with depth := k.depth + 1 } : Known).bumped :=
    Known.bumped_later hcur ht
  apply (L.loop_eq (fun _ _ hk' => L.byteArrayTurn_turn hk'.next) hin.next turns turns' [] (by omega)).bind
  rintro bytes _ k' rfl hk'
  apply L.exitLiteralSeq_bind
  apply L.bump_bind
  have hout : k.Later 1 { k' with depth := k'.depth - 1 } := (hin.step hk').leave
  exact L.pure ⟨rfl, hout.step Known.bumped_later_zero⟩

theorem parseArrayElem_does (hnext : k.next = none) (hdepth : 0 < k.depth) (hleast : least ≤ k.moved + 1)
    (helems : ∀ k' : Known, k'.next = none → 0 < k'.depth → least ≤ k'.moved → L.Does k' elems elems' Eq 0) :
    L.Does k (parseArrayElem turns elems) (parseArrayElem turns' elems') Eq 1 := by
  apply L.tok_span_bind
  intro t ht here here'
  have hbump : t ≠ .eof → k.Later 1 (k.withCur t).bumped := Known.withCur_bumped_later
  cases t with
  | intLit negative radix digits => exact L.bump_bind (L.pure ⟨rfl, hbump (by simp)⟩)
  | floatLit negative text => exact L.bump_bind (L.pure ⟨rfl, hbump (by simp)⟩)
  | charLit c => exact L.bump_bind (L.pure ⟨rfl, hbump (by simp)⟩)
  | strLit s => exact L.bump_bind (L.pure ⟨rfl, hbump (by simp)⟩)
  | symLit s => exact L.bump_bind (L.pure ⟨rfl, hbump (by simp)⟩)
  | ident name => exact L.bump_bind (L.pure ⟨rfl, hbump (by simp)⟩)
  | binarySel s => exact L.bump_bind (L.pure ⟨rfl, hbump (by simp)⟩)
  | vBar => exact L.bump_bind (L.pure ⟨rfl, hbump (by simp)⟩)
  | keyword w =>
    apply L.bind (Q := fun a b k' => a = b ∧ k.Later 1 k')
    · exact L.keywordSymbol rfl hnext hdepth (by have : (k.withCur (.keyword w)).moved = k.moved := rfl; omega)
        fun s k' hk' => ⟨rfl, hk'.of_withCur⟩
    · rintro s _ k' ⟨rfl, hk'⟩
      exact L.pure ⟨rfl, hk'⟩
  | lParen =>
    apply L.bump_bind
    have hin := hbump (by simp)
    apply (helems _ hin.next (by rw [hin.depth]; exact hdepth) (Nat.le_trans hleast hin.moved)).bind
    rintro items _ k' rfl hk'
    apply (L.expect_does hk'.next (by simp)).bind
    rintro _ _ k'' _ hk''
    exact L.pure ⟨rfl, (hin.step hk').step hk''⟩
  | litArrayOpen =>
    exact (L.parseArrayLiteral_does (k := k.withCur .litArrayOpen) rfl (by simp) hleast helems).of_withCur
  | byteArrayOpen =>
    exact (L.parseByteArrayLiteral_does (k := k.withCur .byteArrayOpen) hturns rfl (by simp)).of_withCur
  | _ => exact L.fails hnext

theorem arrayElemsTurn_turn (hnext : k.next = none) (hdepth : 0 < k.depth) (hleast : least ≤ k.moved + 1)
    (helems : ∀ k' : Known, k'.next = none → 0 < k'.depth → least ≤ k'.moved → L.Does k' elems elems' Eq 0)
    {items : List Literal} :
    L.J k (arrayElemsTurn turns elems items) (arrayElemsTurn turns' elems' items) (Turn Eq Eq k) := by
  apply L.tok_bind
  intro t ht
  apply L.ite
  · intro _
    exact L.pure ⟨rfl, Known.Later.withCur hnext⟩
  · intro _
    apply (L.parseArrayElem_does (k := k.withCur t) hturns hnext hdepth hleast helems).bind
    rintro item _ k' rfl hk'
    exact L.pure ⟨rfl, hk'.of_withCur⟩

theorem parseArrayElems_does (n : Nat) : ∀ (m : Nat) (k : Known), k.next = none →
    0 < k.depth → L.total < k.moved + n → L.Does k (parseArrayElems turns m) (parseArrayElems turns' n) Eq 0 := by
  induction n with
  | zero =>
    intro m k _ _ hn
    exact L.spent hn
  | succ n ih =>
    intro m k hnext hdepth hn
    have hall : ∀ m, L.Does k (parseArrayElems turns (m + 1)) (parseArrayElems turns' (n + 1)) Eq 0 := by
      intro m
      apply L.loop (I := Eq) (R := Eq) (k := k) _ _ _ _ _ _ (Known.Later.refl hnext) rfl (by omega)
      rintro items _ k' hk' rfl
      have hmoved := hk'.moved
      have hleast : L.total + 1 - n ≤ k'.moved + 1 := by omega
      apply L.arrayElemsTurn_turn hturns hk'.next (by rw [hk'.depth]; exact hdepth) hleast
      intro k'' hnext' hdepth' hleast
      exact ih m k'' hnext' hdepth' (by omega)
    cases m with
    | zero => exact L.spent_left (hall 0)
    | succ m => exact hall m

end

end Literals

section Names

theorem capturePragmaTurn_turn {acc : AnnotationText} (hnext : k.next = none) :
    L.J k (capturePragmaTurn acc) (capturePragmaTurn acc) (Turn Eq Eq k) := by
  apply L.tok_span_bind
  intro t ht here here'
  have hbump : t ≠ .eof → k.Later 1 (k.withCur t).bumped := Known.withCur_bumped_later
  apply L.ite
  · intro hc
    have htok := eq_of_beq hc
    exact L.bump_bind (L.pure ⟨rfl, hbump (by simp [htok])⟩)
  · intro _
    apply L.ite
    · intro hc
      have htok := eq_of_beq hc
      apply L.ite
      · intro _
        apply L.setPragmaMode_bind
        exact L.bump_bind (L.pure ⟨rfl, (hbump (by simp [htok])).mono (Nat.zero_le 1)⟩)
      · intro _
        exact L.bump_bind (L.pure ⟨rfl, hbump (by simp [htok])⟩)
    · intro _
      refine L.fail_ite hnext fun hc => ?_
      exact L.bump_bind (L.pure ⟨rfl, hbump fun he => hc (beq_iff_eq.mpr he)⟩)

variable (hturns : L.total < turns')

include hturns

theorem captureTypeAnnotation_does (hnext : k.next = none) :
    L.Does k ( captureTypeAnnotation turns) ( captureTypeAnnotation turns')
      (fun a b => a.map TypeAnnotation.strip = b.map TypeAnnotation.strip) 0 := by
  apply L.tok_span_bind
  intro t ht here here'
  apply L.ite
  · intro hc
    have htok := eq_of_beq hc
    apply L.setPragmaMode_bind
    apply L.bump_bind
    have hin : k.Later 1 (k.withCur t).bumped := Known.withCur_bumped_later (by simp [htok])
    apply (L.loop_eq (fun _ _ hk' => L.capturePragmaTurn_turn hk'.next) hin.next turns turns' _ (by omega)).bind
    rintro text _ k' rfl hk'
    exact L.pure ⟨rfl, (hin.step hk').mono (Nat.zero_le 1)⟩
  · intro _
    exact L.pure ⟨rfl, Known.Later.withCur hnext⟩

theorem captureReturnTypeAnnotation_does (hnext : k.next = none) :
    L.Does k ( captureReturnTypeAnnotation turns) ( captureReturnTypeAnnotation turns')
      (fun a b => a.map TypeAnnotation.strip = b.map TypeAnnotation.strip) 0 := by
  apply L.tok_bind
  intro t ht
  apply L.ite_bump (by simp)
  · intro hin
    apply L.tok_span_bind
    intro t' _ here here'
    refine L.ite_fail hin.next fun _ => ?_
    apply L.mono (L.captureTypeAnnotation_does hturns (k := (k.withCur t).bumped.withCur t') hin.next)
    intro a b k' hab
    exact ⟨hab.1, (hin.mono (Nat.zero_le 1)).step hab.2.of_withCur⟩
  · intro _
    exact L.pure ⟨rfl, Known.Later.withCur hnext⟩

def SameNames (a b : List String × List (Option TypeAnnotation)) : Prop := a.1 = b.1 ∧ stripTypes a.2 = stripTypes b.2

theorem typedNamesTurn_turn {a b : List String × List (Option TypeAnnotation)} (hab : SameNames a b)
    (hk : ∀ name, (∀ c, k.cur = some c → .ident name = c) → k.lax = true ∨ k.next ≠ some .eof ∨ isReserved name = false)
    (hbegins : k.Begins isIdent) :
    L.J k (typedNamesTurn turns a) (typedNamesTurn turns' b) (Turn SameNames SameNames k) := by
  apply L.tok_span_bind
  intro t ht here here'
  cases t with
  | ident name =>
    apply L.bind (L.checkNotReserved_does (k := k.withCur (.ident name)) (hk name ht))
    rintro _ _ _ rfl
    apply L.bump_bind
    have hin : k.Later 1 (k.withCur (.ident name)).bumped := Known.withCur_bumped_later (by simp)
    apply (L.captureTypeAnnotation_does hturns hin.next).bind
    intro ty ty' k' hty hk'
    apply L.pure
    refine ⟨⟨by rw [hab.1], ?_⟩, hin.step hk'⟩
    simp only [stripTypes_append, hab.2]
    simp only [stripTypes, List.map_cons, List.map_nil, hty]
  | _ => exact L.pure ⟨hab, Known.Later.withCur (hbegins.next_eq_none ht (by simp [isIdent]))⟩

theorem parseTypedNames_does (hk : ∀ name, (∀ c, k.cur = some c → .ident name = c) → k.lax = true ∨ k.next ≠ some .eof ∨ isReserved name = false)
    (hbegins : k.Begins isIdent) :
    L.Does k (parseTypedNames turns) (parseTypedNames turns') SameNames 0 := by
  apply L.loop_from (I := SameNames)
  · exact L.typedNamesTurn_turn hturns ⟨rfl, rfl⟩ hk hbegins
  · intro a b k' hk' hab
    exact L.typedNamesTurn_turn hturns hab (fun _ _ => .inr (.inl (Known.next_ne_eof hk'.next))) hk'.begins
  · omega

theorem parseOptionalTemps_does (hnext : k.next = none) :
    L.Does k (parseOptionalTemps turns) (parseOptionalTemps turns') SameNames 0 := by
  apply L.tok_bind
  intro t ht
  apply L.ite_bump (by simp)
  · intro hin
    apply (L.parseTypedNames_does hturns (fun _ _ => .inr (.inl (Known.next_ne_eof hin.next))) hin.begins).bind
    intro names names' k' hnames hk'
    apply (L.expect_does hk'.next (by simp)).bind
    intro _ _ k'' _ hk''
    exact L.pure ⟨hnames, ((hin.step hk').step hk'').mono (Nat.zero_le 1)⟩
  · intro _
    exact L.pure ⟨⟨rfl, rfl⟩, Known.Later.withCur hnext⟩

end Names

section Expressions

def SameExpr (a b : Expr) : Prop := a.strip = b.strip

def SameExprs (a b : List Expr) : Prop := stripAll a = stripAll b

/-- The same expression, and both or neither a bare `super`. -/
def SamePrimary (a b : Expr × Bool) : Prop := a.1.strip = b.1.strip ∧ a.2 = b.2

theorem SameExprs.snoc {es es' : List Expr} {e e' : Expr} (h : SameExprs es es') (he : SameExpr e e') :
    SameExprs (es ++ [e]) (es' ++ [e']) := by
  unfold SameExprs SameExpr at *
  simp only [stripAll_append, stripAll_cons, stripAll_nil, h, he]

variable {expression expression' : Parse Expr} {least : Nat} (hturns : L.total < turns')
  (hexpr : ∀ k' : Known, k'.Begins isIdent → least ≤ k'.moved → L.Does k' expression expression' SameExpr 1)

include hexpr

theorem parseStatement_does (hk : k.Begins isIdent) (hleast : least ≤ k.moved) :
    L.Does k (parseStatement expression) (parseStatement expression') SameExpr 1 := by
  apply L.tok_span_bind
  intro t ht here here'
  apply L.ite_bump (by simp)
  · intro hin
    have hmoved := hin.moved
    apply (hexpr _ hin.begins (by omega)).bind
    intro value value' k' hvalue hk'
    apply L.pure
    refine ⟨?_, hin.step hk'⟩
    unfold SameExpr at *
    simp only [Expr.strip, hvalue]
  · intro _
    exact (hexpr _ (hk.withCur ht) hleast).of_withCur

theorem statementsTurn_turn {stmts stmts' : List Expr} (hstmts : SameExprs stmts stmts') (hnext : k.next = none)
    (hleast : least ≤ k.moved) :
    L.J k (statementsTurn expression stmts) (statementsTurn expression' stmts') (Turn SameExprs SameExprs k) := by
  apply (L.parseStatement_does hexpr (.inl hnext) hleast).bind
  intro stmt stmt' k' hstmt hk'
  apply L.tok_bind
  intro t ht
  apply L.ite_bump (by simp)
  · intro hin
    apply L.tok_bind
    intro t' _
    apply L.ite
    · intro _
      exact L.pure ⟨hstmts.snoc hstmt, ((hk'.step hin).step (Known.Later.withCur hin.next)).mono (Nat.zero_le 1)⟩
    · intro _
      exact L.pure ⟨hstmts.snoc hstmt, (hk'.step hin).step (Known.Later.withCur hin.next)⟩
  · intro _
    exact L.pure ⟨hstmts.snoc hstmt, (hk'.step (Known.Later.withCur hk'.next)).mono (Nat.zero_le 1)⟩

theorem dynArrayTurn_turn {elems elems' : List Expr} (helems : SameExprs elems elems') (hnext : k.next = none)
    (hleast : least ≤ k.moved) :
    L.J k (dynArrayTurn expression elems) (dynArrayTurn expression' elems') (Turn SameExprs SameExprs k) := by
  apply (hexpr k (.inl hnext) hleast).bind
  intro e e' k' he hk'
  apply L.tok_bind
  intro t ht
  apply L.ite_bump (by simp)
  · intro hin
    apply L.tok_bind
    intro t' _
    apply L.ite
    · intro _
      exact L.pure ⟨helems.snoc he, ((hk'.step hin).step (Known.Later.withCur hin.next)).mono (Nat.zero_le 1)⟩
    · intro _
      exact L.pure ⟨helems.snoc he, (hk'.step hin).step (Known.Later.withCur hin.next)⟩
  · intro _
    exact L.pure ⟨helems.snoc he, (hk'.step (Known.Later.withCur hk'.next)).mono (Nat.zero_le 1)⟩

include hturns

theorem parseStatements_does (hnext : k.next = none) (hleast : least ≤ k.moved) :
    L.Does k (parseStatements turns expression) (parseStatements turns' expression') SameExprs 0 := by
  apply L.tok_bind
  intro t ht
  apply L.ite
  · intro _
    exact L.pure ⟨rfl, Known.Later.withCur hnext⟩
  · intro _
    have hloop := L.loop (k := k.withCur t) (I := SameExprs) (R := SameExprs) (fun a b k' hk' hab =>
        L.statementsTurn_turn hexpr hab hk'.next (Nat.le_trans hleast (by have := hk'.moved; exact this))) turns' turns
      (k.withCur t) [] [] (Known.Later.refl hnext) rfl (by omega)
    exact L.mono hloop fun a b k' hab => ⟨hab.1, hab.2.of_withCur⟩

omit hexpr in
theorem blockParamsTurn_turn {params : List String} (hnext : k.next = none) :
    L.J k (blockParamsTurn turns params) (blockParamsTurn turns' params) (Turn Eq Eq k) := by
  apply L.tok_bind
  intro t ht
  apply L.ite_bump (by simp)
  · intro hin
    apply L.span_bind
    intro here here' _
    apply (L.expectIdent_does hin.begins).bind
    rintro name _ k' rfl hk'
    apply L.bind (L.checkNotReserved_does (.inr (.inl (Known.next_ne_eof hk'.next))))
    rintro _ _ _ rfl
    apply (L.captureTypeAnnotation_does hturns hk'.next).bind
    rintro _ _ k'' _ hk''
    exact L.pure ⟨rfl, (hin.step hk').step hk''⟩
  · intro _
    exact L.pure ⟨rfl, Known.Later.withCur hnext⟩

omit hexpr in
theorem parseBlockParams_does (hnext : k.next = none) :
    L.Does k (parseBlockParams turns) (parseBlockParams turns') Eq 0 := by
  apply L.tok_bind
  intro t ht
  apply L.ite
  · intro _
    apply (L.loop_eq (k := k.withCur t) (fun _ _ hk' => L.blockParamsTurn_turn hturns hk'.next) hnext turns turns' []
      (by omega)).bind
    rintro params _ k' rfl hk'
    apply (L.expect_does hk'.next (by simp)).bind
    rintro _ _ k'' _ hk''
    exact L.pure ⟨rfl, (hk'.of_withCur.step hk'').mono (Nat.zero_le 0)⟩
  · intro _
    exact L.pure ⟨rfl, Known.Later.withCur hnext⟩

variable {base base' : Expr × Bool} {t : Tok}

theorem parseBlock_does (hcur : k.cur = some t) (ht : t ≠ .eof) (hleast : least ≤ k.moved + 1) :
    L.Does k (parseBlock turns expression) (parseBlock turns' expression') SameExpr 1 := by
  apply L.span_bind
  intro here here' _
  apply L.bump_bind
  have hin : k.Later 1 k.bumped := Known.bumped_later hcur ht
  apply (L.parseBlockParams_does hturns hin.next).bind
  rintro params _ k₁ rfl hk₁
  apply (L.parseOptionalTemps_does hturns hk₁.next).bind
  intro temps temps' k₂ htemps hk₂
  have hmoved := ((hin.step hk₁).step hk₂).moved
  apply (L.parseStatements_does hturns hexpr hk₂.next (by omega)).bind
  intro body body' k₃ hbody hk₃
  apply (L.expect_does hk₃.next (by simp)).bind
  rintro _ _ k₄ _ hk₄
  apply L.pure
  refine ⟨?_, (((hin.step hk₁).step hk₂).step hk₃).step hk₄⟩
  have hnames := htemps.1
  unfold SameExpr SameExprs at *
  simp only [Expr.strip, hbody, hnames]

theorem parseDynArray_does (hcur : k.cur = some t) (ht : t ≠ .eof) (hleast : least ≤ k.moved + 1) :
    L.Does k (parseDynArray turns expression) (parseDynArray turns' expression') SameExpr 1 := by
  apply L.span_bind
  intro here here' _
  apply L.bump_bind
  have hin : k.Later 1 k.bumped := Known.bumped_later hcur ht
  have hmoved := hin.moved
  apply L.tok_bind
  intro t' _
  have hclose : ∀ elems elems' k₁, SameExprs elems elems' → (k.bumped.withCur t').Later 0 k₁ →
      L.J k₁ (expect .rBrace "expected '\x7d' to close brace array" >>= fun _ => Pure.pure (Expr.dynArray elems here))
        (expect .rBrace "expected '\x7d' to close brace array" >>= fun _ => Pure.pure (Expr.dynArray elems' here'))
        fun a b k' => SameExpr a b ∧ k.Later 1 k' := by
    intro elems elems' k₁ helems hk₁
    apply (L.expect_does hk₁.next (by simp)).bind
    rintro _ _ k₂ _ hk₂
    apply L.pure
    refine ⟨?_, (hin.step hk₁.of_withCur).step hk₂⟩
    unfold SameExpr SameExprs at *
    simp only [Expr.strip, helems]
  apply L.ite
  · intro _
    exact hclose [] [] _ rfl (Known.Later.refl hin.next)
  · intro _
    apply (L.loop (k := k.bumped.withCur t') (I := SameExprs) (R := SameExprs) (fun a b k' hk' hab =>
      L.dynArrayTurn_turn hexpr hab hk'.next (by have hle : k.bumped.moved + 0 ≤ k'.moved := hk'.moved; omega)) turns' turns
      _ _ _ (Known.Later.refl hin.next) rfl (by omega)).bind
    intro elems elems' k₁ helems hk₁
    exact hclose elems elems' k₁ helems hk₁

omit hexpr hturns in
theorem wordPrimary_same {name : String} {here here' : Span} : SamePrimary (wordPrimary name here) (wordPrimary name here') := by
  unfold wordPrimary
  repeat (split; exact ⟨by simp, rfl⟩)
  exact ⟨by simp, rfl⟩

omit hexpr hturns in
theorem scaledSend_same {negative : Bool} {intDigits fracDigits : List Char} {scale : Nat} {here here' : Span} :
    SameExpr (scaledSend negative intDigits fracDigits scale here) (scaledSend negative intDigits fracDigits scale here') := by
  simp [SameExpr, scaledSend]

theorem parsePrimary_does (hk : k.Begins isIdent) (hleast : least ≤ k.moved + 1) :
    L.Does k (parsePrimary turns expression) (parsePrimary turns' expression') SamePrimary 1 := by
  apply L.tok_span_bind
  intro t ht here here'
  have hbump : t ≠ .eof → k.Later 1 (k.withCur t).bumped := Known.withCur_bumped_later
  cases t with
  | ident name => exact L.bump_bind (L.pure ⟨wordPrimary_same, hbump (by simp)⟩)
  | lParen =>
    apply L.bump_bind
    have hin := hbump (by simp)
    have hmoved := hin.moved
    apply (hexpr _ hin.begins (by omega)).bind
    intro e e' k₁ he hk₁
    apply (L.expect_does hk₁.next (by simp)).bind
    rintro _ _ k₂ _ hk₂
    exact L.pure ⟨⟨he, rfl⟩, (hin.step hk₁).step hk₂⟩
  | lBracket =>
    apply (L.parseBlock_does hturns hexpr (k := k.withCur .lBracket) rfl (by simp) hleast).bind
    intro e e' k₁ he hk₁
    exact L.pure ⟨⟨he, rfl⟩, hk₁.of_withCur⟩
  | intLit negative radix digits => exact L.bump_bind (L.pure ⟨⟨by simp, rfl⟩, hbump (by simp)⟩)
  | floatLit negative text => exact L.bump_bind (L.pure ⟨⟨by simp, rfl⟩, hbump (by simp)⟩)
  | scaledLit negative intDigits fracDigits scale => exact L.bump_bind (L.pure ⟨⟨scaledSend_same, rfl⟩, hbump (by simp)⟩)
  | charLit c => exact L.bump_bind (L.pure ⟨⟨by simp, rfl⟩, hbump (by simp)⟩)
  | strLit s => exact L.bump_bind (L.pure ⟨⟨by simp, rfl⟩, hbump (by simp)⟩)
  | symLit s => exact L.bump_bind (L.pure ⟨⟨by simp, rfl⟩, hbump (by simp)⟩)
  | litArrayOpen =>
    have helems : ∀ k' : Known, k'.next = none → 0 < k'.depth → 0 ≤ k'.moved →
        L.Does k' (parseArrayElems turns turns) (parseArrayElems turns' turns') Eq 0 :=
      fun k' hnext hdepth _ => L.parseArrayElems_does hturns turns' turns k' hnext hdepth (by omega)
    apply (L.parseArrayLiteral_does (k := k.withCur .litArrayOpen) rfl (by simp) (Nat.zero_le _) helems).bind
    rintro value _ k₁ rfl hk₁
    exact L.pure ⟨⟨by simp, rfl⟩, hk₁.of_withCur⟩
  | byteArrayOpen =>
    apply (L.parseByteArrayLiteral_does hturns (k := k.withCur .byteArrayOpen) rfl (by simp)).bind
    rintro value _ k₁ rfl hk₁
    exact L.pure ⟨⟨by simp, rfl⟩, hk₁.of_withCur⟩
  | lBrace =>
    apply (L.parseDynArray_does hturns hexpr (k := k.withCur .lBrace) rfl (by simp) hleast).bind
    intro e e' k₁ he hk₁
    exact L.pure ⟨⟨he, rfl⟩, hk₁.of_withCur⟩
  | _ => exact L.fail (.inr (hk.next_ne_eof ht (by simp [isIdent])))

omit hexpr hturns in
theorem unaryTurn_turn {acc acc' : Expr × Bool} (hacc : SamePrimary acc acc') (hnext : k.next = none) :
    L.J k (unaryTurn acc) (unaryTurn acc') (Turn SamePrimary SamePrimary k) := by
  apply L.tok_span_bind
  intro t ht here here'
  cases t with
  | ident name =>
    apply L.bump_bind
    refine L.pure ⟨⟨?_, rfl⟩, Known.withCur_bumped_later (by simp)⟩
    simp [hacc.1, hacc.2]
  | _ => exact L.pure ⟨hacc, Known.Later.withCur hnext⟩

omit hexpr in
theorem parseUnaryChain_does {base base' : Expr × Bool} (hbase : SamePrimary base base') (hnext : k.next = none) :
    L.Does k (parseUnaryChain turns base) (parseUnaryChain turns' base') SamePrimary 0 :=
  L.loop (fun _ _ _ hk' hab => L.unaryTurn_turn hab hk'.next) turns' turns k base base' (Known.Later.refl hnext) hbase
    (by omega)

theorem binaryTurn_turn {acc acc' : Expr × Bool} (hacc : SamePrimary acc acc') (hnext : k.next = none)
    (hleast : least ≤ k.moved + 1) :
    L.J k (binaryTurn turns expression acc) (binaryTurn turns' expression' acc') (Turn SamePrimary SamePrimary k) := by
  apply L.tok_span_bind
  intro t ht here here'
  cases hsel : binarySelector t with
  | none => exact L.pure ⟨hacc, Known.Later.withCur hnext⟩
  | some sel =>
    apply L.bump_bind
    have hin : k.Later 1 (k.withCur t).bumped := by
      apply Known.withCur_bumped_later
      rintro rfl
      cases hsel
    have hmoved := hin.moved
    apply (L.parsePrimary_does hturns hexpr hin.begins (by omega)).bind
    intro primary primary' k₁ hprimary hk₁
    apply (L.parseUnaryChain_does hturns hprimary hk₁.next).bind
    intro arg arg' k₂ harg hk₂
    refine L.pure ⟨⟨?_, rfl⟩, (hin.step hk₁).step hk₂⟩
    simp [hacc.1, hacc.2, harg.1]

theorem parseBinaryChain_does (hbase : SamePrimary base base') (hnext : k.next = none) (hleast : least ≤ k.moved + 1) :
    L.Does k (parseBinaryChain turns expression base) (parseBinaryChain turns' expression' base') SamePrimary 0 := by
  apply (L.parseUnaryChain_does hturns hbase hnext).bind
  intro receiver receiver' k₁ hreceiver hk₁
  apply L.mono (L.loop (k := k₁) (fun _ _ k' hk' hab => L.binaryTurn_turn hturns hexpr hab hk'.next
    (by have := hk₁.moved; have := hk'.moved; omega)) turns' turns k₁ receiver receiver' (Known.Later.refl hk₁.next) hreceiver
    (by omega))
  intro a b k' hab
  exact ⟨hab.1, hk₁.step hab.2⟩

def SameMessage (a b : String × List Expr) : Prop := a.1 = b.1 ∧ SameExprs a.2 b.2

theorem keywordTurn_turn {acc acc' : String × List Expr} (hacc : SameMessage acc acc') (hnext : k.next = none)
    (hleast : least ≤ k.moved + 1) :
    L.J k (keywordTurn turns expression acc) (keywordTurn turns' expression' acc') (Turn SameMessage SameMessage k) := by
  apply L.tok_bind
  intro t ht
  cases t with
  | keyword w =>
    apply L.bump_bind
    have hin : k.Later 1 (k.withCur (.keyword w)).bumped := Known.withCur_bumped_later (by simp)
    have hmoved := hin.moved
    apply (L.parsePrimary_does hturns hexpr hin.begins (by omega)).bind
    intro primary primary' k₁ hprimary hk₁
    have hmoved₁ := hk₁.moved
    apply (L.parseBinaryChain_does hturns hexpr hprimary hk₁.next (by omega)).bind
    intro arg arg' k₂ harg hk₂
    exact L.pure ⟨⟨by rw [hacc.1], hacc.2.snoc harg.1⟩, (hin.step hk₁).step hk₂⟩
  | _ => exact L.pure ⟨hacc, Known.Later.withCur hnext⟩

theorem parseKeywordChain_does (hbase : SamePrimary base base') (hnext : k.next = none) (hleast : least ≤ k.moved + 1) :
    L.Does k (parseKeywordChain turns expression base) (parseKeywordChain turns' expression' base') SamePrimary 0 := by
  apply (L.parseBinaryChain_does hturns hexpr hbase hnext hleast).bind
  intro receiver receiver' k₁ hreceiver hk₁
  apply L.tok_span_bind
  intro t ht here here'
  apply L.ite
  · intro _
    have hmoved := hk₁.moved
    apply (L.loop (k := k₁.withCur t) (fun _ _ k' hk' hab => L.keywordTurn_turn hturns hexpr hab hk'.next
      (by have hle : k₁.moved + 0 ≤ k'.moved := hk'.moved; omega)) turns' turns (k₁.withCur t) ("", []) ("", [])
      (Known.Later.refl hk₁.next) ⟨rfl, rfl⟩ (by omega)).bind
    intro message message' k₂ hmessage hk₂
    refine L.pure ⟨⟨?_, rfl⟩, hk₁.step hk₂.of_withCur⟩
    have hargs := hmessage.2
    unfold SameExprs at hargs
    simp [hreceiver.1, hreceiver.2, hmessage.1, hargs]
  · intro _
    exact L.pure ⟨hreceiver, hk₁.step (Known.Later.withCur hk₁.next)⟩

theorem parseKeywordExpr_does (hk : k.Begins isIdent) (hleast : least ≤ k.moved + 1) :
    L.Does k (parseKeywordExpr turns expression) (parseKeywordExpr turns' expression') SameExpr 1 := by
  apply L.span_bind
  intro here here' _
  apply (L.parsePrimary_does hturns hexpr hk hleast).bind
  intro base base' k₁ hbase hk₁
  have hmoved := hk₁.moved
  apply (L.parseKeywordChain_does hturns hexpr hbase hk₁.next (by omega)).bind
  intro e e' k₂ he hk₂
  rw [he.2]
  refine L.fail_ite hk₂.next fun _ => ?_
  exact L.pure ⟨he.1, hk₁.step hk₂⟩

omit hexpr hturns in
theorem isCascadeRcvr_same {a b : Expr} (h : SameExpr a b) : isCascadeRcvr a = isCascadeRcvr b := by
  unfold SameExpr at h
  cases a <;> cases b <;> simp_all [isCascadeRcvr]

theorem cascadeTurn_turn {rcvrSpan rcvrSpan' : Span} {isSuper : Bool} {segments segments' : List Expr}
    (hsegments : SameExprs segments segments') (hnext : k.next = none) (hleast : least ≤ k.moved + 1) :
    L.J k (cascadeTurn turns expression rcvrSpan isSuper segments)
      (cascadeTurn turns' expression' rcvrSpan' isSuper segments') (Turn SameExprs SameExprs k) := by
  apply L.tok_bind
  intro t ht
  apply L.ite_bump (by simp)
  · intro hin
    have hmoved := hin.moved
    apply L.span_bind
    intro start start' _
    have hbase : SamePrimary (.cascadeRcvr rcvrSpan, isSuper) (.cascadeRcvr rcvrSpan', isSuper) := ⟨by simp, rfl⟩
    apply (L.parseKeywordChain_does hturns hexpr hbase hin.next (by omega)).bind
    intro seg seg' k₁ hseg hk₁
    rw [isCascadeRcvr_same hseg.1]
    refine L.fail_ite hk₁.next fun _ => ?_
    exact L.pure ⟨hsegments.snoc hseg.1, hin.step hk₁⟩
  · intro _
    exact L.pure ⟨hsegments, Known.Later.withCur hnext⟩

theorem parseCascade_does (hk : k.Begins isIdent) (hleast : least ≤ k.moved + 1) :
    L.Does k (parseCascade turns expression) (parseCascade turns' expression') SameExpr 1 := by
  apply L.span_bind
  intro here here' _
  apply (L.parseKeywordExpr_does hturns hexpr hk hleast).bind
  intro first first' k₁ hfirst hk₁
  have hmoved := hk₁.moved
  apply L.tok_bind
  intro t ht
  apply L.ite
  · intro _
    have hfail : ∀ {s s' : Span} {msg msg' : String}, L.J (k₁.withCur t) (Parser.fail s msg : Parse Expr) (Parser.fail s' msg')
        fun a b k' => SameExpr a b ∧ k.Later 1 k' := L.fails hk₁.next
    cases first with
    | send receiver selector args isSuper sendSpan =>
      cases first' with
      | send receiver' selector' args' isSuper' sendSpan' =>
        simp only [SameExpr, Expr.strip, Expr.send.injEq] at hfirst
        obtain ⟨hreceiver, rfl, hargs, rfl, -⟩ := hfirst
        have hsegments : SameExprs [.send (.cascadeRcvr receiver.spanOf) selector args isSuper sendSpan]
            [.send (.cascadeRcvr receiver'.spanOf) selector args' isSuper sendSpan'] := by
          simp [SameExprs, hargs]
        apply (L.loop (k := k₁.withCur t) (fun _ _ k' hk' hab => L.cascadeTurn_turn hturns hexpr hab hk'.next
          (by have hle : k₁.moved + 0 ≤ k'.moved := hk'.moved; omega)) turns' turns (k₁.withCur t) _ _
          (Known.Later.refl hk₁.next) hsegments (by omega)).bind
        intro segments segments' k₂ hsegments hk₂
        refine L.pure ⟨?_, hk₁.step hk₂.of_withCur⟩
        unfold SameExprs at hsegments
        simp only [SameExpr, Expr.strip, hreceiver, hsegments]
      | _ => simp [SameExpr] at hfirst
    | _ =>
      cases first' with
      | send receiver' selector' args' isSuper' sendSpan' => simp [SameExpr] at hfirst
      | _ => exact hfail
  · intro _
    exact L.pure ⟨hfirst, hk₁.step (Known.Later.withCur hk₁.next)⟩

theorem expressionBody_does (hk : k.Begins isIdent) (hleast : least ≤ k.moved + 1) :
    L.Does k (expressionBody turns expression) (expressionBody turns' expression') SameExpr 1 := by
  apply L.tok_bind
  intro t ht
  cases t with
  | ident name =>
    have hlook : ∀ next k', k'.cur = some (.ident name) → k'.next = some next → k'.moved = k.moved → k'.depth = k.depth →
        L.J k' (if (next == .assign) = true then Parser.span >>= fun here => checkNotReserved here name >>=
            fun _ => Parser.bump >>= fun _ => Parser.bump >>= fun _ => expression >>= fun value => Pure.pure (.assign name value here)
          else parseCascade turns expression)
        (if (next == .assign) = true then Parser.span >>= fun here => checkNotReserved here name >>=
            fun _ => Parser.bump >>= fun _ => Parser.bump >>= fun _ => expression' >>= fun value => Pure.pure (.assign name value here)
          else parseCascade turns' expression') fun a b k'' => SameExpr a b ∧ k.Later 1 k'' := by
      intro next k' hcur hnext hmoved hdepth
      apply L.ite
      · intro hc
        have hassign := eq_of_beq hc
        apply L.span_bind
        intro here here' _
        apply L.bind (L.checkNotReserved_does (.inr (.inl (by rw [hnext, hassign]; simp))))
        intro _ _ k'' hk''
        rw [hk'']
        apply L.bump_bind
        apply L.bump_bind
        have hin : k.Later 1 k'.bumped.bumped := by
          have hfirst := Known.bumped_later hcur (by simp)
          refine ⟨rfl, ?_, hdepth⟩
          have hle := hfirst.moved
          have hle' := (Known.bumped_later_zero (k := k'.bumped)).moved
          omega
        have hle := hin.moved
        apply (hexpr _ hin.begins (by omega)).bind
        intro value value' k₁ hvalue hk₁
        refine L.pure ⟨?_, hin.step hk₁⟩
        unfold SameExpr at *
        simp only [Expr.strip, hvalue]
      · intro _
        refine L.mono (L.parseCascade_does hturns hexpr (.inr ⟨_, hcur, rfl⟩) (by omega)) ?_
        intro a b k₁ hab
        have hle := hab.2.moved
        exact ⟨hab.1, hab.2.next, by omega, hab.2.depth.trans hdepth⟩
    cases hnext : k.next with
    | none =>
      apply L.peek_bind (k := k.withCur (.ident name)) hnext ⟨_, rfl, by simp⟩
      intro next
      exact hlook next _ rfl rfl rfl rfl
    | some next =>
      apply L.peekAgain_bind (k := k.withCur (.ident name)) hnext
      exact hlook next _ rfl hnext rfl rfl
  | _ => exact (L.parseCascade_does hturns hexpr (hk.withCur ht) hleast).of_withCur

end Expressions

theorem expressionTo_does (hturns : L.total < turns') (n : Nat) : ∀ (m : Nat) (k : Known), k.Begins isIdent →
    L.total < k.moved + n → L.Does k (expressionTo turns m) (expressionTo turns' n) SameExpr 1 := by
  induction n with
  | zero =>
    intro m k _ hn
    exact L.spent hn
  | succ n ih =>
    intro m k hk hn
    have hall : ∀ m, L.Does k (expressionTo turns (m + 1)) (expressionTo turns' (n + 1)) SameExpr 1 := by
      intro m
      have hleast : L.total + 1 - n ≤ k.moved + 1 := by omega
      apply L.expressionBody_does hturns _ hk hleast
      intro k' hk' hleast
      exact ih m k' hk' (by omega)
    cases m with
    | zero => exact L.spent_left (hall 0)
    | succ m => exact hall m

theorem parseExpression_does (hturns : L.total < turns') (hk : k.Begins isIdent) :
    L.Does k (parseExpression turns) (parseExpression turns') SameExpr 1 :=
  L.expressionTo_does hturns turns' turns k hk (by omega)

end Rules

end WinArmVm.Frontend.Parser
