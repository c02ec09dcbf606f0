import WinArmVm.ParserWalk

namespace WinArmVm.Frontend

open StateRun

namespace Parser

def tempChunkTurn (turns : Nat) (body : List Expr) : Parse (List Expr ⊕ List Expr) := do
  let t ← tok
  if t == .eof then pure (.inr body)
  else do
    let stmt ← parseStatement (parseExpression turns)
    let t ← tok
    if t == .eof then pure (.inl (body ++ [stmt]))
    else do
      expect .period "expected '.' after statement"
      pure (.inl (body ++ [stmt]))

/-- Statements after a declaration of temporaries are the body of one block, which is sent `value`. -/
def parseTempChunk (turns : Nat) : Parse TopItem := do
  let here ← span
  let temps ← parseOptionalTemps turns
  let body ← loop (tempChunkTurn turns) turns []
  pure (.doIt (.send (.block [] temps.1 body here) "value" [] false here))

def oneTopItem (turns : Nat) : Parse (Option TopItem) := do
  let t ← tok
  if t == .eof then pure none
  else if t == .vBar then do
    let item ← parseTempChunk turns
    pure (some item)
  else do
    let isClassDef ← startsClassDef
    if isClassDef then do
      let node ← parseClassDef turns
      pure (some (.classDef node))
    else do
      let stmt ← parseStatement (parseExpression turns)
      let t ← tok
      if t == .eof then pure (some (.doIt stmt))
      else do
        expect .period "expected '.' after statement"
        pure (some (.doIt stmt))

end Parser

/-- What the prompt reads: an item, or nothing where there is only trivia. -/
def parseOneTopItem (input : List Char) : Option (Except CompileError (Option TopItem)) :=
  match Parser.new input with
  | .error e => some (.error e)
  | .ok p => Option.map (Except.map Prod.fst) (Parser.oneTopItem (turnsFor input) p)

end WinArmVm.Frontend

namespace WinArmVm

namespace Frontend

open StateRun

namespace Parser

namespace Rules

open Basics

variable (L : Rules) {k : Known} {turns turns' : Nat}

section Pragmas

theorem skipPragmaTurn_turn {depth : Nat} (hnext : k.next = none) :
    L.J k (skipPragmaTurn depth) (skipPragmaTurn depth) (Turn Eq (fun _ _ => True) k) := by
  apply L.tok_span_bind
  intro t ht here here'
  have hbump : t ≠ .eof → k.Later 1 (k.withCur t).bumped := Known.withCur_bumped_later
  apply L.ite
  · intro hc
    have htok := eq_of_beq hc
    exact L.bump_bind (L.pure ⟨rfl, hbump (by simp [htok])⟩)
  · intro _
    apply L.ite
    · intro hc
      have htok := eq_of_beq hc
      apply L.ite
      · intro _
        apply L.setPragmaMode_bind
        exact L.bump_bind (L.pure ⟨trivial, (hbump (by simp [htok])).mono (Nat.zero_le 1)⟩)
      · intro _
        exact L.bump_bind (L.pure ⟨rfl, hbump (by simp [htok])⟩)
    · intro _
      refine L.fail_ite hnext fun hc => ?_
      exact L.bump_bind (L.pure ⟨rfl, hbump fun he => hc (beq_iff_eq.mpr he)⟩)

theorem skipPragmaBody_does {depth : Nat} (hturns : L.total < turns') (hnext : k.next = none) :
    L.Does k (skipPragmaBody turns depth) (skipPragmaBody turns' depth) (fun _ _ => True) 0 :=
  L.loop (I := Eq) (fun _ _ k' hk' hab => by rw [hab]; exact L.skipPragmaTurn_turn hk'.next) turns' turns k depth depth
    (Known.Later.refl hnext) rfl (by omega)

variable {start start' : Span} {parts : FfiParts} {ctx : String}

theorem expectFfiSym_does (hnext : k.next = none) : L.Does k (expectFfiSym ctx) (expectFfiSym ctx) Eq 0 := by
  apply L.tok_span_bind
  intro t ht here here'
  cases t with
  | symLit s => exact L.bump_bind (L.pure ⟨rfl, (Known.withCur_bumped_later (by simp)).mono (Nat.zero_le 1)⟩)
  | _ => exact L.fails hnext

theorem expectFfiBool_does (hnext : k.next = none) : L.Does k (expectFfiBool ctx) (expectFfiBool ctx) Eq 0 := by
  apply L.tok_span_bind
  intro t ht here here'
  have hin : k.Later 0 (k.withCur t).bumped := Known.bumped_later_zero.of_withCur
  apply L.ite
  · intro _
    exact L.bump_bind (L.pure ⟨rfl, hin⟩)
  · intro _
    refine L.ite_fail hnext fun _ => ?_
    exact L.bump_bind (L.pure ⟨rfl, hin⟩)

theorem parseArrayElems_all (hturns : L.total < turns') : ∀ k' : Known, k'.next = none → 0 < k'.depth → 0 ≤ k'.moved →
    L.Does k' (parseArrayElems turns turns) (parseArrayElems turns' turns') Eq 0 :=
  fun k' hnext hdepth _ => L.parseArrayElems_does hturns turns' turns k' hnext hdepth (by omega)

theorem expectFfiSymArray_does (hturns : L.total < turns') (hnext : k.next = none) :
    L.Does k (expectFfiSymArray turns ctx) (expectFfiSymArray turns' ctx) Eq 0 := by
  apply L.tok_span_bind
  intro t ht here here'
  refine L.ite_fail hnext fun hc => ?_
  have htok := eq_of_beq hc
  apply (L.parseArrayItems_does (k := k.withCur t) rfl (by simp [htok]) (Nat.zero_le _) (L.parseArrayElems_all hturns)).bind
  rintro elems _ k' rfl hk'
  cases elems.mapM shapeSymbol with
  | some names => exact L.pure ⟨rfl, (hk'.mono (Nat.zero_le 1)).of_withCur⟩
  | none => exact L.fails hk'.next

variable {α β γ : Type}

theorem once_does {name : String} {taken : Option α} {p q : Parse β} (hnext : k.next = none)
    (h : L.Does k p q Eq 0) : L.Does k (once start name taken p) (once start' name taken q) Eq 0 := by
  refine L.fail_ite hnext fun _ => ?_
  exact h

theorem part_does {p q : Parse α} {f : α → β} (h : L.Does k p q Eq 0) :
    L.Does k (p >>= fun a => Pure.pure (f a)) (q >>= fun a => Pure.pure (f a)) Eq 0 := by
  apply h.bind
  rintro a _ k' rfl hk'
  exact L.pure ⟨rfl, hk'⟩

theorem ffiPart_does {kw : String} (hturns : L.total < turns') (hnext : k.next = none) :
    L.Does k (ffiPart turns start parts kw) (ffiPart turns' start' parts kw) Eq 0 := by
  apply L.ite
  · intro _
    exact L.once_does hnext (L.part_does (L.expectFfiSym_does hnext))
  intro _
  apply L.ite
  · intro _
    exact L.once_does hnext (L.part_does (L.expectFfiSym_does hnext))
  intro _
  apply L.ite
  · intro _
    exact L.once_does hnext (L.part_does (L.expectFfiSym_does hnext))
  intro _
  apply L.ite
  · intro _
    exact L.once_does hnext (L.part_does (L.expectFfiSym_does hnext))
  intro _
  apply L.ite
  · intro _
    exact L.once_does hnext (L.part_does (L.expectFfiBool_does hnext))
  intro _
  apply L.ite
  · intro _
    exact L.once_does hnext (L.part_does (L.expectFfiSym_does hnext))
  intro _
  refine L.ite_fail hnext fun _ => ?_
  exact L.once_does hnext (L.part_does (L.expectFfiSymArray_does hturns hnext))

theorem ffiTurn_turn (hturns : L.total < turns') (hnext : k.next = none) :
    L.J k (ffiTurn turns start parts) (ffiTurn turns' start' parts) (Turn Eq Eq k) := by
  apply L.tok_span_bind
  intro t ht here here'
  cases t with
  | keyword kw =>
    apply L.bump_bind
    have hin : k.Later 1 (k.withCur (.keyword kw)).bumped := Known.withCur_bumped_later (by simp)
    apply (L.ffiPart_does hturns hin.next).bind
    rintro parts _ k' rfl hk'
    exact L.pure ⟨rfl, hin.step hk'⟩
  | _ =>
    refine L.ite_fail hnext fun _ => ?_
    exact L.pure ⟨rfl, Known.Later.withCur hnext⟩

theorem ffiPragma_does (hnext : k.next = none) : L.Does k (ffiPragma start parts) (ffiPragma start' parts) Eq 0 := by
  have hfail : ∀ {msg : String}, L.J k (Parser.fail start msg : Parse FfiPragma) (Parser.fail start' msg)
      fun a b k' => a = b ∧ k.Later 0 k' := L.fails hnext
  unfold ffiPragma
  cases parts.ret with
  | none => exact hfail
  | some ret =>
    cases parts.function with
    | none =>
      cases parts.selector with
      | none => exact hfail
      | some selector =>
        cases parts.className with
        | none => exact hfail
        | some className =>
          apply L.ite
          · intro _
            exact hfail
          · intro _
            exact L.pure ⟨rfl, Known.Later.refl hnext⟩
    | some name =>
      cases parts.selector with
      | none => exact L.pure ⟨rfl, Known.Later.refl hnext⟩
      | some selector => exact hfail

theorem parseFfiPragmaBody_does (hturns : L.total < turns') (hnext : k.next = none) :
    L.Does k (parseFfiPragmaBody turns start) (parseFfiPragmaBody turns' start') Eq 0 := by
  apply (L.loop_eq (fun _ _ hk' => L.ffiTurn_turn hturns hk'.next) hnext turns turns' _ (by omega)).bind
  rintro parts _ k' rfl hk'
  apply L.setPragmaMode_bind
  apply L.bump_bind
  have hin : k'.Later 0 k'.bumped := Known.bumped_later_zero
  exact L.mono (L.ffiPragma_does hin.next) fun a b k'' hab => ⟨hab.1, (hk'.step hin).step hab.2⟩

theorem primitiveId_does {negative : Bool} {radix : Nat} {digits : List Char} (hnext : k.next = none) :
    L.Does k (primitiveId start negative radix digits) (primitiveId start' negative radix digits) Eq 0 := by
  refine L.fail_ite hnext fun _ => ?_
  refine L.fail_ite hnext fun _ => ?_
  exact L.pure ⟨rfl, Known.Later.refl hnext⟩

theorem parsePrimitivePragma_does (hturns : L.total < turns') :
    L.Does k (parsePrimitivePragma turns start) (parsePrimitivePragma turns' start') Eq 0 := by
  apply L.bump_bind
  have hin : k.Later 0 k.bumped := Known.bumped_later_zero
  apply L.tok_bind
  intro t ht
  have hbump : k.Later 0 (k.bumped.withCur t).bumped := hin.step Known.bumped_later_zero.of_withCur
  cases t with
  | intLit negative radix digits =>
    apply L.bump_bind
    apply L.tok_bind
    intro t' _
    refine L.ite_fail hbump.next fun _ => ?_
    apply L.setPragmaMode_bind
    apply L.bump_bind
    have hclosed := hbump.step (Known.bumped_later_zero (k := (k.bumped.withCur (.intLit negative radix digits)).bumped.withCur t')).of_withCur
    apply (L.primitiveId_does hclosed.next).bind
    rintro id _ k' rfl hk'
    exact L.pure ⟨rfl, hclosed.step hk'⟩
  | _ =>
    refine L.ite_fail hin.next fun _ => ?_
    apply L.bump_bind
    apply (L.parseFfiPragmaBody_does hturns hbump.next).bind
    rintro ffi _ k' rfl hk'
    exact L.pure ⟨rfl, hbump.step hk'⟩

theorem parseMethodPragma_does {t : Tok} (hturns : L.total < turns') (hcur : k.cur = some t) (ht : t ≠ .eof) :
    L.Does k (parseMethodPragma turns) (parseMethodPragma turns') Eq 1 := by
  apply L.span_bind
  intro start start' _
  apply L.setPragmaMode_bind
  apply L.bump_bind
  have hin : k.Later 1 k.bumped := Known.bumped_later hcur ht
  apply L.tok_bind
  intro t' _
  apply L.ite
  · intro _
    exact L.mono (L.parsePrimitivePragma_does hturns) fun a b k' hab => ⟨hab.1, hin.step hab.2.of_withCur⟩
  · intro _
    apply (L.skipPragmaBody_does (k := k.bumped.withCur t') hturns hin.next).bind
    rintro _ _ k' _ hk'
    exact L.pure ⟨rfl, hin.step hk'.of_withCur⟩

theorem indexableKind_does {kind : String} (hnext : k.next = none) :
    L.Does k (indexableKind start kind) (indexableKind start' kind) Eq 0 := by
  apply L.ite
  · intro _
    exact L.pure ⟨rfl, Known.Later.refl hnext⟩
  · intro _
    refine L.ite_fail hnext fun _ => ?_
    exact L.pure ⟨rfl, Known.Later.refl hnext⟩

theorem parseIndexablePragma_does : L.Does k (parseIndexablePragma start) (parseIndexablePragma start') Eq 0 := by
  apply L.bump_bind
  have hin : k.Later 0 k.bumped := Known.bumped_later_zero
  apply L.tok_bind
  intro t ht
  cases t with
  | ident kind =>
    apply L.bump_bind
    have hbump : k.Later 0 (k.bumped.withCur (.ident kind)).bumped := hin.step Known.bumped_later_zero.of_withCur
    apply L.tok_bind
    intro t' _
    refine L.ite_fail hbump.next fun _ => ?_
    apply L.setPragmaMode_bind
    apply L.bump_bind
    have hclosed := hbump.step (Known.bumped_later_zero (k := (k.bumped.withCur (.ident kind)).bumped.withCur t')).of_withCur
    exact (L.indexableKind_does hclosed.next).after hclosed
  | _ => exact L.fails hin.next

theorem namesTurn_turn {names : List String} (hnext : k.next = none) :
    L.J k (namesTurn names) (namesTurn names) (Turn Eq Eq k) := by
  apply L.tok_bind
  intro t ht
  cases t with
  | ident name => exact L.bump_bind (L.pure ⟨rfl, Known.withCur_bumped_later (by simp)⟩)
  | _ => exact L.pure ⟨rfl, Known.Later.withCur hnext⟩

theorem parseClassVarsPragma_does (hturns : L.total < turns') :
    L.Does k (parseClassVarsPragma turns start) (parseClassVarsPragma turns' start') Eq 0 := by
  apply L.bump_bind
  have hin : k.Later 0 k.bumped := Known.bumped_later_zero
  apply (L.loop_eq (fun _ _ hk' => L.namesTurn_turn hk'.next) hin.next turns turns' _ (by omega)).bind
  rintro names _ k' rfl hk'
  apply L.tok_bind
  intro t _
  refine L.ite_fail hk'.next fun _ => ?_
  apply L.setPragmaMode_bind
  exact L.bump_bind (L.pure ⟨rfl, (hin.step hk').step Known.bumped_later_zero.of_withCur⟩)

theorem parseClassPragma_does {t : Tok} (hturns : L.total < turns') (hcur : k.cur = some t) (ht : t ≠ .eof) :
    L.Does k (parseClassPragma turns) (parseClassPragma turns') Eq 1 := by
  apply L.span_bind
  intro start start' _
  apply L.setPragmaMode_bind
  apply L.bump_bind
  have hin : k.Later 1 k.bumped := Known.bumped_later hcur ht
  apply L.tok_bind
  intro t' _
  apply L.ite
  · intro _
    exact L.mono L.parseIndexablePragma_does fun a b k' hab => ⟨hab.1, hin.step hab.2.of_withCur⟩
  · intro _
    apply L.ite
    · intro _
      exact L.mono (L.parseClassVarsPragma_does hturns) fun a b k' hab => ⟨hab.1, hin.step hab.2.of_withCur⟩
    · intro _
      apply (L.skipPragmaBody_does (k := k.bumped.withCur t') hturns hin.next).bind
      rintro _ _ k' _ hk'
      exact L.pure ⟨rfl, hin.step hk'.of_withCur⟩

end Pragmas

section Methods

def SameType (a b : Option TypeAnnotation) : Prop := a.map TypeAnnotation.strip = b.map TypeAnnotation.strip

def SameParam (a b : String × Option TypeAnnotation) : Prop := a.1 = b.1 ∧ SameType a.2 b.2

def SamePattern (a b : Pattern) : Prop := a.selector = b.selector ∧ a.params = b.params ∧ stripTypes a.types = stripTypes b.types

def SameMethod (a b : MethodNode) : Prop := a.strip = b.strip

theorem stripTypes_singleton {a b : Option TypeAnnotation} (h : SameType a b) : stripTypes [a] = stripTypes [b] := by
  unfold SameType at h
  simp only [stripTypes, List.map_cons, List.map_nil, h]

theorem SamePattern.single {selector : String} {a b : String × Option TypeAnnotation} (h : SameParam a b) :
    SamePattern ⟨selector, [a.1], [a.2]⟩ ⟨selector, [b.1], [b.2]⟩ :=
  ⟨rfl, by rw [h.1], stripTypes_singleton h.2⟩

variable (hturns : L.total < turns')

include hturns

theorem parseParam_does {msg : String} (hk : k.Begins isIdent) :
    L.Does k (parseParam turns msg) (parseParam turns' msg) SameParam 1 := by
  apply L.span_bind
  intro here here' _
  apply (L.expectIdent_does hk).bind
  rintro name _ k₁ rfl hk₁
  apply L.bind (L.checkNotReserved_does (.inr (.inl (Known.next_ne_eof hk₁.next))))
  intro _ _ k₂ hk₂
  rw [hk₂]
  apply (L.captureTypeAnnotation_does hturns hk₁.next).bind
  intro ty ty' k₃ hty hk₃
  exact L.pure ⟨⟨rfl, hty⟩, hk₁.step hk₃⟩

theorem patternTurn_turn {acc acc' : Pattern} (hacc : SamePattern acc acc') (hnext : k.next = none) :
    L.J k (patternTurn turns acc) (patternTurn turns' acc') (Turn SamePattern SamePattern k) := by
  apply L.tok_bind
  intro t ht
  cases t with
  | keyword w =>
    apply L.bump_bind
    have hin : k.Later 1 (k.withCur (.keyword w)).bumped := Known.withCur_bumped_later (by simp)
    apply (L.parseParam_does hturns hin.begins).bind
    intro param param' k₁ hparam hk₁
    refine L.pure ⟨⟨?_, ?_, ?_⟩, hin.step hk₁⟩
    · simp only [hacc.1]
    · simp only [hacc.2.1, hparam.1]
    · simp only [stripTypes_append, hacc.2.2, stripTypes_singleton hparam.2]
  | _ => exact L.pure ⟨hacc, Known.Later.withCur hnext⟩

def opensPattern : Tok → Bool
  | .ident _ => true
  | .binarySel _ => true
  | _ => false

theorem parsePattern_does (hk : k.Begins opensPattern) :
    L.Does k (parsePattern turns) (parsePattern turns') SamePattern 0 := by
  apply L.tok_span_bind
  intro t ht here here'
  have hbump : t ≠ .eof → k.Later 1 (k.withCur t).bumped := Known.withCur_bumped_later
  cases t with
  | ident name => exact L.bump_bind (L.pure ⟨⟨rfl, rfl, rfl⟩, (hbump (by simp)).mono (Nat.zero_le 1)⟩)
  | binarySel sel =>
    apply L.bump_bind
    have hin := hbump (by simp)
    apply (L.parseParam_does hturns hin.begins).bind
    intro param param' k₁ hparam hk₁
    exact L.pure ⟨SamePattern.single hparam, (hin.step hk₁).mono (Nat.zero_le 1)⟩
  | vBar =>
    apply L.bump_bind
    have hin := hbump (by simp)
    apply (L.parseParam_does hturns hin.begins).bind
    intro param param' k₁ hparam hk₁
    exact L.pure ⟨SamePattern.single hparam, (hin.step hk₁).mono (Nat.zero_le 1)⟩
  | keyword w =>
    have hnext : k.next = none := hk.next_eq_none ht (by simp [opensPattern])
    apply L.mono (L.loop (k := k.withCur (.keyword w)) (I := SamePattern) (R := SamePattern) (fun _ _ k' hk' hab =>
      L.patternTurn_turn hturns hab hk'.next) turns' turns _ _ _ (Known.Later.refl hnext) ⟨rfl, rfl, rfl⟩ (by omega))
    intro a b k' hab
    exact ⟨hab.1, hab.2.of_withCur⟩
  | _ => exact L.fail (.inr (hk.next_ne_eof ht (by simp [opensPattern])))

theorem methodPragmasTurn_turn {acc : Option Nat × Option FfiPragma} (hnext : k.next = none) :
    L.J k (methodPragmasTurn turns acc) (methodPragmasTurn turns' acc) (Turn Eq Eq k) := by
  apply L.tok_span_bind
  intro t ht here here'
  apply L.ite
  · intro hc
    have htok := eq_of_beq hc
    apply (L.parseMethodPragma_does hturns (k := k.withCur t) rfl (by simp [htok])).bind
    rintro pragma _ k₁ rfl hk₁
    apply L.ite
    · intro _
      refine L.fail_ite hk₁.next fun _ => ?_
      exact L.pure ⟨rfl, hk₁.of_withCur⟩
    · intro _
      exact L.pure ⟨rfl, hk₁.of_withCur⟩
  · intro _
    exact L.pure ⟨rfl, Known.Later.withCur hnext⟩

def SameBody (a b : MethodBody) : Prop :=
  a.primitive = b.primitive ∧ a.ffi = b.ffi ∧ a.temps = b.temps ∧ stripTypes a.tempTypes = stripTypes b.tempTypes ∧
    stripAll a.body = stripAll b.body

theorem parseMethodBody_does (hnext : k.next = none) :
    L.Does k (parseMethodBody turns) (parseMethodBody turns') SameBody 0 := by
  apply (L.loop_eq (fun _ _ hk' => L.methodPragmasTurn_turn hturns hk'.next) hnext turns turns' _ (by omega)).bind
  rintro pragmas _ k₁ rfl hk₁
  apply (L.parseOptionalTemps_does hturns hk₁.next).bind
  intro temps temps' k₂ htemps hk₂
  have hleast : 0 ≤ k₂.moved := Nat.zero_le _
  apply (L.parseStatements_does hturns (fun k' hk' _ => L.parseExpression_does hturns hk') hk₂.next hleast).bind
  intro body body' k₃ hbody hk₃
  exact L.pure ⟨⟨rfl, rfl, htemps.1, htemps.2, hbody⟩, (hk₁.step hk₂).step hk₃⟩

variable {classSide : Bool}

theorem parseMethodRest_does {pattern pattern' : Pattern} {here here' : Span} {opening closing : String}
    (hpattern : SamePattern pattern pattern') (hnext : k.next = none) :
    L.Does k (parseMethodRest turns pattern classSide here opening closing)
      (parseMethodRest turns' pattern' classSide here' opening closing) SameMethod 1 := by
  apply (L.captureReturnTypeAnnotation_does hturns hnext).bind
  intro returnType returnType' k₁ hreturn hk₁
  apply (L.expect_does hk₁.next (by simp)).bind
  rintro _ _ k₂ _ hk₂
  apply (L.parseMethodBody_does hturns hk₂.next).bind
  intro body body' k₃ hbody hk₃
  apply (L.expect_does hk₃.next (by simp)).bind
  rintro _ _ k₄ _ hk₄
  have hlater : k.Later 1 k₄ := ((hk₁.trans hk₂).step hk₃).step hk₄
  refine L.pure ⟨?_, hlater⟩
  unfold SameMethod MethodNode.strip MethodSignature.strip
  simp only [hpattern.1, hpattern.2.1, hpattern.2.2, hreturn, hbody.1, hbody.2.1, hbody.2.2.1, hbody.2.2.2.1, hbody.2.2.2.2]

theorem parseMethod_does (hk : k.Begins opensPattern) :
    L.Does k (parseMethod turns classSide) (parseMethod turns' classSide) SameMethod 1 := by
  apply L.span_bind
  intro here here' _
  apply (L.parsePattern_does hturns hk).bind
  intro pattern pattern' k₁ hpattern hk₁
  refine L.mono (L.parseMethodRest_does hturns hpattern hk₁.next) fun a b k' hab => ⟨hab.1, ?_⟩
  exact (hk₁.trans hab.2).mono (by omega)

end Methods

section Classes

def SameItems (a b : ClassItems) : Prop :=
  a.indexable = b.indexable ∧ a.instVars = b.instVars ∧ stripTypes a.instVarTypes = stripTypes b.instVarTypes ∧
    a.classVars = b.classVars ∧ a.methods.map MethodNode.strip = b.methods.map MethodNode.strip

variable {items : ClassItems} {a b : ClassItems}

theorem SameItems.addMethod {m m' : MethodNode} (h : SameItems a b) (hm : SameMethod m m') :
    SameItems (a.addMethod m) (b.addMethod m') := by
  obtain ⟨hi, hv, ht, hc, hms⟩ := h
  refine ⟨hi, hv, ht, hc, ?_⟩
  unfold SameMethod at hm
  simp only [ClassItems.addMethod, List.map_append, List.map_cons, List.map_nil, hms, hm]

theorem SameItems.addPragma (h : SameItems a b) (pragma : ClassPragma) :
    SameItems (a.addPragma pragma) (b.addPragma pragma) := by
  obtain ⟨hi, hv, ht, hc, hms⟩ := h
  cases pragma with
  | indexable kind => exact ⟨rfl, hv, ht, hc, hms⟩
  | classVars names => exact ⟨hi, hv, ht, by simp only [ClassItems.addPragma, hc], hms⟩
  | ignored => exact ⟨hi, hv, ht, hc, hms⟩

variable {items items' : ClassItems} {s : Parser} {name : String}

theorem parseParam_reserved {msg name : String} (hres : isReserved name = true) (hs : s.cur.1 = .ident name)
    (r : (String × Option TypeAnnotation) × Parser) : parseParam turns msg s ≠ some (.ok r) := by
  intro h
  obtain ⟨here, s₁, hspan, h⟩ := bind_ok h
  cases hspan
  obtain ⟨name', s₂, hname, h⟩ := bind_ok h
  obtain ⟨t, s₃, htok, hname⟩ := bind_ok hname
  cases htok
  obtain ⟨here', s₃, hspan, hname⟩ := bind_ok hname
  cases hspan
  rw [hs] at hname
  obtain ⟨_, s₄, _, hname⟩ := bind_ok hname
  cases hname
  obtain ⟨_, s₅, hcheck, h⟩ := bind_ok h
  unfold checkNotReserved at hcheck
  rw [if_pos hres] at hcheck
  cases hcheck

theorem parseTypedNames_reserved (hres : isReserved name = true) (hs : s.cur.1 = .ident name)
    (r : (List String × List (Option TypeAnnotation)) × Parser) : parseTypedNames turns s ≠ some (.ok r) := by
  intro h
  unfold parseTypedNames at h
  cases hturns : turns with
  | zero =>
    rw [hturns] at h
    cases h
  | succ n =>
    rw [hturns] at h
    obtain ⟨x, s₁, hturn, h⟩ := bind_ok h
    obtain ⟨t, s₂, htok, hturn⟩ := bind_ok hturn
    cases htok
    obtain ⟨here, s₂, hspan, hturn⟩ := bind_ok hturn
    cases hspan
    rw [hs] at hturn
    obtain ⟨_, s₃, hcheck, hturn⟩ := bind_ok hturn
    unfold checkNotReserved at hcheck
    rw [if_pos hres] at hcheck
    cases hcheck

def barAs (turns : Nat) (items : ClassItems) (isBinaryMethod : Bool) : Parse ClassItems :=
  if isBinaryMethod then do
    let here ← Parser.span
    let param ← parseParam turns "expected a parameter name"
    let method ← parseMethodRest turns ⟨"|", [param.1], [param.2]⟩ false here "expected '['" "expected ']'"
    Pure.pure (items.addMethod method)
  else do
    let names ← parseTypedNames turns
    expect .vBar "expected closing '|' after instance variables"
    Pure.pure { items with instVars := items.instVars ++ names.1, instVarTypes := items.instVarTypes ++ names.2 }

def barRest (turns : Nat) (items : ClassItems) (t : Tok) : Parse ClassItems :=
  if isIdent t then Parser.peek2 >>= fun next => barAs turns items (next == .lBracket) else barAs turns items false

theorem parseBarItem_eq (items : ClassItems) :
    parseBarItem turns items = Parser.bump >>= fun _ => Parser.tok >>= fun t => barRest turns items t := by
  rfl

theorem barAs_reserved (hres : isReserved name = true) {isBinaryMethod : Bool}
    (hs : s.cur.1 = .ident name) (r : ClassItems × Parser) : barAs turns items isBinaryMethod s ≠ some (.ok r) := by
  intro h
  unfold barAs at h
  split at h
  next =>
    obtain ⟨here, s₁, hspan, h⟩ := bind_ok h
    cases hspan
    obtain ⟨param, s₂, hparam, h⟩ := bind_ok h
    exact parseParam_reserved hres hs _ hparam
  next =>
    obtain ⟨names, s₁, hnames, h⟩ := bind_ok h
    exact parseTypedNames_reserved hres hs _ hnames

theorem barRest_reserved (hres : isReserved name = true)
    (hs : s.cur.1 = .ident name) (r : ClassItems × Parser) : barRest turns items (.ident name) s ≠ some (.ok r) := by
  intro h
  unfold barRest at h
  obtain ⟨next, s₁, hpeek, h⟩ := bind_ok h
  refine barAs_reserved hres ?_ _ h
  unfold Parser.peek2 at hpeek
  split at hpeek
  next =>
    cases hpeek
    exact hs
  next =>
    split at hpeek
    next => cases hpeek
    next =>
      cases hpeek
      exact hs

theorem startsClassDef_does (hnext : k.next = none) : L.J k startsClassDef startsClassDef fun a b k' =>
    a = b ∧ k'.Begins isIdent ∧ k'.moved = k.moved ∧ k'.depth = k.depth := by
  apply L.tok_bind
  intro t ht
  apply L.ite
  · intro hc
    have ht : t ≠ .eof := by
      rintro rfl
      cases hc
    apply L.peek_bind (k := k.withCur t) hnext ⟨t, rfl, ht⟩
    intro next
    exact L.pure ⟨rfl, .inr ⟨t, rfl, hc⟩, rfl, rfl⟩
  · intro _
    exact L.pure ⟨rfl, .inl hnext, rfl, rfl⟩

variable (hturns : L.total < turns')

include hturns

section

variable (hitems : SameItems items items')

include hitems

theorem parseLessItem_does (hcur : k.cur = some (.binarySel "<")) (hnext : k.next = none) :
    L.Does k (parseLessItem turns items) (parseLessItem turns' items') SameItems 1 := by
  apply L.peek_bind hnext ⟨_, hcur, by simp⟩
  intro next
  apply L.ite
  · intro _
    apply (L.parseMethod_does hturns (k := k.withNext next) (.inr ⟨_, hcur, rfl⟩)).bind
    intro method method' k₁ hmethod hk₁
    exact L.pure ⟨hitems.addMethod hmethod, hk₁.of_withNext⟩
  · intro _
    apply (L.parseClassPragma_does hturns (k := k.withNext next) hcur (by simp)).bind
    rintro pragma _ k₁ rfl hk₁
    exact L.pure ⟨hitems.addPragma pragma, hk₁.of_withNext⟩

variable {t : Tok}

theorem parseClassMethod_does {className ident : String} (hcur : k.cur = some t) (ht : t ≠ .eof) :
    L.Does k (parseClassMethod turns className items ident) (parseClassMethod turns' className items' ident) SameItems 1 := by
  apply L.span_bind
  intro mspan mspan' _
  apply L.bump_bind
  apply L.bump_bind
  have hin : k.Later 1 k.bumped.bumped := (Known.bumped_later hcur ht).step Known.bumped_later_zero
  refine L.ite_fail hin.next fun _ => ?_
  apply L.tok_span_bind
  intro t' _ here here'
  refine L.ite_fail hin.next fun _ => ?_
  apply L.bump_bind
  have hnext : k.Later 1 (k.bumped.bumped.withCur t').bumped := hin.step Known.bumped_later_zero.of_withCur
  apply (L.parseMethod_does hturns hnext.begins).bind
  intro method method' k₁ hmethod hk₁
  exact L.pure ⟨hitems.addMethod hmethod, hnext.step hk₁⟩

theorem barAs_does {isBinaryMethod : Bool} (hk : k.Begins isIdent)
    (hfree : ∀ name, (∀ c, k.cur = some c → .ident name = c) → k.lax = true ∨ k.next ≠ some .eof ∨ isReserved name = false) :
    L.Does k (barAs turns items isBinaryMethod) (barAs turns' items' isBinaryMethod) SameItems 0 := by
  apply L.ite
  · intro _
    apply L.span_bind
    intro here here' _
    apply (L.parseParam_does hturns hk).bind
    intro param param' k₁ hparam hk₁
    apply (L.parseMethodRest_does hturns (SamePattern.single hparam) hk₁.next).bind
    intro method method' k₂ hmethod hk₂
    exact L.pure ⟨hitems.addMethod hmethod, (hk₁.step hk₂).mono (Nat.zero_le 1)⟩
  · intro _
    apply (L.parseTypedNames_does hturns hfree hk).bind
    intro names names' k₁ hnames hk₁
    apply (L.expect_does hk₁.next (by simp)).bind
    rintro _ _ k₂ _ hk₂
    refine L.pure ⟨?_, (hk₁.step hk₂).mono (Nat.zero_le 0)⟩
    obtain ⟨hi, hv, ht, hc, hms⟩ := hitems
    refine ⟨hi, ?_, ?_, hc, hms⟩
    · simp only [hv, hnames.1]
    · simp only [stripTypes_append, ht, hnames.2]

theorem barRest_does (hnext : k.next = none)
    (hcur : k.cur = some t) (hfree : ∀ name, t = .ident name → k.lax = true ∨ isReserved name = false) :
    L.Does k (barRest turns items t) (barRest turns' items' t) SameItems 0 := by
  apply L.ite
  · intro hc
    have ht : t ≠ .eof := by
      rintro rfl
      cases hc
    apply L.peek_bind hnext ⟨t, hcur, ht⟩
    intro next
    refine L.mono (L.barAs_does hturns hitems (k := k.withNext next) (.inr ⟨t, hcur, hc⟩) ?_) ?_
    · intro name hname
      obtain h | h := hfree name (hname t hcur).symm
      · exact .inl h
      · exact .inr (.inr h)
    · intro a b k' hab
      exact ⟨hab.1, hab.2.of_withNext⟩
  · intro _
    exact L.barAs_does hturns hitems (.inl hnext) fun _ _ => .inr (.inl (Known.next_ne_eof hnext))

theorem parseBarItem_does (hcur : k.cur = some t)
    (ht : t ≠ .eof) : L.Does k (parseBarItem turns items) (parseBarItem turns' items') SameItems 1 := by
  rw [parseBarItem_eq, parseBarItem_eq]
  apply L.bump_bind
  have hin : k.Later 1 k.bumped := Known.bumped_later hcur ht
  apply L.tok_bind
  intro c _
  by_cases hres : ∃ name, c = .ident name ∧ isReserved name = true
  · obtain ⟨name, rfl, hres⟩ := hres
    -- neither reading takes a reserved word
    apply L.lax (k := k.bumped.withCur (.ident name)) (p := barRest turns items (.ident name)) hin.next rfl (by simp)
      (fun s hs r => barRest_reserved hres hs r)
    refine L.mono (L.barRest_does hturns hitems (k := { k.bumped.withCur (.ident name) with lax := true }) hin.next rfl
      fun _ _ => .inl rfl) ?_
    intro a b k' hab
    exact ⟨hab.1, hin.step ⟨hab.2.next, hab.2.moved, hab.2.depth⟩⟩
  · refine L.mono (L.barRest_does hturns hitems (k := k.bumped.withCur c) hin.next rfl ?_) ?_
    · intro name hc
      right
      rw [← Bool.not_eq_true]
      exact fun hname => hres ⟨name, hc, hname⟩
    · intro a b k' hab
      exact ⟨hab.1, hin.step hab.2.of_withCur⟩

theorem classItemsTurn_turn {className : String} (hnext : k.next = none) :
    L.J k (classItemsTurn turns className items) (classItemsTurn turns' className items') (Turn SameItems SameItems k) := by
  apply L.tok_span_bind
  intro t ht here here'
  have hfail : ∀ {msg : String}, L.J (k.withCur t) (Parser.fail here msg : Parse (ClassItems ⊕ ClassItems)) (Parser.fail here' msg)
      (Turn SameItems SameItems k) := L.fails hnext
  cases t with
  | rBracket => exact L.pure ⟨hitems, Known.Later.withCur hnext⟩
  | binarySel sel =>
    apply L.ite
    · intro hc
      have hsel := eq_of_beq hc
      subst hsel
      apply (L.parseLessItem_does hturns hitems (k := k.withCur (.binarySel "<")) rfl hnext).bind
      intro items items' k₁ hitems hk₁
      exact L.pure ⟨hitems, hk₁.of_withCur⟩
    · intro _
      apply (L.parseMethod_does hturns (k := k.withCur (.binarySel sel)) (.inl hnext)).bind
      intro method method' k₁ hmethod hk₁
      exact L.pure ⟨hitems.addMethod hmethod, hk₁.of_withCur⟩
  | vBar =>
    apply (L.parseBarItem_does hturns hitems (k := k.withCur .vBar) rfl (by simp)).bind
    intro items items' k₁ hitems hk₁
    exact L.pure ⟨hitems, hk₁.of_withCur⟩
  | ident ident =>
    apply L.peek_bind (k := k.withCur (.ident ident)) hnext ⟨_, rfl, by simp⟩
    intro next
    apply L.ite
    · intro _
      apply (L.parseClassMethod_does hturns hitems (k := (k.withCur (.ident ident)).withNext next) rfl (by simp)).bind
      intro items items' k₁ hitems hk₁
      exact L.pure ⟨hitems, hk₁.of_withNext.of_withCur⟩
    · intro _
      apply (L.parseMethod_does hturns (k := (k.withCur (.ident ident)).withNext next) (.inr ⟨_, rfl, rfl⟩)).bind
      intro method method' k₁ hmethod hk₁
      exact L.pure ⟨hitems.addMethod hmethod, hk₁.of_withNext.of_withCur⟩
  | keyword w =>
    apply (L.parseMethod_does hturns (k := k.withCur (.keyword w)) (.inl hnext)).bind
    intro method method' k₁ hmethod hk₁
    exact L.pure ⟨hitems.addMethod hmethod, hk₁.of_withCur⟩
  | _ => exact hfail

end

def SameNode (a b : ClassDefNode) : Prop := a.strip = b.strip

theorem parseClassDef_does (hk : k.Begins isIdent) :
    L.Does k (parseClassDef turns) (parseClassDef turns') SameNode 1 := by
  apply L.span_bind
  intro here here' _
  apply (L.expectIdent_does hk).bind
  rintro superclass _ k₁ rfl hk₁
  apply (L.expectKeyword_does hk₁.next).bind
  rintro _ _ k₂ _ hk₂
  apply (L.expectIdent_does hk₂.begins).bind
  rintro name _ k₃ rfl hk₃
  apply (L.expect_does hk₃.next (by simp)).bind
  rintro _ _ k₄ _ hk₄
  apply (L.loop (k := k₄) (I := SameItems) (R := SameItems) (fun _ _ k' hk' hab => L.classItemsTurn_turn hturns hab hk'.next)
    turns' turns k₄ _ _ (Known.Later.refl hk₄.next) ⟨rfl, rfl, rfl, rfl, rfl⟩ (by omega)).bind
  rintro items items' k₅ ⟨hi, hv, ht, hc, hms⟩ hk₅
  apply L.bump_bind
  have hlater : k.Later 1 k₅.bumped := ((((hk₁.step hk₂).step hk₃).step hk₄).step hk₅).step Known.bumped_later_zero
  refine L.pure ⟨?_, hlater⟩
  unfold SameNode ClassDefNode.strip
  simp only [hi, hv, ht, hc, hms]

end Classes

section Items

def SameTopItem (a b : TopItem) : Prop := a.strip = b.strip

theorem SameTopItem.classDef {node node' : ClassDefNode} (h : SameNode node node') :
    SameTopItem (.classDef node) (.classDef node') := by
  unfold SameTopItem SameNode at *
  simp only [TopItem.strip, h]

theorem SameTopItem.doIt {e e' : Expr} (h : SameExpr e e') : SameTopItem (.doIt e) (.doIt e') := by
  unfold SameTopItem SameExpr at *
  simp only [TopItem.strip, h]

variable (hturns : L.total < turns')

include hturns

theorem parseStatement_all (hk : k.Begins isIdent) :
    L.Does k (parseStatement (parseExpression turns)) (parseStatement (parseExpression turns')) SameExpr 1 := by
  have hleast : 0 ≤ k.moved := Nat.zero_le _
  exact L.parseStatement_does (fun _ hk' _ => L.parseExpression_does hturns hk') hk hleast

theorem tempChunkTurn_turn {body body' : List Expr} (hbody : SameExprs body body') (hnext : k.next = none) :
    L.J k (tempChunkTurn turns body) (tempChunkTurn turns' body') (Turn SameExprs SameExprs k) := by
  apply L.tok_bind
  intro t ht
  apply L.ite
  · intro _
    exact L.pure ⟨hbody, Known.Later.withCur hnext⟩
  · intro _
    apply (L.parseStatement_all hturns (k := k.withCur t) (.inl hnext)).bind
    intro stmt stmt' k₁ hstmt hk₁
    apply L.tok_bind
    intro t' _
    have hlater : k.Later 1 (k₁.withCur t') := hk₁.of_withCur.step (Known.Later.withCur hk₁.next)
    apply L.ite
    · intro _
      exact L.pure ⟨hbody.snoc hstmt, hlater⟩
    · intro _
      apply (L.expect_does (k := k₁.withCur t') hk₁.next (by simp)).bind
      rintro _ _ k₂ _ hk₂
      exact L.pure ⟨hbody.snoc hstmt, hlater.step hk₂⟩

theorem parseTempChunk_does (hnext : k.next = none) :
    L.Does k (parseTempChunk turns) (parseTempChunk turns') SameTopItem 0 := by
  apply L.span_bind
  intro here here' _
  apply (L.parseOptionalTemps_does hturns hnext).bind
  intro temps temps' k₁ htemps hk₁
  apply (L.loop (k := k₁) (I := SameExprs) (R := SameExprs) (fun _ _ k' hk' hab => L.tempChunkTurn_turn hturns hab hk'.next)
    turns' turns k₁ [] [] (Known.Later.refl hk₁.next) rfl (by omega)).bind
  intro body body' k₂ hbody hk₂
  refine L.pure ⟨?_, hk₁.step hk₂⟩
  apply SameTopItem.doIt
  have hnames := htemps.1
  unfold SameExpr SameExprs at *
  simp [hbody, hnames]

/-- Both an item or both none. -/
def SameAnswer (a b : Option TopItem) : Prop := a.map TopItem.strip = b.map TopItem.strip

theorem oneTopItem_does (hnext : k.next = none) :
    L.J k (oneTopItem turns) (oneTopItem turns') fun a b _ => SameAnswer a b := by
  have hsome : ∀ {a b : TopItem}, SameTopItem a b → SameAnswer (some a) (some b) := by
    intro a b h
    unfold SameAnswer
    unfold SameTopItem at h
    simp only [Option.map_some, h]
  apply L.tok_bind
  intro t ht
  apply L.ite
  · intro _
    exact L.pure rfl
  · intro _
    apply L.ite
    · intro _
      apply (L.parseTempChunk_does hturns (k := k.withCur t) hnext).bind
      intro item item' k₁ hitem _
      exact L.pure (hsome hitem)
    · intro _
      apply L.bind (L.startsClassDef_does (k := k.withCur t) hnext)
      rintro isClassDef _ k₁ ⟨rfl, hbegins, -, -⟩
      apply L.ite
      · intro _
        apply (L.parseClassDef_does hturns hbegins).bind
        intro node node' k₂ hnode _
        exact L.pure (hsome (.classDef hnode))
      · intro _
        apply (L.parseStatement_all hturns hbegins).bind
        intro stmt stmt' k₂ hstmt hk₂
        apply L.tok_bind
        intro t' _
        apply L.ite
        · intro _
          exact L.pure (hsome (.doIt hstmt))
        · intro _
          apply (L.expect_does (k := k₂.withCur t') hk₂.next (by simp)).bind
          rintro _ _ k₃ _ _
          exact L.pure (hsome (.doIt hstmt))

theorem topItemsTurn_turn {items items' : List TopItem} (hnext : k.next = none) :
    L.J k (topItemsTurn turns items) (topItemsTurn turns' items') (Turn (fun _ _ => True) (fun _ _ => True) k) := by
  apply L.tok_bind
  intro t ht
  apply L.ite
  · intro _
    exact L.pure ⟨trivial, Known.Later.withCur hnext⟩
  · intro _
    apply L.bind (L.startsClassDef_does (k := k.withCur t) hnext)
    rintro isClassDef _ k₁ ⟨rfl, hbegins, hmoved, hdepth⟩
    have hon {k₂ : Known} (h : k₁.Later 1 k₂) : k.Later 1 k₂ := ⟨h.next, hmoved ▸ h.moved, h.depth.trans hdepth⟩
    apply L.ite
    · intro _
      apply (L.parseClassDef_does hturns hbegins).bind
      intro node node' k₂ _ hk₂
      exact L.pure ⟨trivial, hon hk₂⟩
    · intro _
      apply (L.parseStatement_all hturns hbegins).bind
      intro stmt stmt' k₂ _ hk₂
      apply (L.expect_does hk₂.next (by simp)).bind
      rintro _ _ k₃ _ hk₃
      exact L.pure ⟨trivial, hon (hk₂.step (hk₃.mono (Nat.zero_le 1)))⟩

theorem topItems_does (turns : Nat) (hnext : k.next = none) :
    L.Does k (loop (topItemsTurn turns) turns []) (loop (topItemsTurn turns') turns' []) (fun _ _ => True) 0 :=
  L.loop (fun _ _ _ hk' _ => L.topItemsTurn_turn hturns hk'.next) turns' turns k [] [] (Known.Later.refl hnext) trivial
    (by omega)

end Items

end Rules

end Parser

end Frontend

end WinArmVm
