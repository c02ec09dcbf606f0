import WinArmVm.Scan
import WinArmVm.TypeGrammar
import Mathlib.Data.List.DropRight

namespace WinArmVm.Mst

open List

open Frontend (isWhitespace)
open WinArmVm.Types (CharClass isNameStart isNameCont)
open Scan (peek advance takeWhile lookahead attempt loop Progress Steady)

def skipWs : Scan Char Unit := do
  let _ ← takeWhile isWhitespace
  pure ()

def quotedTurn (q : Char) (text : List Char) : Scan Char (List Char ⊕ List Char) := do
  match ← advance with
  | none => pure (.inr text)
  | some c =>
    if c = q then
      if (← peek) = some q then do
        let _ ← advance
        pure (.inl (text ++ [q]))
      else pure (.inr text)
    else pure (.inl (text ++ [c]))

theorem quotedTurn_steady (q : Char) (text : List Char) : Steady (quotedTurn q text) := by
  refine .bind .advance fun c => ?_
  cases c with
  | none => exact .pure _
  | some c => exact .ite (.bind .peek fun _ => .ite (.bind .advance fun _ => .pure _) (.pure _)) (.pure _)

theorem quotedTurn_progress (q : Char) : Progress (quotedTurn q) := by
  refine Scan.progress_advance (fun text c => ?_) fun text => ⟨text, [], rfl⟩
  cases c with
  | none => exact .pure _
  | some c => exact .ite (.bind .peek fun _ => .ite (.bind .advance fun _ => .pure _) (.pure _)) (.pure _)

def quoted (q : Char) : Scan Char (List Char) := do
  let _ ← advance
  loop (quotedTurn q) (quotedTurn_progress q) []

theorem quoted_steady (q : Char) : Steady (quoted q) := .bind .advance fun _ => .loop _ (quotedTurn_steady q) _

def skipComment : Scan Char (List Char) := quoted '"'

def skipStringLiteral : Scan Char Unit := do
  let _ ← quoted '\''
  pure ()

theorem skipStringLiteral_steady : Steady skipStringLiteral := .bind (quoted_steady _) fun _ => .pure _

def triviaTurn (_ : Unit) : Scan Char (Unit ⊕ Unit) := do
  skipWs
  if (← peek) = some '"' then do
    let _ ← skipComment
    pure (.inl ())
  else pure (.inr ())

theorem skipWs_steady : Steady skipWs := .bind (.takeWhile _) fun _ => .pure _

theorem triviaTurn_steady (a : Unit) : Steady (triviaTurn a) :=
  .bind skipWs_steady fun _ => .bind .peek fun _ => .ite (.bind (quoted_steady _) fun _ => .pure _) (.pure _)

theorem quoted_eats (q : Char) : Scan.Eats (quoted q) :=
  .bind .advance fun _ => (Steady.loop (quotedTurn_progress q) (quotedTurn_steady q) []).suffix

theorem triviaTurn_progress : Progress triviaTurn := by
  intro a a' s s' h
  have hle := (skipWs_steady.suffix s).length_le
  unfold triviaTurn at h
  rw [Scan.bind_apply, Scan.bind_apply] at h
  split at h
  next hq =>
    have hr : (quoted '"' (skipWs s).2).2 = s' := congrArg Prod.snd h
    cases hw : (skipWs s).2 with
    | nil =>
      have hq : (skipWs s).2.head? = some '"' := hq
      rw [hw] at hq
      cases hq
    | cons c cs =>
      have hlt := (quoted_eats '"' c cs).length_le
      rw [hw] at hr hle
      rw [hr] at hlt
      rw [length_cons] at hle
      omega
  next => cases h

def skipWsAndComments : Scan Char Unit := loop triviaTurn triviaTurn_progress ()

theorem skipWsAndComments_steady : Steady skipWsAndComments := .loop _ triviaTurn_steady _

section

variable (u : CharClass)

def readIdentifier : Scan Char (Option (List Char)) := do
  skipWsAndComments
  match ← peek with
  | some c =>
    if isNameStart u c then do
      let name ← takeWhile (isNameCont u)
      pure (some name)
    else pure none
  | none => pure none

theorem readIdentifier_steady : Steady (readIdentifier u) := by
  refine .bind skipWsAndComments_steady fun _ => .bind .peek fun c => ?_
  cases c with
  | none => exact .pure _
  | some c => exact .ite (.bind (.takeWhile _) fun _ => .pure _) (.pure _)

theorem readIdentifier_nil {s : List Char} (hw : (skipWsAndComments s).2 = []) : readIdentifier u s = (none, []) := by
  unfold readIdentifier
  rw [Scan.bind_apply, hw]
  rfl

variable {s r superclass name : List Char} {c : Char}

theorem readIdentifier_cons {s cs : List Char} (hw : (skipWsAndComments s).2 = c :: cs) :
    readIdentifier u s = if isNameStart u c then
      (some ((c :: cs).takeWhile (isNameCont u)), (c :: cs).dropWhile (isNameCont u)) else (none, c :: cs) := by
  unfold readIdentifier
  rw [Scan.bind_apply, hw]
  show (if isNameStart u c = true then _ else _ : Scan Char (Option (List Char))) (c :: cs) = _
  split
  next => rfl
  next => rfl

theorem readIdentifier_shorter {s s' name : List Char} (h : readIdentifier u s = (some name, s')) :
    s'.length < s.length := by
  have hle := (skipWsAndComments_steady.suffix s).length_le
  cases hw : (skipWsAndComments s).2 with
  | nil =>
    rw [readIdentifier_nil u hw] at h
    cases h
  | cons c cs =>
    rw [readIdentifier_cons u hw] at h
    split at h
    next hstart =>
      have hr := congrArg Prod.snd h
      rw [dropWhile_cons_of_pos (Types.isNameStart_cont hstart)] at hr
      have hr : cs.dropWhile (isNameCont u) = s' := hr
      have hsuf := (dropWhile_suffix (isNameCont u) (l := cs)).length_le
      rw [hw, length_cons] at hle
      rw [hr] at hsuf
      exact Nat.lt_of_le_of_lt hsuf hle
    next => cases h

def eatStr (lit : List Char) : Scan Char Bool := do
  skipWsAndComments
  Scan.eat lit

def isBinaryChar (c : Char) : Bool :=
  c ∈ ['+', '-', '*', '/', '~', '<', '>', '=', '&', '|', '@', '%', ',', '?', '!', '\\']

def angleTurn (depth : Nat) : Scan Char (Nat ⊕ Unit) := do
  match ← advance with
  | none => pure (.inr ())
  | some c =>
    if c = '<' then pure (.inl (depth + 1))
    else if c = '>' then
      if depth = 1 then pure (.inr ()) else pure (.inl (depth - 1))
    else pure (.inl depth)

variable (className : List Char) (depth : Nat)

theorem angleTurn_rest_steady (c : Option Char) : Steady (match c with
    | none => pure (.inr ())
    | some c =>
      if c = '<' then pure (.inl (depth + 1))
      else if c = '>' then
        if depth = 1 then pure (.inr ()) else pure (.inl (depth - 1))
      else pure (.inl depth) : Scan Char (Nat ⊕ Unit)) := by
  cases c with
  | none => exact .pure _
  | some c => exact .ite (.pure _) (.ite (.ite (.pure _) (.pure _)) (.pure _))

theorem angleTurn_progress : Progress angleTurn := Scan.progress_advance angleTurn_rest_steady fun _ => ⟨(), [], rfl⟩

def skipOptionalTypeAnnotation : Scan Char Unit := do
  skipWsAndComments
  if (← peek) = some '<' then do
    let _ ← advance
    loop angleTurn angleTurn_progress 1
  else pure ()

theorem skipOptionalTypeAnnotation_steady : Steady skipOptionalTypeAnnotation :=
  .bind skipWsAndComments_steady fun _ => .bind .peek fun _ =>
    .ite (.bind .advance fun _ => .loop _ (fun a => .bind .advance (angleTurn_rest_steady a)) _) (.pure _)

def skipOptionalReturnTypeAnnotation : Scan Char Unit := do
  skipWsAndComments
  if (← peek) = some '^' then do
    let _ ← advance
    skipOptionalTypeAnnotation
  else pure ()

theorem skipOptionalReturnTypeAnnotation_steady : Steady skipOptionalReturnTypeAnnotation :=
  .bind skipWsAndComments_steady fun _ => .bind .peek fun _ =>
    .ite (.bind .advance fun _ => skipOptionalTypeAnnotation_steady) (.pure _)

def nextPart : Scan Char (Option (List Char)) := do
  match ← readIdentifier u with
  | none => pure none
  | some name => do
    skipWsAndComments
    if (← peek) = some ':' then pure (some name) else pure none

def partTurn (r : List Char × List Char) : Scan Char ((List Char × List Char) ⊕ List Char) := do
  let _ ← advance
  let _ ← readIdentifier u
  skipOptionalTypeAnnotation
  skipWsAndComments
  match ← attempt (nextPart u) with
  | some part => pure (.inl (r.1 ++ r.2 ++ [':'], part))
  | none => pure (.inr (r.1 ++ r.2 ++ [':']))

theorem nextPart_steady : Steady (nextPart u) := by
  refine .bind (readIdentifier_steady u) fun name => ?_
  cases name with
  | none => exact .pure _
  | some name => exact .bind skipWsAndComments_steady fun _ => .bind .peek fun _ => .ite (.pure _) (.pure _)

theorem partTurn_trims (r : List Char × List Char) : Scan.Trims (do
    let _ ← readIdentifier u
    skipOptionalTypeAnnotation
    skipWsAndComments
    match ← attempt (nextPart u) with
    | some part => pure (.inl (r.1 ++ r.2 ++ [':'], part))
    | none => pure (.inr (r.1 ++ r.2 ++ [':'])) : Scan Char ((List Char × List Char) ⊕ List Char)) := by
  refine .bind (readIdentifier_steady u).suffix fun _ => .bind skipOptionalTypeAnnotation_steady.suffix fun _ =>
    .bind skipWsAndComments_steady.suffix fun _ => .bind (.attempt (nextPart_steady u).suffix) fun part => ?_
  cases part with
  | none => exact (Steady.pure _).suffix
  | some part => exact (Steady.pure _).suffix

theorem skipWsAndComments_nil : skipWsAndComments [] = ((), []) := by
  apply Scan.loop_done
  rfl

theorem skipOptionalTypeAnnotation_nil : skipOptionalTypeAnnotation [] = ((), []) := by
  unfold skipOptionalTypeAnnotation
  rw [Scan.bind_apply, skipWsAndComments_nil]
  rfl

theorem partTurn_progress : Progress (partTurn u) := by
  intro r r' s s' h
  cases s with
  | nil =>
    have hname : readIdentifier u [] = (none, []) := readIdentifier_nil u (congrArg Prod.snd skipWsAndComments_nil)
    have hpart : nextPart u [] = (none, []) := by
      unfold nextPart
      rw [Scan.bind_apply, hname]
      rfl
    have hturn : partTurn u r [] = (.inr (r.1 ++ r.2 ++ [':']), []) := by
      unfold partTurn
      simp only [Scan.bind_apply, Scan.advance, tail_nil, hname, skipOptionalTypeAnnotation_nil, skipWsAndComments_nil]
      unfold attempt
      rw [hpart]
      rfl
    cases hturn.symm.trans h
  | cons c cs =>
    have hle := partTurn_trims u r cs
    have hr : (partTurn u r (c :: cs)).2 = s' := congrArg Prod.snd h
    have hle : s' <:+ cs := by
      rw [← hr]
      exact hle
    exact Nat.lt_succ_of_le hle.length_le

/-- A selector with what follows it in the pattern; none at the end of a class body. -/
def readSelector : Scan Char (Option (List Char)) := do
  skipWsAndComments
  let sel : Option (List Char) ← (do
    match ← peek with
    | none => pure none
    | some c =>
      if c = ']' then pure none
      else if isBinaryChar c then do
        let sel ← takeWhile isBinaryChar
        let _ ← readIdentifier u
        skipOptionalTypeAnnotation
        pure (some sel)
      else do
        match ← readIdentifier u with
        | none => pure none
        | some first => do
          skipWsAndComments
          if (← peek) = some ':' then do
            let sel ← loop (partTurn u) (partTurn_progress u) ([], first)
            pure (some sel)
          else pure (some first))
  match sel with
  | none => pure none
  | some sel => do
    skipOptionalReturnTypeAnnotation
    pure (some sel)

def bodyTurn (depth : Nat) : Scan Char (Nat ⊕ Unit) := do
  match ← peek with
  | none => pure (.inr ())
  | some c =>
    if c = '[' then do
      let _ ← advance
      pure (.inl (depth + 1))
    else if c = ']' then do
      let _ ← advance
      if depth = 1 then pure (.inr ()) else pure (.inl (depth - 1))
    else if c = '$' then do
      let _ ← advance
      let _ ← advance
      pure (.inl depth)
    else if c = '"' then do
      let _ ← skipComment
      pure (.inl depth)
    else if c = '\'' then do
      skipStringLiteral
      pure (.inl depth)
    else do
      let _ ← advance
      pure (.inl depth)

theorem bodyTurn_steady : Steady (bodyTurn depth) := by
  refine .bind .peek fun c => ?_
  cases c with
  | none => exact .pure _
  | some c =>
    exact .ite (.bind .advance fun _ => .pure _) (.ite (.bind .advance fun _ => .ite (.pure _) (.pure _))
      (.ite (.bind .advance fun _ => .bind .advance fun _ => .pure _) (.ite (.bind (quoted_steady _) fun _ => .pure _)
        (.ite (.bind skipStringLiteral_steady fun _ => .pure _) (.bind .advance fun _ => .pure _)))))

theorem bodyTurn_progress : Progress bodyTurn := by
  refine Scan.progress_peek (fun _ c => ?_) fun _ => ⟨(), [], rfl⟩
  have hquoted (q : Char) (a : Nat) : Scan.Eats (quoted q >>= fun _ => (pure (.inl a) : Scan Char (Nat ⊕ Unit))) :=
    .bind (quoted_eats q) fun _ => (Steady.pure _).suffix
  exact .ite (.bind .advance fun _ => (Steady.pure _).suffix)
    (.ite (.bind .advance fun _ => .ite (Steady.pure _).suffix (Steady.pure _).suffix)
      (.ite (.bind .advance fun _ => .bind Steady.advance.suffix fun _ => (Steady.pure _).suffix)
        (.ite (hquoted _ _) (.ite (hquoted _ _) (.bind .advance fun _ => (Steady.pure _).suffix)))))

def readBracketedBody : Scan Char Bool := do
  skipWsAndComments
  if (← peek) = some '[' then do
    let _ ← advance
    loop bodyTurn bodyTurn_progress 1
    pure true
  else pure false

def peekIsClassPragma : Scan Char Bool := lookahead do
  let _ ← advance
  match ← readIdentifier u with
  | none => pure false
  | some _ => do
    skipWsAndComments
    pure ((← peek) = some ':')

def readAnglePragma : Scan Char (List Char) := do
  let _ ← advance
  let inner ← takeWhile (· ≠ '>')
  let _ ← advance
  pure inner

def ivarTurn (vars : List (List Char)) : Scan Char (List (List Char) ⊕ Option (List Char)) := do
  skipWsAndComments
  if (← peek) = some '|' then do
    let _ ← advance
    pure (.inr (some ([' '].intercalate vars)))
  else
    match ← readIdentifier u with
    | some v => do
      skipOptionalTypeAnnotation
      pure (.inl (vars ++ [v]))
    | none => pure (.inr none)

theorem ivarTurn_steady (vars : List (List Char)) : Steady (ivarTurn u vars) := by
  refine .bind skipWsAndComments_steady fun _ => .bind .peek fun _ => .ite (.bind .advance fun _ => .pure _)
    (.bind (readIdentifier_steady u) fun v => ?_)
  cases v with
  | none => exact .pure _
  | some v => exact .bind skipOptionalTypeAnnotation_steady fun _ => .pure _

theorem ivarTurn_progress : Progress (ivarTurn u) := by
  intro vars vars' s s' h
  have hle := (skipWsAndComments_steady.suffix s).length_le
  unfold ivarTurn at h
  rw [Scan.bind_apply] at h
  generalize (skipWsAndComments s).2 = w at h hle
  rw [Scan.bind_apply] at h
  split at h
  next => cases h
  next =>
    rw [Scan.bind_apply] at h
    cases hn : readIdentifier u w with
    | mk v s₁ =>
      have hw : (peek w).2 = w := rfl
      rw [hw, hn] at h
      cases v with
      | none => cases h
      | some v =>
        have hlt := readIdentifier_shorter u hn
        have hr : ( skipOptionalTypeAnnotation s₁).2 = s' := congrArg Prod.snd h
        have hsuf := (skipOptionalTypeAnnotation_steady.suffix s₁).length_le
        rw [hr] at hsuf
        omega

def tryReadIvarList : Scan Char (Option (List Char)) := attempt do
  let _ ← advance
  loop (ivarTurn u) (ivarTurn_progress u) []

/-- The class-side prefix of a method. The name is read again where there is none. -/
def classSide (className : List Char) : Scan Char (Option Unit) := attempt do
  match ← readIdentifier u with
  | none => pure none
  | some name =>
    if name = className then do
      if ← eatStr ['c', 'l', 'a', 's', 's'] then do
        if ← eatStr ['>', '>'] then pure (some ())
        else pure none
      else pure none
    else pure none

structure ParsedMethod where
  selector : List Char
  isClassSide : Bool
  source : List Char
deriving DecidableEq, Repr

structure ParsedClass where
  name : List Char
  superclass : Option (List Char)
  instanceVars : List Char
  classVars : List Char
  comment : List Char
  methods : List ParsedMethod
deriving DecidableEq, Repr

def trimEnd (s : List Char) : List Char := s.rdropWhile isWhitespace

def trim (s : List Char) : List Char := trimEnd (s.dropWhile isWhitespace)

def spaced (s : List Char) : List Char := [' '].intercalate ((s.splitOnP isWhitespace).filter (· ≠ []))

def readPattern (className : List Char) : Scan Char (Option (Bool × List Char)) := do
  let isClassSide ← classSide u className
  match ← readSelector u with
  | none => pure none
  | some selector => do
    if ← readBracketedBody then pure (some (isClassSide.isSome, selector))
    else pure none

def readMethod (className : List Char) : Scan Char (Option ParsedMethod) := fun s =>
  match readPattern u className s with
  | (some (isClassSide, selector), rest) =>
    (some ⟨selector, isClassSide, trim (s.take (s.length - rest.length))⟩, rest)
  | (none, rest) => (none, rest)

/-- What stands next in a class body: its end, an instance-variable list, a pragma, a method, or
nothing a class body has. -/
inductive Item
  | ended
  | vars (names : List Char)
  | pragma (inner : List Char)
  | method (m : ParsedMethod)
  | stuck

def readItem (className : List Char) : Scan Char Item := do
  match ← peek with
  | none => pure .stuck
  | some c =>
    if c = ']' then do
      let _ ← advance
      pure .ended
    else do
      let vars ← Scan.given (c = '|') (tryReadIvarList u) none
      match vars with
      | some names => pure (.vars names)
      | none => do
        let isPragma ← Scan.given (c = '<') (peekIsClassPragma u) false
        if isPragma then do
          let inner ← readAnglePragma
          pure (.pragma inner)
        else
          match ← readMethod u className with
          | some m => pure (.method m)
          | none => pure .stuck

structure ClassBody where
  instanceVars : List Char
  classVars : List Char
  methods : List ParsedMethod

def ClassBody.empty : ClassBody := ⟨[], [], []⟩

def ClassBody.add (b : ClassBody) : Item → ClassBody ⊕ ClassBody
  | .ended => .inr b
  | .vars names => .inl { b with instanceVars := names }
  | .pragma inner =>
    match (trim inner).dropPrefix? "classVars:".toList with
    | some rest => .inl { b with classVars := spaced rest }
    | none => .inl b
  | .method m => .inl { b with methods := b.methods ++ [m] }
  | .stuck => .inr b

def itemTurn (className : List Char) (b : ClassBody) : Scan Char (ClassBody ⊕ ClassBody) := do
  skipWsAndComments
  let item ← readItem u className
  pure (b.add item)

variable {u}

theorem readItem_cases {className : List Char} {cs r : List Char} {item : Item}
    (h : readItem u className (c :: cs) = (item, r)) :
    (c = ']' ∧ item = .ended ∧ r = cs) ∨
    (∃ names, c = '|' ∧ tryReadIvarList u (c :: cs) = (some names, r) ∧ item = .vars names) ∨
    (∃ inner, c = '<' ∧ (peekIsClassPragma u (c :: cs)).1 = true ∧ readAnglePragma (c :: cs) = (inner, r) ∧
      item = .pragma inner) ∨
    (c ≠ ']' ∧ (c = '|' → (tryReadIvarList u (c :: cs)).1 = none) ∧
      (c = '<' → (peekIsClassPragma u (c :: cs)).1 = false) ∧
      ((∃ m, readMethod u className (c :: cs) = (some m, r) ∧ item = .method m) ∨
        readMethod u className (c :: cs) = (none, r) ∧ item = .stuck)) := by
  unfold readItem at h
  rw [Scan.bind_apply] at h
  have hpeek : (peek : Scan Char _) (c :: cs) = (some c, c :: cs) := rfl
  rw [hpeek] at h
  by_cases hend : c = ']'
  · left
    dsimp only at h
    rw [if_pos hend] at h
    obtain ⟨hi, hr⟩ := Prod.mk.inj h
    exact ⟨hend, hi.symm, hr.symm⟩
  right
  dsimp only at h
  rw [if_neg hend, Scan.bind_apply] at h
  have hvars : ∃ v w, Scan.given (c = '|') (tryReadIvarList u) none (c :: cs) = (v, w) ∧
      (v = none → w = c :: cs ∧ (c = '|' → (tryReadIvarList u (c :: cs)).1 = none)) ∧
      ∀ names, v = some names → c = '|' ∧ tryReadIvarList u (c :: cs) = (some names, w) := by
    unfold Scan.given
    by_cases hbar : c = '|'
    · rw [if_pos hbar]
      exact ⟨_, _, rfl, fun hv => ⟨Scan.attempt_none hv, fun _ => hv⟩, fun names hv => ⟨hbar, Prod.ext hv rfl⟩⟩
    · rw [if_neg hbar]
      exact ⟨none, c :: cs, rfl, fun _ => ⟨rfl, fun hc => absurd hc hbar⟩, fun _ hv => nomatch hv⟩
  obtain ⟨v, w, hv, hnone, hsome⟩ := hvars
  rw [hv] at h
  cases v with
  | some names =>
    left
    obtain ⟨hbar, hlist⟩ := hsome names rfl
    obtain ⟨hi, hr⟩ := Prod.mk.inj h
    exact ⟨names, hbar, by rw [hlist, ← hr], hi.symm⟩
  | none =>
    right
    obtain ⟨rfl, hbar⟩ := hnone rfl
    dsimp only at h
    rw [Scan.bind_apply] at h
    have hpragma : ∃ p, Scan.given (c = '<') (peekIsClassPragma u) false (c :: cs) = (p, c :: cs) ∧
        (p = true → c = '<' ∧ (peekIsClassPragma u (c :: cs)).1 = true) ∧
        (p = false → c = '<' → (peekIsClassPragma u (c :: cs)).1 = false) := by
      unfold Scan.given
      by_cases hlt : c = '<'
      · rw [if_pos hlt]
        exact ⟨_, rfl, fun hp => ⟨hlt, hp⟩, fun hp _ => hp⟩
      · rw [if_neg hlt]
        exact ⟨false, rfl, fun hp => (nomatch hp), fun _ hc => absurd hc hlt⟩
    obtain ⟨p, hp, htrue, hfalse⟩ := hpragma
    rw [hp] at h
    cases p with
    | true =>
      left
      obtain ⟨hlt, hclass⟩ := htrue rfl
      obtain ⟨hi, hr⟩ := Prod.mk.inj h
      exact ⟨_, hlt, hclass, Prod.ext rfl hr, hi.symm⟩
    | false =>
      right
      refine ⟨hend, hbar, hfalse rfl, ?_⟩
      rw [if_neg Bool.false_ne_true, Scan.bind_apply] at h
      cases hm : readMethod u className (c :: cs) with
      | mk m w =>
        rw [hm] at h
        cases m with
        | some m =>
          obtain ⟨hi, hr⟩ := Prod.mk.inj h
          exact .inl ⟨m, by rw [← hr], hi.symm⟩
        | none =>
          obtain ⟨hi, hr⟩ := Prod.mk.inj h
          exact .inr ⟨by rw [← hr], hi.symm⟩

theorem partLoop_trims (r : List Char × List Char) : Scan.Trims (loop (partTurn u) (partTurn_progress u) r) :=
  .loop _ (fun r => .bind Steady.advance.suffix fun _ => partTurn_trims u r) r

theorem readSelector_trims : Scan.Trims (readSelector u) := by
  refine .bind skipWsAndComments_steady.suffix fun _ => .bind (.bind Steady.peek.suffix fun c => ?_) fun sel => ?_
  · cases c with
    | none => exact (Steady.pure _).suffix
    | some c =>
      refine .ite (Steady.pure _).suffix (.ite (.bind (Steady.takeWhile _).suffix fun _ =>
        .bind (readIdentifier_steady u).suffix fun _ => .bind skipOptionalTypeAnnotation_steady.suffix fun _ =>
          (Steady.pure _).suffix) (.bind (readIdentifier_steady u).suffix fun first => ?_))
      cases first with
      | none => exact (Steady.pure _).suffix
      | some first =>
        exact .bind skipWsAndComments_steady.suffix fun _ => .bind Steady.peek.suffix fun _ =>
          .ite (.bind (partLoop_trims _) fun _ => (Steady.pure _).suffix) (Steady.pure _).suffix
  · cases sel with
    | none => exact (Steady.pure _).suffix
    | some sel => exact .bind skipOptionalReturnTypeAnnotation_steady.suffix fun _ => (Steady.pure _).suffix

theorem readBracketedBody_cases {s r : List Char} (h : readBracketedBody s = (true, r)) :
    ∃ cs, (skipWsAndComments s).2 = '[' :: cs ∧ r = (loop bodyTurn bodyTurn_progress 1 cs).2 := by
  unfold readBracketedBody at h
  rw [Scan.bind_apply] at h
  cases hw : (skipWsAndComments s).2 with
  | nil =>
    rw [hw] at h
    cases h
  | cons c cs =>
    rw [hw, Scan.bind_apply] at h
    have hpeek : (peek : Scan Char _) (c :: cs) = (some c, c :: cs) := rfl
    rw [hpeek] at h
    by_cases hc : c = '['
    · rw [if_pos (congrArg some hc)] at h
      have hr : (loop bodyTurn bodyTurn_progress 1 cs).2 = r := congrArg Prod.snd h
      exact ⟨cs, by rw [hc], hr.symm⟩
    · rw [if_neg fun he => hc (Option.some.inj he)] at h
      cases h

theorem readPattern_cases {className s r selector : List Char} {isClassSide : Bool}
    (h : readPattern u className s = (some (isClassSide, selector), r)) :
    ∃ side s₁ s₂, classSide u className s = (side, s₁) ∧ isClassSide = side.isSome ∧
      readSelector u s₁ = (some selector, s₂) ∧ readBracketedBody s₂ = (true, r) := by
  unfold readPattern at h
  rw [Scan.bind_apply, Scan.bind_apply] at h
  cases hsel : readSelector u (classSide u className s).2 with
  | mk sel s₂ =>
    rw [hsel] at h
    cases sel with
    | none => cases h
    | some sel =>
      dsimp only at h
      rw [Scan.bind_apply] at h
      cases hb : readBracketedBody s₂ with
      | mk b s₃ =>
        rw [hb] at h
        cases b with
        | false => cases h
        | true =>
          obtain ⟨he, hr⟩ := Prod.mk.inj h
          obtain ⟨h₁, h₂⟩ := Prod.mk.inj (Option.some.inj he)
          have hr : s₃ = r := hr
          exact ⟨(classSide u className s).1, (classSide u className s).2, s₂, rfl, h₁.symm, by rw [hsel, h₂],
            by rw [hb, hr]⟩

theorem eatStr_trims (lit : List Char) : Scan.Trims (eatStr lit) :=
  .bind skipWsAndComments_steady.suffix fun _ => Scan.trims_eat lit

theorem classSide_trims : Scan.Trims (classSide u className) := by
  refine .attempt (.bind (readIdentifier_steady u).suffix fun name => ?_)
  cases name with
  | none => exact (Steady.pure _).suffix
  | some name =>
    exact .ite (.bind (eatStr_trims _) fun _ => .ite (.bind (eatStr_trims _) fun _ =>
      .ite (Steady.pure _).suffix (Steady.pure _).suffix) (Steady.pure _).suffix) (Steady.pure _).suffix

theorem bodyLoop_steady : Steady (loop bodyTurn bodyTurn_progress depth) := .loop _ bodyTurn_steady _

theorem readMethod_shorter {className s r : List Char} {m : ParsedMethod}
    (h : readMethod u className s = (some m, r)) : r.length < s.length ∧ r <:+ s := by
  unfold readMethod at h
  split at h
  next isClassSide selector rest hp =>
    have hr : rest = r := congrArg Prod.snd h
    subst hr
    obtain ⟨side, s₁, s₂, h₁, _, h₂, h₃⟩ := readPattern_cases hp
    obtain ⟨cs, hcs, rfl⟩ := readBracketedBody_cases h₃
    have hs₁ := classSide_trims (u := u) className s
    have hs₂ := readSelector_trims (u := u) s₁
    have hs₃ := skipWsAndComments_steady.suffix s₂
    have hs₄ := (bodyLoop_steady 1).suffix cs
    rw [h₁] at hs₁
    rw [h₂] at hs₂
    rw [hcs] at hs₃
    have hall := (hs₃.trans hs₂).trans hs₁
    refine ⟨Nat.lt_of_le_of_lt hs₄.length_le ?_, (hs₄.trans (suffix_cons _ _)).trans hall⟩
    have := hall.length_le
    rw [length_cons] at this
    omega
  next => cases h

theorem readAnglePragma_eats : Scan.Eats readAnglePragma :=
  .bind .advance fun _ => .bind (Steady.takeWhile _).suffix fun _ => .bind Steady.advance.suffix fun _ =>
    (Steady.pure _).suffix

theorem ivarList_eats {cs r names : List Char} (h : tryReadIvarList u (c :: cs) = (some names, r)) : r <:+ cs := by
  have h := Scan.attempt_some h
  have hsuf := (Steady.loop (ivarTurn_progress u) (ivarTurn_steady u) []).suffix cs
  have hr : (loop (ivarTurn u) (ivarTurn_progress u) [] cs).2 = r := congrArg Prod.snd h
  rwa [hr] at hsuf

theorem itemTurn_progress : Progress (itemTurn u className) := by
  intro b b' s s' h
  have hle := (skipWsAndComments_steady.suffix s).length_le
  unfold itemTurn at h
  rw [Scan.bind_apply, Scan.bind_apply] at h
  generalize (skipWsAndComments s).2 = w at h hle
  cases hi : readItem u className w with
  | mk item r =>
    rw [hi] at h
    obtain ⟨hadd, hr⟩ := Prod.mk.inj h
    have hr : r = s' := hr
    subst hr
    refine Nat.lt_of_lt_of_le ?_ hle
    cases w with
    | nil =>
      have hstuck : item = .stuck := (congrArg Prod.fst hi).symm
      subst hstuck
      cases hadd
    | cons c cs =>
      rcases readItem_cases hi with ⟨_, rfl, _⟩ | ⟨names, _, hv, _⟩ | ⟨inner, _, _, hp, _⟩ |
        ⟨_, _, _, ⟨m, hm, _⟩ | ⟨_, rfl⟩⟩
      · cases hadd
      · exact Nat.lt_succ_of_le (ivarList_eats hv).length_le
      · have hsuf := (readAnglePragma_eats c cs).length_le
        rw [hp] at hsuf
        exact Nat.lt_succ_of_le hsuf
      · exact (readMethod_shorter hm).1
      · cases hadd

def readBody (className : List Char) : Scan Char ClassBody :=
  loop (itemTurn u className) (itemTurn_progress className) .empty

theorem readMethod_trims : Scan.Trims (readMethod u className) := by
  intro s
  have hpattern : Scan.Trims (readPattern u className) := by
    refine .bind (classSide_trims className) fun side => .bind readSelector_trims fun sel => ?_
    cases sel with
    | none => exact (Steady.pure _).suffix
    | some sel =>
      exact .bind (.bind skipWsAndComments_steady.suffix fun _ => .bind Steady.peek.suffix fun _ =>
        .ite (.bind Steady.advance.suffix fun _ => .bind (bodyLoop_steady 1).suffix fun _ => (Steady.pure _).suffix)
          (Steady.pure _).suffix) fun _ => .ite (Steady.pure _).suffix (Steady.pure _).suffix
  have h := hpattern s
  unfold readMethod
  split
  next _ _ rest hs =>
    rw [hs] at h
    exact h
  next rest hs =>
    rw [hs] at h
    exact h

theorem readItem_trims : Scan.Trims (readItem u className) := by
  refine .bind Steady.peek.suffix fun c => ?_
  cases c with
  | none => exact (Steady.pure _).suffix
  | some c =>
    refine .ite (.bind Steady.advance.suffix fun _ => (Steady.pure _).suffix) (.bind (.given (.attempt
      (.bind Steady.advance.suffix fun _ => (Steady.loop _ (ivarTurn_steady u) _).suffix)) _) fun vars => ?_)
    cases vars with
    | some names => exact (Steady.pure _).suffix
    | none =>
      refine .bind (.given (.lookahead _) _) fun _ => .ite (.bind (.bind Steady.advance.suffix fun _ =>
        .bind (Steady.takeWhile _).suffix fun _ => .bind Steady.advance.suffix fun _ => (Steady.pure _).suffix)
          fun _ => (Steady.pure _).suffix) (.bind (readMethod_trims className) fun m => ?_)
      cases m with
      | some m => exact (Steady.pure _).suffix
      | none => exact (Steady.pure _).suffix

theorem readBody_trims : Scan.Trims (readBody (u := u) className) :=
  .loop _ (fun _ => .bind skipWsAndComments_steady.suffix fun _ => .bind (readItem_trims className) fun _ =>
    (Steady.pure _).suffix) _

def classRest (u : CharClass) (superclass : List Char) : Scan Char (Option (List Char × List Char)) := do
  if ← eatStr "subclass:".toList then do
    match ← readIdentifier u with
    | none => pure none
    | some name => do
      skipWsAndComments
      if (← peek) = some '[' then do
        let _ ← advance
        pure (some (superclass, name))
      else pure none
  else pure none

def classHead (u : CharClass) : Scan Char (Option (List Char × List Char)) := do
  match ← readIdentifier u with
  | none => pure none
  | some superclass => classRest u superclass

theorem classRest_trims (superclass : List Char) : Scan.Trims (classRest u superclass) := by
  refine .bind (eatStr_trims _) fun _ => .ite (.bind (readIdentifier_steady u).suffix fun name => ?_)
    (Steady.pure _).suffix
  cases name with
  | none => exact (Steady.pure _).suffix
  | some name =>
    exact .bind skipWsAndComments_steady.suffix fun _ => .bind Steady.peek.suffix fun _ =>
      .ite (.bind Steady.advance.suffix fun _ => (Steady.pure _).suffix) (Steady.pure _).suffix

theorem classHead_cases (h : classHead u s = (some (superclass, name), r)) :
    ∃ first s₁, readIdentifier u s = (some first, s₁) ∧ classRest u first s₁ = (some (superclass, name), r) := by
  unfold classHead at h
  rw [Scan.bind_apply] at h
  cases hn : readIdentifier u s with
  | mk first s₁ =>
    rw [hn] at h
    cases first with
    | none => cases h
    | some first => exact ⟨first, s₁, rfl, h⟩

theorem classHead_shorter (h : classHead u s = (some (superclass, name), r)) : r.length < s.length := by
  obtain ⟨first, s₁, hn, hrest⟩ := classHead_cases h
  have hle := (classRest_trims (u := u) first s₁).length_le
  rw [hrest] at hle
  exact Nat.lt_of_le_of_lt hle (readIdentifier_shorter u hn)

/-- What the reader of a file has: the comment nearest before the next class, and the classes. -/
structure FileSoFar where
  pendingComment : Option (List Char)
  classes : List ParsedClass

def parsedClass (superclass name : List Char) (comment : Option (List Char)) (b : ClassBody) : ParsedClass :=
  ⟨name, if superclass = "nil".toList then none else some superclass, b.instanceVars, b.classVars, comment.getD [],
    b.methods⟩

def fileTurn (u : CharClass) (f : FileSoFar) : Scan Char (FileSoFar ⊕ List ParsedClass) := do
  skipWs
  match ← peek with
  | none => pure (.inr f.classes)
  | some c =>
    if c = '"' then do
      let comment ← skipComment
      pure (.inl { f with pendingComment := some comment })
    else
      match ← classHead u with
      | none => pure (.inr f.classes)
      | some (superclass, name) => do
        let body ← readBody (u := u) name
        pure (.inl ⟨none, f.classes ++ [parsedClass superclass name f.pendingComment body]⟩)

theorem fileTurn_progress : Progress (fileTurn u) := by
  intro f f' s s' h
  have hle := (skipWs_steady.suffix s).length_le
  unfold fileTurn at h
  rw [Scan.bind_apply] at h
  generalize (skipWs s).2 = w at h hle
  refine Nat.lt_of_lt_of_le ?_ hle
  cases w with
  | nil => cases h
  | cons c cs =>
    rw [Scan.bind_apply] at h
    have hpeek : (peek : Scan Char _) (c :: cs) = (some c, c :: cs) := rfl
    rw [hpeek] at h
    dsimp only at h
    by_cases hq : c = '"'
    · rw [if_pos hq] at h
      have hlt := (quoted_eats '"' c cs).length_le
      have hr : (quoted '"' (c :: cs)).2 = s' := congrArg Prod.snd h
      rw [hr] at hlt
      exact Nat.lt_succ_of_le hlt
    · rw [if_neg hq, Scan.bind_apply] at h
      cases hc : classHead u (c :: cs) with
      | mk head r =>
        rw [hc] at h
        cases head with
        | none => cases h
        | some head =>
          have hlt := classHead_shorter hc
          have hsuf := (readBody_trims (u := u) head.2 r).length_le
          have hr : (readBody (u := u) head.2 r).2 = s' := congrArg Prod.snd h
          rw [hr] at hsuf
          exact Nat.lt_of_le_of_lt hsuf hlt

/-- The classes of a text, up to what is none. -/
def parseMstSource (u : CharClass) (text : List Char) : List ParsedClass :=
  (loop (fileTurn u) fileTurn_progress ⟨none, []⟩ text).1

end

end WinArmVm.Mst
