import WinArmVm.Lexer
import WinArmVm.Subtyping

namespace WinArmVm.Types

open Frontend (isWhitespace TypeAnnotation)

/-- Unicode's letters and digits: ASCII's own where a character is ASCII, and never white space. -/
structure CharClass where
  isAlphabetic : Char → Bool
  isAlphanumeric : Char → Bool
  ascii_alphabetic : ∀ c : Char, c.toNat < 128 → isAlphabetic c = c.isAlpha
  ascii_alphanumeric : ∀ c : Char, c.toNat < 128 → isAlphanumeric c = c.isAlphanum
  alphanumeric_of_alphabetic : ∀ c, isAlphabetic c = true → isAlphanumeric c = true
  whitespace_not_alphanumeric : ∀ c, isWhitespace c = true → isAlphanumeric c = false

theorem not_alphanum_of_whitespace {c : Char} (h : isWhitespace c = true) : c.isAlphanum = false := by
  by_contra hc
  have hrange : 48 ≤ c.toNat ∧ c.toNat ≤ 122 := by
    have hn : c.toNat = c.val.toNat := rfl
    change ¬ ((decide (c.val ≥ 'A'.val ∧ c.val ≤ 'Z'.val) || decide (c.val ≥ 'a'.val) && decide (c.val ≤ 'z'.val)) ||
      decide (c.val ≥ '0'.val) && decide (c.val ≤ '9'.val)) = false at hc
    simp only [Bool.not_eq_false, Bool.or_eq_true, Bool.and_eq_true, decide_eq_true_eq, ge_iff_le,
      UInt32.le_iff_toNat_le] at hc
    rcases hc with (hc | hc) | hc
    · change 65 ≤ c.val.toNat ∧ c.val.toNat ≤ 90 at hc
      omega
    · change 97 ≤ c.val.toNat ∧ c.val.toNat ≤ 122 at hc
      omega
    · change 48 ≤ c.val.toNat ∧ c.val.toNat ≤ 57 at hc
      omega
  simp only [isWhitespace, Bool.or_eq_true, Bool.and_eq_true, decide_eq_true_eq, beq_iff_eq] at h
  omega

def asciiClass : CharClass where
  isAlphabetic c := c.isAlpha
  isAlphanumeric c := c.isAlphanum
  ascii_alphabetic _ _ := rfl
  ascii_alphanumeric _ _ := rfl
  alphanumeric_of_alphabetic c h := by simp [Char.isAlphanum, h]
  whitespace_not_alphanumeric _ := not_alphanum_of_whitespace

mutual

def TypeExpr.display : TypeExpr → List Char
  | .named n => n.toList
  | .generic head args => head.toList ++ '[' :: (displayAll ',' args ++ [']'])
  | .block argTypes none => '[' :: (displayAll ',' argTypes ++ [']'])
  | .block argTypes (some r) =>
    '[' :: (displayAll ',' argTypes ++ (if argTypes.isEmpty then [] else [',']) ++ '^' :: (r.display ++ [']']))
  | .union variants => displayAll '|' variants
  | .inferenceDef inner => inner.display ++ [' ', 'd', 'e', 'f']

def displayAll (sep : Char) : List TypeExpr → List Char
  | [] => []
  | e :: es => e.display ++ displayRest sep es

def displayRest (sep : Char) : List TypeExpr → List Char
  | [] => []
  | e :: es => sep :: (e.display ++ displayRest sep es)

end

def ResolvedType.display : ResolvedType → String
  | .dynamic => "Dynamic"
  | .written e => String.ofList e.display

/-- A malformed annotation, with what its message shows. -/
inductive ParseError
  | trailing (rest : List Char)
  | expectedName (found : Option Char)
  | noArguments (name : List Char)
  | expected (want : Char) (found : Option Char)
deriving DecidableEq

/-- Why there is no answer: the text is malformed, a slice of it starts inside a character,
or the nesting is deeper than the steps allowed. -/
inductive Stop
  | failed (e : ParseError)
  | panic
  | exhausted
deriving DecidableEq

def skipWs : List Char → Except Stop (Unit × List Char)
  | [] => .ok ((), [])
  | c :: rest =>
    if isWhitespace c then
      if c.utf8Size = 1 then skipWs rest else .error .panic
    else .ok ((), c :: rest)

def peek (rest : List Char) : Except Stop (Option Char × List Char) := do
  let (_, rest) ← skipWs rest
  .ok (rest.head?, rest)

def bump (rest : List Char) : List Char := rest.drop 1

variable (u : CharClass)

def isNameStart (c : Char) : Bool := u.isAlphabetic c || c == '_'

def isNameCont (c : Char) : Bool := u.isAlphanumeric c || c == '_'

def readIdent (rest : List Char) : Except Stop (Option (List Char) × List Char) := do
  let (_, rest) ← skipWs rest
  match rest with
  | [] => .ok (none, [])
  | c :: cs =>
    if isNameStart u c then .ok (some (c :: cs.takeWhile (isNameCont u)), cs.dropWhile (isNameCont u))
    else .ok (none, c :: cs)

def expect (want : Char) (rest : List Char) : Except Stop (Unit × List Char) := do
  let (c, rest) ← peek rest
  if c = some want then .ok ((), bump rest) else .error (.failed (.expected want c))

mutual

def parseTypeExpr : Nat → List Char → Except Stop (TypeExpr × List Char)
  | 0, _ => .error .exhausted
  | n + 1, rest => do
    let (e, rest) ← parseUnion n rest
    let (name, after) ← readIdent u rest
    if name = some ['d', 'e', 'f'] then .ok (.inferenceDef e, after) else .ok (e, rest)

def parseUnion : Nat → List Char → Except Stop (TypeExpr × List Char)
  | 0, _ => .error .exhausted
  | n + 1, rest => do
    let (first, rest) ← parseAtom n rest
    let (variants, rest) ← parseVariants n [first] rest
    .ok (match variants with | [e] => e | _ => .union variants, rest)

def parseVariants : Nat → List TypeExpr → List Char → Except Stop (List TypeExpr × List Char)
  | 0, _, _ => .error .exhausted
  | n + 1, variants, rest => do
    let (c, rest) ← peek rest
    if c = some '|' then do
      let (e, rest) ← parseAtom n (bump rest)
      parseVariants n (variants ++ [e]) rest
    else .ok (variants, rest)

def parseAtom : Nat → List Char → Except Stop (TypeExpr × List Char)
  | 0, _ => .error .exhausted
  | n + 1, rest => do
    let (c, rest) ← peek rest
    if c = some '[' then parseBlockBody n (bump rest)
    else do
      let (name, rest) ← readIdent u rest
      match name with
      | none => do
        let (c, _) ← peek rest
        .error (.failed (.expectedName c))
      | some name =>
        if rest.head? = some '[' then do
          let (args, rest) ← parseTypeList n (bump rest)
          if args.isEmpty then .error (.failed (.noArguments name))
          else do
            let (_, rest) ← expect ']' rest
            .ok (.generic (String.ofList name) args, rest)
        else .ok (.named (String.ofList name), rest)

def parseTypeList : Nat → List Char → Except Stop (List TypeExpr × List Char)
  | 0, _ => .error .exhausted
  | n + 1, rest => do
    let (c, rest) ← peek rest
    if c = some ']' then .ok ([], rest) else parseArgs n [] rest

def parseArgs : Nat → List TypeExpr → List Char → Except Stop (List TypeExpr × List Char)
  | 0, _, _ => .error .exhausted
  | n + 1, args, rest => do
    let (e, rest) ← parseTypeExpr n rest
    let (c, rest) ← peek rest
    if c = some ',' then parseArgs n (args ++ [e]) (bump rest) else .ok (args ++ [e], rest)

def parseBlockBody : Nat → List Char → Except Stop (TypeExpr × List Char)
  | 0, _ => .error .exhausted
  | n + 1, rest => do
    let (c, rest) ← peek rest
    let ((argTypes, returnType), rest) ← if c = some ']' then .ok (([], none), rest) else parseBlockParts n [] rest
    let (_, rest) ← expect ']' rest
    .ok (.block argTypes returnType, rest)

def parseBlockParts : Nat → List TypeExpr → List Char → Except Stop ((List TypeExpr × Option TypeExpr) × List Char)
  | 0, _, _ => .error .exhausted
  | n + 1, argTypes, rest => do
    let (c, rest) ← peek rest
    if c = some '^' then do
      let (r, rest) ← parseTypeExpr n (bump rest)
      .ok ((argTypes, some r), rest)
    else do
      let (e, rest) ← parseTypeExpr n rest
      let (c, rest) ← peek rest
      if c = some ',' then parseBlockParts n (argTypes ++ [e]) (bump rest) else .ok ((argTypes ++ [e], none), rest)

end

def stepsFor (text : List Char) : Nat := 5 * text.length + 5

def parse (text : List Char) : Except Stop TypeExpr := do
  let (e, rest) ← parseTypeExpr u (stepsFor text) text
  let (_, rest) ← skipWs rest
  if rest = [] then .ok e else .error (.failed (.trailing rest))

end WinArmVm.Types
