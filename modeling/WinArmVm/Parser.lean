import WinArmVm.Lexer
import WinArmVm.StateRun

namespace WinArmVm.Frontend

open StateRun

structure Parser where
  lx : Lexer
  cur : Tok × Span
  peeked : Option (Tok × Span)
  literalSeqDepth : Nat

/-- The parser's functions. Loops and the nesting of expressions are bounded by a number of
turns; without any left there is no result. -/
abbrev Parse (α : Type) : Type := Run Parser CompileError α

namespace Parser

def bump : Parse Unit := fun p =>
  match p.peeked with
  | some t => some (.ok ((), { p with cur := t, peeked := none }))
  | none =>
    match p.lx.nextToken with
    | .error e => some (.error e)
    | .ok (t, lx) => some (.ok ((), { p with lx := lx, cur := t }))

def peek2 : Parse Tok := fun p =>
  match p.peeked with
  | some t => some (.ok (t.1, p))
  | none =>
    match p.lx.nextToken with
    | .error e => some (.error e)
    | .ok (t, lx) => some (.ok (t.1, { p with lx := lx, peeked := some t }))

def tok : Parse Tok := fun p => some (.ok (p.cur.1, p))

def span : Parse Span := fun p => some (.ok (p.cur.2, p))

def fail {α : Type} (span : Span) (msg : String) : Parse α := fun p =>
  some (.error ⟨span, msg, p.cur.1 == .eof⟩)

def setPragmaMode (v : Bool) : Parse Unit := fun p => some (.ok ((), { p with lx := p.lx.setPragmaMode v }))

def enterLiteralSeq : Parse Unit := fun p =>
  some (.ok ((), { p with
    literalSeqDepth := p.literalSeqDepth + 1
    lx := if p.literalSeqDepth + 1 = 1 then p.lx.setInLiteralSeq true else p.lx }))

def exitLiteralSeq : Parse Unit := fun p =>
  some (.ok ((), { p with
    literalSeqDepth := p.literalSeqDepth - 1
    lx := if p.literalSeqDepth - 1 = 0 then p.lx.setInLiteralSeq false else p.lx }))

def reserved : List String := ["self", "super", "nil", "true", "false"]

def isReserved (name : String) : Bool := reserved.contains name

def checkNotReserved (at_ : Span) (name : String) : Parse Unit :=
  if isReserved name then fail at_ ("'" ++ name ++ "' is a reserved word") else pure ()

def expect (want : Tok) (msg : String) : Parse Unit := do
  let t ← tok
  let here ← span
  if t == want then bump else fail here msg

def expectIdent (msg : String) : Parse String := do
  let t ← tok
  let here ← span
  match t with
  | .ident name => do
    bump
    pure name
  | _ => fail here msg

def expectKeyword (kw : String) : Parse Unit := do
  let t ← tok
  let here ← span
  if t == .keyword kw then bump else fail here ("expected '" ++ kw ++ "'")

def intLitToLiteral (negative : Bool) (radix : Nat) (digits : List Char) : Literal :=
  let mag := intLitMagnitude radix digits
  let v := Nat.ofDigits 256 mag
  if mag.length ≤ 8 ∧ v ≤ (if negative then 2 ^ 61 else 2 ^ 61 - 1) then
    .int (if negative then -(v : Int) else v)
  else .bigInt negative mag

def keywordSymbolTurn (acc : String × Option Nat) : Parse ((String × Option Nat) ⊕ String) := do
  let t ← tok
  let here ← span
  match t with
  | .keyword k =>
    if acc.2.any (· != here.col) then pure (.inr acc.1)
    else do
      bump
      pure (.inl (acc.1 ++ k, some (here.col + k.utf8ByteSize)))
  | _ => pure (.inr acc.1)

/-- What `elems` parses, from the opener of an array to its closing parenthesis. -/
def parseArrayItems (elems : Parse (List Literal)) : Parse (List Literal) := do
  enterLiteralSeq
  bump
  let items ← elems
  let t ← tok
  let here ← span
  if t == .rParen then do
    exitLiteralSeq
    bump
    pure items
  else fail here "expected ')' to close array literal"

def parseArrayLiteral (elems : Parse (List Literal)) : Parse Literal := do
  let items ← parseArrayItems elems
  pure (.array items)

def byteArrayTurn (bytes : List Nat) : Parse (List Nat ⊕ List Nat) := do
  let t ← tok
  let here ← span
  match t with
  | .rBracket => pure (.inr bytes)
  | .intLit negative radix digits => do
    bump
    let mag := intLitMagnitude radix digits
    if negative || decide (1 < mag.length) then fail here "byte array element out of range 0..255"
    else pure (.inl (bytes ++ [mag.headD 0]))
  | _ => fail here "byte array elements must be integers"

def parseByteArrayLiteral (turns : Nat) : Parse Literal := do
  enterLiteralSeq
  bump
  let bytes ← loop byteArrayTurn turns []
  exitLiteralSeq
  bump
  pure (.byteArray bytes)

def closeParen (msg : String) : Parse Unit := expect .rParen msg

/-- One element; `elems` parses what is in the parentheses of a nested array. -/
def parseArrayElem (turns : Nat) (elems : Parse (List Literal)) : Parse Literal := do
  let t ← tok
  let here ← span
  match t with
  | .intLit negative radix digits => do
    bump
    pure (intLitToLiteral negative radix digits)
  | .floatLit negative text => do
    bump
    pure (.float negative text)
  | .charLit c => do
    bump
    pure (.char c)
  | .strLit s => do
    bump
    pure (.str s)
  | .symLit s => do
    bump
    pure (.symbol s)
  | .ident name => do
    bump
    pure (if name == "nil" then .nil else if name == "true" then .true
      else if name == "false" then .false else .symbol name)
  | .keyword _ => do
    let sel ← loop keywordSymbolTurn turns ("", none)
    pure (.symbol sel)
  | .binarySel s => do
    bump
    pure (.symbol s)
  | .vBar => do
    bump
    pure (.symbol "|")
  | .lParen => do
    bump
    let items ← elems
    closeParen "expected ')'"
    pure (.array items)
  | .litArrayOpen => parseArrayLiteral elems
  | .byteArrayOpen => parseByteArrayLiteral turns
  | .scaledLit _ _ _ _ =>
    fail here "scaled-decimal literals are not supported inside literal arrays (a ScaledDecimal is built at runtime — use a brace array instead)"
  | _ => fail here "invalid literal array element"

def arrayElemsTurn (turns : Nat) (elems : Parse (List Literal)) (items : List Literal) :
    Parse (List Literal ⊕ List Literal) := do
  let t ← tok
  if t == .rParen then pure (.inr items)
  else do
    let item ← parseArrayElem turns elems
    pure (.inl (items ++ [item]))

def parseArrayElems (turns : Nat) : Nat → Parse (List Literal)
  | 0 => exhausted
  | depth + 1 => loop (arrayElemsTurn turns (parseArrayElems turns depth)) turns []

def renderAnnotationTok : Tok → String × Bool
  | .ident s => (s, true)
  | .keyword s => (s, true)
  | .binarySel s => (s, false)
  | .vBar => ("|", false)
  | .caret => ("^", false)
  | .lBracket => ("[", false)
  | .rBracket => ("]", false)
  | .lParen => ("(", false)
  | .rParen => (")", false)
  | _ => ("", false)

structure AnnotationText where
  depth : Nat
  text : String
  prevWasWord : Bool

def capturePragmaTurn (acc : AnnotationText) : Parse (AnnotationText ⊕ String) := do
  let t ← tok
  let here ← span
  if t == .binarySel "<" then do
    bump
    pure (.inl ⟨acc.depth + 1, acc.text ++ "<", false⟩)
  else if t == .binarySel ">" then
    if acc.depth - 1 = 0 then do
      setPragmaMode false
      bump
      pure (.inr acc.text)
    else do
      bump
      pure (.inl ⟨acc.depth - 1, acc.text ++ ">", false⟩)
  else if t == .eof then fail here "unterminated pragma"
  else
    let piece := renderAnnotationTok t
    let space := if piece.2 && acc.prevWasWord then " " else ""
    do
      bump
      pure (.inl ⟨acc.depth, acc.text ++ space ++ piece.1, piece.2⟩)

/-- `<T>`, if it is there. -/
def captureTypeAnnotation (turns : Nat) : Parse (Option TypeAnnotation) := do
  let t ← tok
  let here ← span
  if t == .binarySel "<" then do
    setPragmaMode true
    bump
    let text ← loop capturePragmaTurn turns ⟨1, "", false⟩
    pure (some ⟨text, here⟩)
  else pure none

def captureReturnTypeAnnotation (turns : Nat) : Parse (Option TypeAnnotation) := do
  let t ← tok
  if t == .caret then do
    bump
    let t ← tok
    let here ← span
    if t == .binarySel "<" then captureTypeAnnotation turns
    else fail here "expected a type annotation after '^' in a method pattern"
  else pure none

def typedNamesTurn (turns : Nat) (acc : List String × List (Option TypeAnnotation)) :
    Parse ((List String × List (Option TypeAnnotation)) ⊕ (List String × List (Option TypeAnnotation))) := do
  let t ← tok
  let here ← span
  match t with
  | .ident name => do
    checkNotReserved here name
    bump
    let ty ← captureTypeAnnotation turns
    pure (.inl (acc.1 ++ [name], acc.2 ++ [ty]))
  | _ => pure (.inr acc)

def parseTypedNames (turns : Nat) : Parse (List String × List (Option TypeAnnotation)) :=
  loop (typedNamesTurn turns) turns ([], [])

def parseOptionalTemps (turns : Nat) : Parse (List String × List (Option TypeAnnotation)) := do
  let t ← tok
  if t == .vBar then do
    bump
    let names ← parseTypedNames turns
    expect .vBar "expected closing '|' after temporaries"
    pure names
  else pure ([], [])

section Expression

variable (turns : Nat) (expression : Parse Expr)

def parseStatement : Parse Expr := do
  let t ← tok
  let here ← span
  if t == .caret then do
    bump
    let value ← expression
    pure (.ret value here)
  else expression

def statementsTurn (stmts : List Expr) : Parse (List Expr ⊕ List Expr) := do
  let stmt ← parseStatement expression
  let t ← tok
  if t == .period then do
    bump
    let t ← tok
    if t == .rBracket || t == .eof then pure (.inr (stmts ++ [stmt]))
    else pure (.inl (stmts ++ [stmt]))
  else pure (.inr (stmts ++ [stmt]))

def parseStatements : Parse (List Expr) := do
  let t ← tok
  if t == .rBracket || t == .eof then pure []
  else loop (statementsTurn expression) turns []

def blockParamsTurn (params : List String) : Parse (List String ⊕ List String) := do
  let t ← tok
  if t == .colon then do
    bump
    let here ← span
    let name ← expectIdent "expected a parameter name after ':'"
    checkNotReserved here name
    let _ ← captureTypeAnnotation turns
    pure (.inl (params ++ [name]))
  else pure (.inr params)

def parseBlockParams : Parse (List String) := do
  let t ← tok
  if t == .colon then do
    let params ← loop (blockParamsTurn turns) turns []
    expect .vBar "expected '|' after block parameters"
    pure params
  else pure []

def parseBlock : Parse Expr := do
  let here ← span
  bump
  let params ← parseBlockParams turns
  let temps ← parseOptionalTemps turns
  let body ← parseStatements turns expression
  expect .rBracket "expected ']' to close block"
  pure (.block params temps.1 body here)

def dynArrayTurn (elems : List Expr) : Parse (List Expr ⊕ List Expr) := do
  let e ← expression
  let t ← tok
  if t == .period then do
    bump
    let t ← tok
    if t == .rBrace then pure (.inr (elems ++ [e])) else pure (.inl (elems ++ [e]))
  else pure (.inr (elems ++ [e]))

def parseDynArray : Parse Expr := do
  let here ← span
  bump
  let t ← tok
  let elems ← if t == .rBrace then pure [] else loop (dynArrayTurn expression) turns []
  expect .rBrace "expected '\x7d' to close brace array"
  pure (.dynArray elems here)

/-- A word as a primary, and whether it is `super`. -/
def wordPrimary (name : String) (here : Span) : Expr × Bool :=
  if name == "self" then (.selfRef here, false)
  else if name == "super" then (.selfRef here, true)
  else if name == "nil" then (.lit .nil here, false)
  else if name == "true" then (.lit .true here, false)
  else if name == "false" then (.lit .false here, false)
  else (.var name here, false)

def scaledSend (negative : Bool) (intDigits fracDigits : List Char) (scale : Nat) (here : Span) : Expr :=
  let numerator := intLitToLiteral negative 10 (intDigits ++ fracDigits)
  let denominator := intLitToLiteral false 10 ('1' :: List.replicate fracDigits.length '0')
  .send (.var "ScaledDecimal" here) "numerator:denominator:scale:"
    [.lit numerator here, .lit denominator here, .lit (.int scale) here] false here

def parsePrimary : Parse (Expr × Bool) := do
  let t ← tok
  let here ← span
  match t with
  | .ident name => do
    bump
    pure (wordPrimary name here)
  | .lParen => do
    bump
    let e ← expression
    closeParen "expected ')'"
    pure (e, false)
  | .lBracket => do
    let e ← parseBlock turns expression
    pure (e, false)
  | .intLit negative radix digits => do
    bump
    pure (.lit (intLitToLiteral negative radix digits) here, false)
  | .floatLit negative text => do
    bump
    pure (.lit (.float negative text) here, false)
  | .scaledLit negative intDigits fracDigits scale => do
    bump
    pure (scaledSend negative intDigits fracDigits scale here, false)
  | .charLit c => do
    bump
    pure (.lit (.char c) here, false)
  | .strLit s => do
    bump
    pure (.lit (.str s) here, false)
  | .symLit s => do
    bump
    pure (.lit (.symbol s) here, false)
  | .litArrayOpen => do
    let value ← parseArrayLiteral (parseArrayElems turns turns)
    pure (.lit value here, false)
  | .byteArrayOpen => do
    let value ← parseByteArrayLiteral turns
    pure (.lit value here, false)
  | .lBrace => do
    let e ← parseDynArray turns expression
    pure (e, false)
  | _ => fail here "expected an expression"

/-- A chain's expression so far, and whether it is still a bare `super`. -/
def unaryTurn (acc : Expr × Bool) : Parse ((Expr × Bool) ⊕ (Expr × Bool)) := do
  let t ← tok
  let here ← span
  match t with
  | .ident name => do
    bump
    pure (.inl (.send acc.1 name [] acc.2 here, false))
  | _ => pure (.inr acc)

def parseUnaryChain (base : Expr × Bool) : Parse (Expr × Bool) := loop unaryTurn turns base

def binarySelector : Tok → Option String
  | .binarySel s => some s
  | .vBar => some "|"
  | _ => none

def binaryTurn (acc : Expr × Bool) : Parse ((Expr × Bool) ⊕ (Expr × Bool)) := do
  let t ← tok
  let here ← span
  match binarySelector t with
  | some sel => do
    bump
    let primary ← parsePrimary turns expression
    -- whether the argument is a bare `super` is not looked at
    let arg ← parseUnaryChain turns primary
    pure (.inl (.send acc.1 sel [arg.1] acc.2 here, false))
  | none => pure (.inr acc)

def parseBinaryChain (base : Expr × Bool) : Parse (Expr × Bool) := do
  let receiver ← parseUnaryChain turns base
  loop (binaryTurn turns expression) turns receiver

def keywordTurn (acc : String × List Expr) : Parse ((String × List Expr) ⊕ (String × List Expr)) := do
  let t ← tok
  match t with
  | .keyword k => do
    bump
    let primary ← parsePrimary turns expression
    let arg ← parseBinaryChain turns expression primary
    pure (.inl (acc.1 ++ k, acc.2 ++ [arg.1]))
  | _ => pure (.inr acc)

def isKeyword : Tok → Bool
  | .keyword _ => true
  | _ => false

def parseKeywordChain (base : Expr × Bool) : Parse (Expr × Bool) := do
  let receiver ← parseBinaryChain turns expression base
  let t ← tok
  let here ← span
  if isKeyword t then do
    let message ← loop (keywordTurn turns expression) turns ("", [])
    pure (.send receiver.1 message.1 message.2 receiver.2 here, false)
  else pure receiver

def parseKeywordExpr : Parse Expr := do
  let start ← span
  let base ← parsePrimary turns expression
  let e ← parseKeywordChain turns expression base
  if e.2 then fail start "'super' must be the receiver of a message send" else pure e.1

def isCascadeRcvr : Expr → Bool
  | .cascadeRcvr _ => true
  | _ => false

def cascadeTurn (rcvrSpan : Span) (isSuper : Bool) (segments : List Expr) : Parse (List Expr ⊕ List Expr) := do
  let t ← tok
  if t == .semi then do
    bump
    let start ← span
    let seg ← parseKeywordChain turns expression (.cascadeRcvr rcvrSpan, isSuper)
    if isCascadeRcvr seg.1 then fail start "cascade segment has no message"
    else pure (.inl (segments ++ [seg.1]))
  else pure (.inr segments)

def parseCascade : Parse Expr := do
  let here ← span
  let first ← parseKeywordExpr turns expression
  let t ← tok
  if t == .semi then
    match first with
    | .send receiver selector args isSuper sendSpan => do
      let segments ← loop (cascadeTurn turns expression receiver.spanOf isSuper) turns
        [.send (.cascadeRcvr receiver.spanOf) selector args isSuper sendSpan]
      pure (.cascade receiver segments here)
    | other => fail other.spanOf "cascade requires a message send"
  else pure first

def expressionBody : Parse Expr := do
  let t ← tok
  match t with
  | .ident name => do
    let next ← peek2
    if next == .assign then do
      let here ← span
      checkNotReserved here name
      bump
      bump
      let value ← expression
      pure (.assign name value here)
    else parseCascade turns expression
  | _ => parseCascade turns expression

end Expression

def expressionTo (turns : Nat) : Nat → Parse Expr
  | 0 => exhausted
  | depth + 1 => expressionBody turns (expressionTo turns depth)

def parseExpression (turns : Nat) : Parse Expr := expressionTo turns turns

end Parser

end WinArmVm.Frontend
