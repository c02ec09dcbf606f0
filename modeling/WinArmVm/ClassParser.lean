import WinArmVm.Parser

namespace WinArmVm.Frontend

open StateRun

namespace Parser

def skipPragmaTurn (depth : Nat) : Parse (Nat ⊕ Unit) := do
  let t ← tok
  let here ← span
  if t == .binarySel "<" then do
    bump
    pure (.inl (depth + 1))
  else if t == .binarySel ">" then
    if depth - 1 = 0 then do
      setPragmaMode false
      bump
      pure (.inr ())
    else do
      bump
      pure (.inl (depth - 1))
  else if t == .eof then fail here "unterminated pragma"
  else do
    bump
    pure (.inl depth)

def skipPragmaBody (turns depth : Nat) : Parse Unit := loop skipPragmaTurn turns depth

def expectFfiSym (ctx : String) : Parse String := do
  let t ← tok
  let here ← span
  match t with
  | .symLit s => do
    bump
    pure s
  | _ => fail here ("expected a symbol literal (#foo) after '" ++ ctx ++ "'")

def expectFfiBool (ctx : String) : Parse Bool := do
  let t ← tok
  let here ← span
  if t == .ident "true" then do
    bump
    pure true
  else if t == .ident "false" then do
    bump
    pure false
  else fail here ("expected 'true' or 'false' after '" ++ ctx ++ "'")

def shapeSymbol : Literal → Option String
  | .symbol s => some s
  | _ => none

def expectFfiSymArray (turns : Nat) (ctx : String) : Parse (List String) := do
  let t ← tok
  let here ← span
  if t == .litArrayOpen then do
    let elems ← parseArrayItems (parseArrayElems turns turns)
    match elems.mapM shapeSymbol with
    | some names => pure names
    | none => fail here ("'" ++ ctx ++ "' array elements must be bare shape symbols (g, f, h4, …)")
  else fail here ("expected '#(' after '" ++ ctx ++ "'")

structure FfiParts where
  function : Option String
  selector : Option String
  className : Option String
  library : Option String
  classSide : Option Bool
  ret : Option String
  args : Option (List String)

/-- A part that may stand once only. -/
def once {α β : Type} (start : Span) (name : String) (taken : Option α) (p : Parse β) : Parse β :=
  if taken.isSome then fail start ("duplicate '" ++ name ++ "' in FFI pragma") else p

def ffiPart (turns : Nat) (start : Span) (parts : FfiParts) (k : String) : Parse FfiParts :=
  if k == "function:" then once start k parts.function do
    let s ← expectFfiSym k
    pure { parts with function := some s }
  else if k == "selector:" then once start k parts.selector do
    let s ← expectFfiSym k
    pure { parts with selector := some s }
  else if k == "class:" then once start k parts.className do
    let s ← expectFfiSym k
    pure { parts with className := some s }
  else if k == "library:" then once start k parts.library do
    let s ← expectFfiSym k
    pure { parts with library := some s }
  else if k == "classSide:" then once start k parts.classSide do
    let b ← expectFfiBool k
    pure { parts with classSide := some b }
  else if k == "ret:" then once start k parts.ret do
    let s ← expectFfiSym k
    pure { parts with ret := some s }
  else if k == "args:" then once start k parts.args do
    let l ← expectFfiSymArray turns k
    pure { parts with args := some l }
  else fail start ("unknown keyword '" ++ k ++ "' in <primitive: FFI …>")

def ffiTurn (turns : Nat) (start : Span) (parts : FfiParts) : Parse (FfiParts ⊕ FfiParts) := do
  let t ← tok
  let here ← span
  match t with
  | .keyword k => do
    bump
    let parts ← ffiPart turns start parts k
    pure (.inl parts)
  | _ =>
    if t == .binarySel ">" then pure (.inr parts)
    else fail here "expected a keyword part (function:/selector:/class:/classSide:/library:/ret:/args:) in <primitive: FFI …>"

def ffiPragma (start : Span) (parts : FfiParts) : Parse FfiPragma :=
  match parts.ret with
  | none => fail start "FFI pragma missing 'ret:'"
  | some ret =>
    let args := parts.args.getD []
    match parts.function, parts.selector with
    | some name, none => pure (.function name parts.library ret args)
    | none, some selector =>
      match parts.className with
      | none => fail start "FFI 'selector:' pragma missing 'class:'"
      | some className =>
        if parts.library.isSome then
          fail start "FFI 'library:' applies to 'function:' pragmas only - a Tier 2                          'selector:' send resolves through the ObjC runtime, which has no                          library to name"
        else pure (.selector selector className (parts.classSide.getD false) ret args)
    | some _, some _ =>
      fail start "FFI pragma must not specify both 'function:' (Tier 1) and 'selector:' (Tier 2)"
    | none, none =>
      fail start "FFI pragma needs 'function:' (Tier 1, POSIX) or 'selector:' (Tier 2, Cocoa)"

def parseFfiPragmaBody (turns : Nat) (start : Span) : Parse FfiPragma := do
  let parts ← loop (ffiTurn turns start) turns ⟨none, none, none, none, none, none, none⟩
  setPragmaMode false
  bump
  ffiPragma start parts

def primitiveId (start : Span) (negative : Bool) (radix : Nat) (digits : List Char) : Parse Nat :=
  if negative then fail start "primitive id must not be negative"
  else
    let mag := intLitMagnitude radix digits
    let v := Nat.ofDigits 256 mag
    if 8 < mag.length ∨ v = 0 ∨ 65535 < v then fail start "primitive id out of range 1..=65535"
    else pure v

def parsePrimitivePragma (turns : Nat) (start : Span) : Parse (Option Nat × Option FfiPragma) := do
  bump
  let t ← tok
  match t with
  | .intLit negative radix digits => do
    bump
    let t ← tok
    if t == .binarySel ">" then do
      setPragmaMode false
      bump
      let id ← primitiveId start negative radix digits
      pure (some id, none)
    else fail start "expected '>' to close <primitive: N>"
  | _ =>
    if t == .ident "FFI" then do
      bump
      let ffi ← parseFfiPragmaBody turns start
      pure (none, some ffi)
    else fail start "expected an integer after <primitive:"

def parseMethodPragma (turns : Nat) : Parse (Option Nat × Option FfiPragma) := do
  let start ← span
  setPragmaMode true
  bump
  let t ← tok
  if t == .keyword "primitive:" then parsePrimitivePragma turns start
  else do
    skipPragmaBody turns 1
    pure (none, none)

inductive ClassPragma
  | indexable (kind : Indexable)
  | classVars (names : List String)
  | ignored

def indexableKind (start : Span) (kind : String) : Parse ClassPragma :=
  if kind == "oops" then pure (.indexable .oops)
  else if kind == "bytes" then pure (.indexable .bytes)
  else fail start ("<indexable:> argument must be 'oops' or 'bytes', got '" ++ kind ++ "'")

def parseIndexablePragma (start : Span) : Parse ClassPragma := do
  bump
  let t ← tok
  match t with
  | .ident kind => do
    bump
    let t ← tok
    if t == .binarySel ">" then do
      setPragmaMode false
      bump
      indexableKind start kind
    else fail start "malformed <indexable:> pragma"
  | _ => fail start "malformed <indexable:> pragma"

def namesTurn (names : List String) : Parse (List String ⊕ List String) := do
  let t ← tok
  match t with
  | .ident name => do
    bump
    pure (.inl (names ++ [name]))
  | _ => pure (.inr names)

def parseClassVarsPragma (turns : Nat) (start : Span) : Parse ClassPragma := do
  bump
  let names ← loop namesTurn turns []
  let t ← tok
  if t == .binarySel ">" then do
    setPragmaMode false
    bump
    pure (.classVars names)
  else fail start "malformed <classVars:> pragma"

def parseClassPragma (turns : Nat) : Parse ClassPragma := do
  let start ← span
  setPragmaMode true
  bump
  let t ← tok
  if t == .keyword "indexable:" then parseIndexablePragma start
  else if t == .keyword "classVars:" then parseClassVarsPragma turns start
  else do
    skipPragmaBody turns 1
    pure .ignored

structure Pattern where
  selector : String
  params : List String
  types : List (Option TypeAnnotation)

def parseParam (turns : Nat) (msg : String) : Parse (String × Option TypeAnnotation) := do
  let here ← span
  let name ← expectIdent msg
  checkNotReserved here name
  let ty ← captureTypeAnnotation turns
  pure (name, ty)

def patternTurn (turns : Nat) (acc : Pattern) : Parse (Pattern ⊕ Pattern) := do
  let t ← tok
  match t with
  | .keyword k => do
    bump
    let param ← parseParam turns "expected a parameter name after keyword"
    pure (.inl ⟨acc.selector ++ k, acc.params ++ [param.1], acc.types ++ [param.2]⟩)
  | _ => pure (.inr acc)

def parsePattern (turns : Nat) : Parse Pattern := do
  let t ← tok
  let here ← span
  match t with
  | .ident name => do
    bump
    pure ⟨name, [], []⟩
  | .binarySel sel => do
    bump
    let param ← parseParam turns "expected a parameter name after binary selector"
    pure ⟨sel, [param.1], [param.2]⟩
  | .vBar => do
    bump
    let param ← parseParam turns "expected a parameter name after '|'"
    pure ⟨"|", [param.1], [param.2]⟩
  | .keyword _ => loop (patternTurn turns) turns ⟨"", [], []⟩
  | _ => fail here "invalid method pattern"

structure MethodBody where
  primitive : Option Nat
  ffi : Option FfiPragma
  temps : List String
  tempTypes : List (Option TypeAnnotation)
  body : List Expr

def methodPragmasTurn (turns : Nat) (acc : Option Nat × Option FfiPragma) :
    Parse ((Option Nat × Option FfiPragma) ⊕ (Option Nat × Option FfiPragma)) := do
  let t ← tok
  let here ← span
  if t == .binarySel "<" then do
    let pragma ← parseMethodPragma turns
    if pragma.1.isSome || pragma.2.isSome then
      if acc.1.isSome || acc.2.isSome then fail here "duplicate primitive pragma" else pure (.inl pragma)
    else pure (.inl acc)
  else pure (.inr acc)

def parseMethodBody (turns : Nat) : Parse MethodBody := do
  let pragmas ← loop (methodPragmasTurn turns) turns (none, none)
  let temps ← parseOptionalTemps turns
  let body ← parseStatements turns (parseExpression turns)
  pure ⟨pragmas.1, pragmas.2, temps.1, temps.2, body⟩

def parseMethodRest (turns : Nat) (pattern : Pattern) (classSide : Bool) (here : Span) (opening closing : String) :
    Parse MethodNode := do
  let returnType ← captureReturnTypeAnnotation turns
  expect .lBracket opening
  let body ← parseMethodBody turns
  expect .rBracket closing
  pure {
    patternSelector := pattern.selector
    params := pattern.params
    primitive := body.primitive
    ffi := body.ffi
    temps := body.temps
    body := body.body
    classSide := classSide
    span := here
    typeSig := ⟨pattern.types, returnType, body.tempTypes⟩ }

def parseMethod (turns : Nat) (classSide : Bool) : Parse MethodNode := do
  let here ← span
  let pattern ← parsePattern turns
  parseMethodRest turns pattern classSide here "expected '[' to start method body" "expected ']' to close method body"

structure ClassItems where
  indexable : Option Indexable
  instVars : List String
  instVarTypes : List (Option TypeAnnotation)
  classVars : List String
  methods : List MethodNode

def ClassItems.addMethod (items : ClassItems) (method : MethodNode) : ClassItems :=
  { items with methods := items.methods ++ [method] }

def ClassItems.addPragma (items : ClassItems) : ClassPragma → ClassItems
  | .indexable kind => { items with indexable := some kind }
  | .classVars names => { items with classVars := items.classVars ++ names }
  | .ignored => items

def isIdent : Tok → Bool
  | .ident _ => true
  | _ => false

/-- `<`: a binary method when a word comes next, a pragma otherwise. -/
def parseLessItem (turns : Nat) (items : ClassItems) : Parse ClassItems := do
  let next ← peek2
  if isIdent next then do
    let method ← parseMethod turns false
    pure (items.addMethod method)
  else do
    let pragma ← parseClassPragma turns
    pure (items.addPragma pragma)

/-- `|`: a binary method when a word and a bracket come next, instance variables otherwise. -/
def parseBarItem (turns : Nat) (items : ClassItems) : Parse ClassItems := do
  bump
  let t ← tok
  let isBinaryMethod ← if isIdent t then do
      let next ← peek2
      pure (next == .lBracket)
    else pure false
  if isBinaryMethod then do
    let here ← span
    let param ← parseParam turns "expected a parameter name"
    let method ← parseMethodRest turns ⟨"|", [param.1], [param.2]⟩ false here "expected '['" "expected ']'"
    pure (items.addMethod method)
  else do
    let names ← parseTypedNames turns
    expect .vBar "expected closing '|' after instance variables"
    pure { items with instVars := items.instVars ++ names.1, instVarTypes := items.instVarTypes ++ names.2 }

def parseClassMethod (turns : Nat) (className : String) (items : ClassItems) (ident : String) : Parse ClassItems := do
  let mspan ← span
  bump
  bump
  if ident == className then do
    let t ← tok
    let here ← span
    if t == .binarySel ">>" then do
      bump
      let method ← parseMethod turns true
      pure (items.addMethod method)
    else fail here "expected '>>' after 'class'"
  else
    fail mspan ("'" ++ ident ++ " class' does not match the class being defined ('" ++ className ++ "')")

def classItemsTurn (turns : Nat) (className : String) (items : ClassItems) : Parse (ClassItems ⊕ ClassItems) := do
  let t ← tok
  let here ← span
  match t with
  | .rBracket => pure (.inr items)
  | .eof => fail here "unexpected end of input in class body"
  | .binarySel sel =>
    if sel == "<" then do
      let items ← parseLessItem turns items
      pure (.inl items)
    else do
      let method ← parseMethod turns false
      pure (.inl (items.addMethod method))
  | .vBar => do
    let items ← parseBarItem turns items
    pure (.inl items)
  | .ident ident => do
    let next ← peek2
    if next == .ident "class" then do
      let items ← parseClassMethod turns className items ident
      pure (.inl items)
    else do
      let method ← parseMethod turns false
      pure (.inl (items.addMethod method))
  | .keyword _ => do
    let method ← parseMethod turns false
    pure (.inl (items.addMethod method))
  | _ => fail here "expected a class item"

def parseClassDef (turns : Nat) : Parse ClassDefNode := do
  let here ← span
  let superclass ← expectIdent "expected superclass name"
  expectKeyword "subclass:"
  let name ← expectIdent "expected new class name"
  expect .lBracket "expected '[' to start class body"
  let items ← loop (classItemsTurn turns name) turns ⟨none, [], [], [], []⟩
  bump
  pure {
    superclass := superclass
    name := name
    indexable := items.indexable
    instVars := items.instVars
    instVarTypes := items.instVarTypes
    classVars := items.classVars
    methods := items.methods
    span := here }

def startsClassDef : Parse Bool := do
  let t ← tok
  if isIdent t then do
    let next ← peek2
    pure (next == .keyword "subclass:")
  else pure false

def topItemsTurn (turns : Nat) (items : List TopItem) : Parse (List TopItem ⊕ List TopItem) := do
  let t ← tok
  if t == .eof then pure (.inr items)
  else do
    let isClassDef ← startsClassDef
    if isClassDef then do
      let node ← parseClassDef turns
      pure (.inl (items ++ [.classDef node]))
    else do
      let stmt ← parseStatement (parseExpression turns)
      expect .period "expected '.' after top-level statement"
      pure (.inl (items ++ [.doIt stmt]))

/-- `Parser::new`. -/
def new (input : List Char) : Except CompileError Parser :=
  match (Lexer.new input).nextToken with
  | .error e => .error e
  | .ok (t, lx) => .ok ⟨lx, t, none, 0⟩

end Parser

/-- The parse with a number of turns for each loop and nesting. -/
def parseFileWith (turns : Nat) (input : List Char) : Option (Except CompileError (List TopItem)) :=
  match Parser.new input with
  | .error e => some (.error e)
  | .ok p => Option.map (Except.map Prod.fst) (loop (Parser.topItemsTurn turns) turns [] p)

/-- More turns than a text of the length can use. -/
def turnsFor (input : List Char) : Nat := input.length + 3

def parseFile (input : List Char) : Option (Except CompileError (List TopItem)) := parseFileWith (turnsFor input) input

end WinArmVm.Frontend
