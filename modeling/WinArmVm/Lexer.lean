import WinArmVm.FrontendAst
import Mathlib.Data.Nat.Digits.Defs

namespace WinArmVm.Frontend

/-- A token. The digits of a number are its text; so is a float. -/
inductive Tok
  | ident (name : String)
  | keyword (k : String)
  | binarySel (s : String)
  | intLit (negative : Bool) (radix : Nat) (digits : List Char)
  | scaledLit (negative : Bool) (intDigits fracDigits : List Char) (scale : Nat)
  | floatLit (negative : Bool) (text : String)
  | charLit (c : Char)
  | strLit (s : String)
  | symLit (s : String)
  | litArrayOpen
  | byteArrayOpen
  | lParen
  | rParen
  | lBracket
  | rBracket
  | lBrace
  | rBrace
  | vBar
  | semi
  | period
  | caret
  | assign
  | colon
  | eof
deriving DecidableEq, Repr

def binaryChars : String := "+-*/\\~<>=&|@%,?!"

def isBinaryChar (c : Char) : Bool := binaryChars.toList.contains c

def isWhitespace (c : Char) : Bool :=
  let n := c.toNat
  (9 ≤ n && n ≤ 13) || n == 32 || n == 0x85 || n == 0xA0 || n == 0x1680 || (0x2000 ≤ n && n ≤ 0x200A) ||
    n == 0x2028 || n == 0x2029 || n == 0x202F || n == 0x205F || n == 0x3000

def singleQuote : Char := Char.ofNat 39

def doubleQuote : Char := Char.ofNat 34

def isIdentStart (c : Char) : Bool := c.isAlpha || c == '_'

def isIdentCont (c : Char) : Bool := c.isAlphanum || c == '_'

def tokEndsExpr : Tok → Bool
  | .ident _ => true
  | .intLit _ _ _ => true
  | .scaledLit _ _ _ _ => true
  | .floatLit _ _ => true
  | .charLit _ => true
  | .strLit _ => true
  | .symLit _ => true
  | .rParen => true
  | .rBracket => true
  | .rBrace => true
  | _ => false

def Span.next (here : Span) (c : Char) : Span :=
  if c == '\n' then ⟨here.line + 1, 1⟩ else ⟨here.line, here.col + c.utf8Size⟩

def Span.over (here : Span) (cs : List Char) : Span := cs.foldl Span.next here

def peekIs (p : Char → Bool) (cs : List Char) : Bool := cs.head?.any p

/-- Past whitespace and comments, from inside the comment that starts at the given position, if
any. Two double quotes in a comment stand for one. -/
def skipTrivia : List Char → Option Span → Span → Except CompileError (Span × List Char)
  | [], none, here => .ok (here, [])
  | [], some start, _ => .error ⟨start, "unterminated comment", true⟩
  | c :: cs, none, here =>
    if isWhitespace c then skipTrivia cs none (here.next c)
    else if c == doubleQuote then skipTrivia cs (some here) (here.next c)
    else .ok (here, c :: cs)
  | c :: cs, some start, here =>
    if c == doubleQuote then
      match cs with
      | [] => .ok (here.next c, [])
      | c' :: cs' =>
        if c' == doubleQuote then skipTrivia cs' (some start) ((here.next c).next c')
        else skipTrivia (c' :: cs') none (here.next c)
    else skipTrivia cs (some start) (here.next c)

def lexIdentOrKeyword (cs : List Char) : Tok × List Char :=
  let ident := cs.takeWhile isIdentCont
  let rest := cs.dropWhile isIdentCont
  if peekIs (· == ':') rest && !peekIs (· == '=') rest.tail then
    (.keyword (String.ofList ident ++ ":"), rest.tail)
  else (.ident (String.ofList ident), rest)

def isRadixDigit (c : Char) : Bool := c.isDigit || c.isUpper

def digitValue (c : Char) : Nat :=
  if c.isDigit then c.toNat - 48 else if c.isLower then c.toNat - 97 + 10 else c.toNat - 65 + 10

def decimal (digits : List Char) : Nat := digits.foldl (fun n c => 10 * n + digitValue c) 0

def isExponentMarker (c : Char) : Bool := c == 'e' || c == 'E' || c == 'd' || c == 'D'

def tryConsumeExponent (cs : List Char) : Option ((Char × Bool × List Char) × List Char) :=
  match cs with
  | [] => none
  | c :: cs =>
    if isExponentMarker c then
      let neg := peekIs (· == '-') cs
      let cs := if neg then cs.tail else cs
      if peekIs Char.isDigit cs then
        some ((c.toLower, neg, cs.takeWhile Char.isDigit), cs.dropWhile Char.isDigit)
      else none
    else none

def lexError (start : Span) (msg : String) : CompileError := ⟨start, msg, false⟩

/-- The scale after an `s`. The letter is left alone where it begins a word. -/
def tryConsumeScale (default : Nat) (start : Span) (cs : List Char) : Except CompileError (Option (Nat × List Char)) :=
  if peekIs (· == 's') cs then
    if peekIs Char.isDigit cs.tail then
      let scale := decimal (cs.tail.takeWhile Char.isDigit)
      if scale > 65535 then .error (lexError start "scaled-decimal scale too large")
      else .ok (some (scale, cs.tail.dropWhile Char.isDigit))
    else if peekIs (fun c => isIdentCont c || c == ':') cs.tail then .ok none
    else .ok (some (default, cs.tail))
  else .ok none

def lexRadix (negative : Bool) (start : Span) (lead cs : List Char) : Except CompileError (Tok × List Char) :=
  -- a number past 32 bits counts as 0
  let radix := if decimal lead < 2 ^ 32 then decimal lead else 0
  if radix < 2 ∨ 36 < radix then
    .error (lexError start ("radix " ++ toString radix ++ " out of range 2..=36"))
  else
    let rdigits := cs.takeWhile isRadixDigit
    if rdigits.isEmpty then .error (lexError start "radix literal has no digits after 'r'")
    else
      match rdigits.find? fun c => radix ≤ digitValue c with
      | some c =>
        .error (lexError start ("digit '" ++ c.toString ++ "' is not valid in radix " ++ toString radix))
      | none => .ok (.intLit negative radix rdigits, cs.dropWhile isRadixDigit)

def exponentText (neg : Bool) (digits : List Char) : String := "e" ++ (if neg then "-" else "") ++ String.ofList digits

def lexNumber (negative : Bool) (start : Span) (cs : List Char) : Except CompileError (Tok × List Char) :=
  let lead := cs.takeWhile Char.isDigit
  let cs := cs.dropWhile Char.isDigit
  if peekIs (· == 'r') cs then lexRadix negative start lead cs.tail
  else if peekIs (· == '.') cs && peekIs Char.isDigit cs.tail then
    let frac := cs.tail.takeWhile Char.isDigit
    let cs := cs.tail.dropWhile Char.isDigit
    match tryConsumeScale (min frac.length 65535) start cs with
    | .error e => .error e
    | .ok (some (scale, cs)) => .ok (.scaledLit negative lead frac scale, cs)
    | .ok none =>
      let text := String.ofList lead ++ "." ++ String.ofList frac
      match tryConsumeExponent cs with
      | some ((_, neg, digits), cs) => .ok (.floatLit negative (text ++ exponentText neg digits), cs)
      | none => .ok (.floatLit negative text, cs)
  else
    match tryConsumeScale 0 start cs with
    | .error e => .error e
    | .ok (some (scale, cs)) => .ok (.scaledLit negative lead [] scale, cs)
    | .ok none =>
      match tryConsumeExponent cs with
      | some ((marker, neg, digits), cs) =>
        if marker == 'e' && !neg then
          if 2 ^ 32 ≤ decimal digits then .error (lexError start "integer exponent too large")
          else if 10000 < decimal digits then
            .error (lexError start "integer exponent too large (limit 10000 digits)")
          else .ok (.intLit negative 10 (lead ++ List.replicate (decimal digits) '0'), cs)
        else .ok (.floatLit negative (String.ofList lead ++ exponentText neg digits), cs)
      | none => .ok (.intLit negative 10 lead, cs)

def quotedText : List Char → Option (List Char × List Char)
  | [] => none
  | c :: cs =>
    if c == singleQuote then
      match cs with
      | [] => some ([], [])
      | c' :: cs' =>
        if c' == singleQuote then (quotedText cs').map fun r => (singleQuote :: r.1, r.2)
        else some ([], c' :: cs')
    else (quotedText cs).map fun r => (c :: r.1, r.2)

def lexQuotedText (start : Span) (cs : List Char) : Except CompileError (String × List Char) :=
  match quotedText cs.tail with
  | none => .error ⟨start, "unterminated string", true⟩
  | some (s, cs) => .ok (String.ofList s, cs)

/-- Of the second character only what may merge: not a bar, not the minus of a number, and
nothing after the closer of a pragma. -/
def lexBinarySel (pragmaMode : Bool) (first : Char) (cs : List Char) : String × List Char :=
  match cs.tail with
  | [] => (String.ofList [first], [])
  | c :: rest =>
    if !(pragmaMode && first == '>') && (isBinaryChar c && c != '|') && !(c == '-' && peekIs Char.isDigit rest) then
      (String.ofList [first, c], rest)
    else (String.ofList [first], c :: rest)

def symbolText : List Char → List Char × List Char
  | [] => ([], [])
  | c :: cs =>
    if isIdentCont c then (c :: (symbolText cs).1, (symbolText cs).2)
    else if c == ':' then
      if peekIs isIdentStart cs then (c :: (symbolText cs).1, (symbolText cs).2) else ([c], cs)
    else ([], c :: cs)

def lexHash (pragmaMode : Bool) (start : Span) (cs : List Char) : Except CompileError (Tok × List Char) :=
  let cs := cs.tail
  match cs with
  | [] => .error (lexError start "invalid '#' sequence")
  | c :: rest =>
    if c == '(' then .ok (.litArrayOpen, rest)
    else if c == '[' then .ok (.byteArrayOpen, rest)
    else if c == singleQuote then (lexQuotedText start cs).map fun r => (.symLit r.1, r.2)
    else if isIdentStart c then .ok (.symLit (String.ofList (symbolText cs).1), (symbolText cs).2)
    else if c == '|' then .ok (.symLit "|", rest)
    else if isBinaryChar c then
      .ok (.symLit (lexBinarySel pragmaMode c cs).1, (lexBinarySel pragmaMode c cs).2)
    else .error (lexError start "invalid '#' sequence")

def punctuation (c : Char) : Option Tok :=
  if c == '|' then some .vBar
  else if c == '(' then some .lParen
  else if c == ')' then some .rParen
  else if c == '[' then some .lBracket
  else if c == ']' then some .rBracket
  else if c == '{' then some .lBrace
  else if c == '}' then some .rBrace
  else if c == ';' then some .semi
  else if c == '.' then some .period
  else if c == '^' then some .caret
  else none

structure Lexer where
  rest : List Char
  here : Span
  prevEndsExpr : Bool
  pragmaMode : Bool
  inLiteralSeq : Bool

namespace Lexer

def new (input : List Char) : Lexer := ⟨input, ⟨1, 1⟩, false, false, false⟩

def setPragmaMode (v : Bool) (l : Lexer) : Lexer := { l with pragmaMode := v }

def setInLiteralSeq (v : Bool) (l : Lexer) : Lexer := { l with inLiteralSeq := v }

def scanToken (l : Lexer) (start : Span) (c : Char) (rest : List Char) : Except CompileError (Tok × List Char) :=
  if isIdentStart c then .ok (lexIdentOrKeyword (c :: rest))
  else if c.isDigit then lexNumber false start (c :: rest)
  else if c == '-' then
    if peekIs Char.isDigit rest && (l.inLiteralSeq || !l.prevEndsExpr) then lexNumber true start rest
    else .ok ((lexBinarySel l.pragmaMode c (c :: rest)).map Tok.binarySel id)
  else if c == '$' then
    match rest with
    | [] => .error ⟨start, "'$' at end of input", true⟩
    | c' :: rest => .ok (.charLit c', rest)
  else if c == singleQuote then (lexQuotedText start (c :: rest)).map fun r => (.strLit r.1, r.2)
  else if c == '#' then lexHash l.pragmaMode start (c :: rest)
  else
    match punctuation c with
    | some tok => .ok (tok, rest)
    | none =>
      if c == ':' then if peekIs (· == '=') rest then .ok (.assign, rest.tail) else .ok (.colon, rest)
      else if isBinaryChar c then .ok ((lexBinarySel l.pragmaMode c (c :: rest)).map Tok.binarySel id)
      else .error (lexError start ("unexpected character '" ++ c.toString ++ "'"))

def nextToken (l : Lexer) : Except CompileError ((Tok × Span) × Lexer) :=
  match skipTrivia l.rest none l.here with
  | .error e => .error e
  | .ok (start, []) => .ok ((.eof, start), { l with rest := [], here := start })
  | .ok (start, c :: cs) =>
    match l.scanToken start c cs with
    | .error e => .error e
    | .ok (tok, rest) => .ok ((tok, start), { l with
      rest := rest
      here := start.over ((c :: cs).take ((c :: cs).length - rest.length))
      prevEndsExpr := tokEndsExpr tok })

end Lexer

def addDigit (radix : Nat) : List Nat → Nat → List Nat
  | [], carry => Nat.digits 256 carry
  | b :: bytes, carry => (b * radix + carry) % 256 :: addDigit radix bytes ((b * radix + carry) / 256)

def intLitMagnitude (radix : Nat) (digits : List Char) : List Nat :=
  digits.foldl (fun mag c => addDigit radix mag (digitValue c)) []

end WinArmVm.Frontend
