import Mathlib.Data.List.Basic

namespace WinArmVm.Frontend

structure Span where
  line : Nat
  col : Nat
deriving DecidableEq, Repr

/-- A literal. A float is its text, a big integer its base-256 digits from the lowest on. -/
inductive Literal
  | int (v : Int)
  | bigInt (negative : Bool) (digits : List Nat)
  | float (negative : Bool) (text : String)
  | char (c : Char)
  | str (s : String)
  | symbol (s : String)
  | array (items : List Literal)
  | byteArray (bytes : List Nat)
  | nil
  | true
  | false

/-- An expression. `cascadeRcvr` stands for the receiver inside a cascade's segments, and
`ret` in statement position only. -/
inductive Expr
  | selfRef (span : Span)
  | var (name : String) (span : Span)
  | lit (value : Literal) (span : Span)
  | assign (name : String) (value : Expr) (span : Span)
  | send (receiver : Expr) (selector : String) (args : List Expr) (isSuper : Bool) (span : Span)
  | cascade (receiver : Expr) (segments : List Expr) (span : Span)
  | cascadeRcvr (span : Span)
  | dynArray (elems : List Expr) (span : Span)
  | block (params temps : List String) (body : List Expr) (span : Span)
  | ret (value : Expr) (span : Span)

structure TypeAnnotation where
  text : String
  span : Span
deriving DecidableEq, Repr

structure MethodSignature where
  paramTypes : List (Option TypeAnnotation)
  returnType : Option TypeAnnotation
  tempTypes : List (Option TypeAnnotation)
deriving DecidableEq, Repr

inductive FfiPragma
  | function (name : String) (library : Option String) (ret : String) (args : List String)
  | selector (selector className : String) (classSide : Bool) (ret : String) (args : List String)
deriving DecidableEq, Repr

structure MethodNode where
  patternSelector : String
  params : List String
  primitive : Option Nat
  ffi : Option FfiPragma
  temps : List String
  body : List Expr
  classSide : Bool
  span : Span
  typeSig : MethodSignature

inductive Indexable
  | oops
  | bytes
deriving DecidableEq, Repr

structure ClassDefNode where
  superclass : String
  name : String
  indexable : Option Indexable
  instVars : List String
  instVarTypes : List (Option TypeAnnotation)
  classVars : List String
  methods : List MethodNode
  span : Span

inductive TopItem
  | classDef (node : ClassDefNode)
  | doIt (stmt : Expr)

/-- An error of the lexer, the parser or the compiler; `eof` when the input ran out. -/
structure CompileError where
  span : Span
  msg : String
  eof : Bool
deriving DecidableEq, Repr

namespace Expr

def spanOf : Expr → Span
  | selfRef span => span
  | var _ span => span
  | lit _ span => span
  | assign _ _ span => span
  | send _ _ _ _ span => span
  | cascade _ _ span => span
  | cascadeRcvr span => span
  | dynArray _ span => span
  | block _ _ _ span => span
  | ret _ span => span

end Expr

def Span.zero : Span := ⟨0, 0⟩

mutual

def Expr.strip : Expr → Expr
  | .selfRef _ => .selfRef Span.zero
  | .var name _ => .var name Span.zero
  | .lit value _ => .lit value Span.zero
  | .assign name value _ => .assign name value.strip Span.zero
  | .send receiver selector args isSuper _ => .send receiver.strip selector (stripAll args) isSuper Span.zero
  | .cascade receiver segments _ => .cascade receiver.strip (stripAll segments) Span.zero
  | .cascadeRcvr _ => .cascadeRcvr Span.zero
  | .dynArray elems _ => .dynArray (stripAll elems) Span.zero
  | .block params temps body _ => .block params temps (stripAll body) Span.zero
  | .ret value _ => .ret value.strip Span.zero

def stripAll : List Expr → List Expr
  | [] => []
  | e :: es => e.strip :: stripAll es

end

@[simp] theorem stripAll_nil : stripAll [] = [] := by
  rw [stripAll]

@[simp] theorem stripAll_cons (e : Expr) (es : List Expr) : stripAll (e :: es) = e.strip :: stripAll es := by
  rw [stripAll]

@[simp] theorem stripAll_append (es es' : List Expr) : stripAll (es ++ es') = stripAll es ++ stripAll es' := by
  induction es with
  | nil => simp
  | cons e es ih => simp [ih]

attribute [simp] Expr.strip

def TypeAnnotation.strip (ty : TypeAnnotation) : TypeAnnotation := { ty with span := Span.zero }

def stripTypes (types : List (Option TypeAnnotation)) : List (Option TypeAnnotation) :=
  types.map (Option.map TypeAnnotation.strip)

@[simp] theorem stripTypes_append (types types' : List (Option TypeAnnotation)) :
    stripTypes (types ++ types') = stripTypes types ++ stripTypes types' := List.map_append

def MethodSignature.strip (sig : MethodSignature) : MethodSignature :=
  ⟨stripTypes sig.paramTypes, sig.returnType.map TypeAnnotation.strip, stripTypes sig.tempTypes⟩

def MethodNode.strip (method : MethodNode) : MethodNode :=
  { method with body := stripAll method.body, span := Span.zero, typeSig := method.typeSig.strip }

def ClassDefNode.strip (node : ClassDefNode) : ClassDefNode :=
  { node with
    instVarTypes := stripTypes node.instVarTypes
    methods := node.methods.map MethodNode.strip
    span := Span.zero }

def TopItem.strip : TopItem → TopItem
  | .classDef node => .classDef node.strip
  | .doIt stmt => .doIt stmt.strip

end WinArmVm.Frontend
