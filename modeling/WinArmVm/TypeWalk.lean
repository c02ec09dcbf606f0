import WinArmVm.SendCheck

namespace WinArmVm.Types

open Frontend ( TypeAnnotation MethodNode Expr Literal)

/-- The names in sight with the types captured for them, innermost frame first. -/
abbrev Scope := List (Dictionary (Option TypeExpr))

def Scope.lookup (scope : Scope) (name : String) : Option (Option TypeExpr) :=
  scope.findSome? fun frame => AList.lookup name frame

def writtenOrDynamic : Option TypeExpr → ResolvedType
  | none => .dynamic
  | some e => .written e

structure WalkCtx where
  model : WorldModel
  className : String
  classSide : Bool
  selector : String
  declaredReturn : ResolvedType

def WalkCtx.site (ctx : WalkCtx) (slot : String) : AnnotationSite :=
  ⟨ctx.className, ctx.classSide, some ctx.selector, slot⟩

def typeOfLiteral : Literal → ResolvedType
  | .int _ | .bigInt _ _ => .named "Integer"
  | .float _ _ => .named "Double"
  | .char _ => .named "Character"
  | .str _ => .named "String"
  | .symbol _ => .named "Symbol"
  | .array _ => .named "Array"
  | .byteArray _ => .named "ByteArray"
  | .nil => .named "UndefinedObject"
  | .true | .false => .named "Boolean"

variable (u : CharClass)

/-- The type a text stands for, if it is well formed; none where the parse panics. -/
def parsedText (text : Option String) : Option (Option TypeExpr) :=
  match text with
  | none => some none
  | some text =>
    match parse u text.toList with
    | .ok e => some (some e)
    | .error (.failed _) => some none
    | .error _ => none

def ivarType (model : WorldModel) (className name : String) : Option ResolvedType :=
  match model.classes.lookup className with
  | none => some .dynamic
  | some cls =>
    match cls.instVars.findIdx? (· == name) with
    | none => some .dynamic
    | some i => (parsedText u (cls.instVarTypes[i]?).join).map writtenOrDynamic

def varType (ctx : WalkCtx) (scope : Scope) (name : String) : Option ResolvedType :=
  match scope.lookup name with
  | some t => some (writtenOrDynamic t)
  | none => ivarType u ctx.model ctx.className name

def sendType (ctx : WalkCtx) (isSuper : Bool) (receiverType : ResolvedType) (selector : String)
    (argTypes : List ResolvedType) (slot : String) : Option ResolvedType :=
  (checkSend u ctx.model ctx.className ctx.classSide isSuper receiverType selector argTypes (ctx.site slot)).map (·.1)

def sendSlot (selector : String) : String := "send '" ++ selector ++ "'"

def cascadeSlot (selector : String) : String := "cascade send '" ++ selector ++ "'"

mutual

def synthesize (ctx : WalkCtx) (scope : Scope) : Expr → Option ResolvedType
  | .selfRef _ => some (.named "Self")
  | .var name _ => varType u ctx scope name
  | .lit value _ => some (typeOfLiteral value)
  | .assign _ value _ => synthesize ctx scope value
  | .send receiver selector args isSuper _ => do
    let receiverType ← synthesize ctx scope receiver
    let argTypes ← synthesizeAll ctx scope args
    sendType u ctx isSuper receiverType selector argTypes (sendSlot selector)
  | .cascade receiver segments _ => do
    let receiverType ← synthesize ctx scope receiver
    synthesizeLast ctx scope receiverType segments
  | .cascadeRcvr _ | .block _ _ _ _ | .ret _ _ => some .dynamic
  | .dynArray _ _ => some (.named "Array")

def synthesizeAll (ctx : WalkCtx) (scope : Scope) : List Expr → Option (List ResolvedType)
  | [] => some []
  | e :: es => do
    let t ← synthesize ctx scope e
    let ts ← synthesizeAll ctx scope es
    some (t :: ts)

def synthesizeLast (ctx : WalkCtx) (scope : Scope) (receiverType : ResolvedType) : List Expr → Option ResolvedType
  | [] => some .dynamic
  | [.send _ selector args isSuper _] => do
    let argTypes ← synthesizeAll ctx scope args
    sendType u ctx isSuper receiverType selector argTypes (cascadeSlot selector)
  | [_] => some .dynamic
  | _ :: e :: es => synthesizeLast ctx scope receiverType (e :: es)

end

/-- A call of the send check: the message-send node it is for and what is passed with it. -/
structure SendCall where
  node : Expr
  isSuper : Bool
  receiverType : ResolvedType
  selector : String
  argTypes : List ResolvedType

/-- What a walk leaves: its calls of the send check, the errors, and whether a return was met. -/
structure Walked where
  calls : List SendCall
  errors : List TypeError
  foundReturn : Bool

namespace Walked

def empty : Walked := ⟨[], [], false⟩

def append (w w' : Walked) : Walked := ⟨w.calls ++ w'.calls, w.errors ++ w'.errors, w.foundReturn || w'.foundReturn⟩

@[simp] theorem empty_calls : empty.calls = [] := rfl

@[simp] theorem append_calls (w w' : Walked) : (w.append w').calls = w.calls ++ w'.calls := rfl

end Walked

def walkSend (ctx : WalkCtx) (node : Expr) (isSuper : Bool) (receiverType : ResolvedType) (selector : String)
    (argTypes : List ResolvedType) (slot : String) : Option Walked :=
  (checkSend u ctx.model ctx.className ctx.classSide isSuper receiverType selector argTypes (ctx.site slot)).map
    fun r => ⟨[⟨node, isSuper, receiverType, selector, argTypes⟩], r.2, false⟩

def untypedFrame (names : List String) : Dictionary (Option TypeExpr) :=
  names.foldl (fun frame name => frame.insert name none) ∅

mutual

def walkExpr (ctx : WalkCtx) (scope : Scope) : Expr → Option Walked
  | .selfRef _ | .var _ _ | .lit _ _ | .cascadeRcvr _ => some Walked.empty
  | .assign name value _ => do
    let inner ← walkExpr ctx scope value
    let declared ← varType u ctx scope name
    let actual ← synthesize u ctx scope value
    let errors := if subtypeOf ctx.model ctx.className [] actual declared then []
      else [.assignmentNotSubtype (ctx.site ("assignment to '" ++ name ++ "'")) name declared.display actual.display]
    some (inner.append ⟨[], errors, false⟩)
  | .send receiver selector args isSuper span => do
    let inner ← walkExpr ctx scope receiver
    let ofArgs ← walkAll ctx scope args
    let receiverType ← synthesize u ctx scope receiver
    let argTypes ← synthesizeAll u ctx scope args
    let own ← walkSend u ctx (.send receiver selector args isSuper span) isSuper receiverType selector argTypes
      (sendSlot selector)
    some ((inner.append ofArgs).append own)
  | .cascade receiver segments _ => do
    let inner ← walkExpr ctx scope receiver
    let receiverType ← synthesize u ctx scope receiver
    let rest ← walkSegments ctx scope receiverType segments
    some (inner.append rest)
  | .dynArray elems _ => walkAll ctx scope elems
  | .block params temps body _ => walkAll ctx (untypedFrame (params ++ temps) :: scope) body
  | .ret value _ => do
    let inner ← walkExpr ctx scope value
    let actual ← synthesize u ctx scope value
    let errors := if subtypeOf ctx.model ctx.className [] actual ctx.declaredReturn then []
      else [.returnNotSubtype (ctx.site "return") ctx.declaredReturn.display actual.display]
    some (inner.append ⟨[], errors, true⟩)

def walkAll (ctx : WalkCtx) (scope : Scope) : List Expr → Option Walked
  | [] => some Walked.empty
  | e :: es => do
    let w ← walkExpr ctx scope e
    let rest ← walkAll ctx scope es
    some (w.append rest)

def walkSegments (ctx : WalkCtx) (scope : Scope) (receiverType : ResolvedType) : List Expr → Option Walked
  | [] => some Walked.empty
  | .send receiver selector args isSuper span :: es => do
    let ofArgs ← walkAll ctx scope args
    let argTypes ← synthesizeAll u ctx scope args
    let own ← walkSend u ctx (.send receiver selector args isSuper span) isSuper receiverType selector argTypes
      (cascadeSlot selector)
    let rest ← walkSegments ctx scope receiverType es
    some ((ofArgs.append own).append rest)
  | _ :: es => walkSegments ctx scope receiverType es

end

end WinArmVm.Types
