import WinArmVm.TypeText

namespace WinArmVm.Types

open Frontend ( TypeAnnotation MethodNode)

structure AnnotationSite where
  className : String
  classSide : Bool
  selector : Option String
  slot : String
deriving DecidableEq

/-- The errors of assignments, returns and sends. -/
inductive TypeError
  | assignmentNotSubtype (site : AnnotationSite) (varName declared actual : String)
  | returnNotSubtype (site : AnnotationSite) (declared actual : String)
  | selectorUndefined (site : AnnotationSite) (receiverType selector : String)
  | sendArgNotSubtype (site : AnnotationSite) (selector : String) (argIndex : Nat) (declared actual : String)
deriving DecidableEq

inductive Lookup
  | found (method : MethodNode)
  | plausibleViaDescendant
  | notFound

def climbForMethod (model : WorldModel) (selector : String) : Nat → Option String → Option MethodNode
  | 0, _ => none
  | _ + 1, none => none
  | steps + 1, some name =>
    match model.classes.lookup name with
    | none => none
    | some cls =>
      match cls.instanceMethods.lookup selector with
      | some m => some m
      | none => climbForMethod model selector steps cls.superclass

def climbsTo (model : WorldModel) (ancestor : String) : Nat → Option String → Bool
  | 0, _ => false
  | _ + 1, none => false
  | steps + 1, some name =>
    if name = ancestor then true
    else
      match model.classes.lookup name with
      | none => false
      | some cls => climbsTo model ancestor steps cls.superclass

def climbSteps (model : WorldModel) : Nat := model.classes.keys.length + 1

def isDescendantOf (model : WorldModel) (candidate ancestor : String) : Bool :=
  climbsTo model ancestor (climbSteps model) (some candidate)

def findMethod (model : WorldModel) (startClass selector : String) : Lookup :=
  match climbForMethod model selector (climbSteps model) (some startClass) with
  | some m => .found m
  | none =>
    if model.classes.entries.any fun c =>
        c.2.instanceMethods.keys.contains selector && isDescendantOf model c.1 startClass
    then .plausibleViaDescendant
    else .notFound

/-- The class a send is looked up in, if its receiver's type names one; `Self` does not. -/
def receiverHead : ResolvedType → Option String
  | .written (.named n) => if n = "Self" then none else some n
  | .written (.generic head _) => if head = "Self" then none else some head
  | _ => none

variable (u : CharClass)

/-- The annotation's type, `Dynamic` for none and for a malformed one; none where the parse panics. -/
def resolveCaptured (ann : Option TypeAnnotation) : Option ResolvedType :=
  match ann with
  | none => some .dynamic
  | some a =>
    match parse u a.text.toList with
    | .ok e => some (.written e)
    | .error (.failed _) => some .dynamic
    | .error _ => none

def checkArg (model : WorldModel) (selfClass : String) (site : AnnotationSite) (selector : String) (i : Nat)
    (declared actual : ResolvedType) : List TypeError :=
  if subtypeOf model selfClass [] actual declared then []
  else [.sendArgNotSubtype site selector i declared.display actual.display]

/-- The errors of the arguments from the i-th on. -/
def checkArgs (model : WorldModel) (selfClass : String) (site : AnnotationSite) (selector : String) :
    Nat → List (Option TypeAnnotation) → List ResolvedType → Option (List TypeError)
  | i, formal :: formals, actual :: actuals => do
    let declared ← resolveCaptured u formal
    let errors ← checkArgs model selfClass site selector (i + 1) formals actuals
    some (checkArg model selfClass site selector i declared actual ++ errors)
  | _, _, _ => some []

def lookupHead (model : WorldModel) (selfClass : String) (checkingClassSide isSuper : Bool)
    (receiverType : ResolvedType) : Option String :=
  if isSuper then
    if checkingClassSide then none else model.superclass selfClass
  else receiverHead receiverType

/-- The type a send answers and the errors it reports; none where a declared type's parse panics. -/
def checkSend (model : WorldModel) (selfClass : String) (checkingClassSide isSuper : Bool) (receiverType : ResolvedType)
    (selector : String) (argTypes : List ResolvedType) (site : AnnotationSite) :
    Option (ResolvedType × List TypeError) :=
  match lookupHead model selfClass checkingClassSide isSuper receiverType with
  | none => some (.dynamic, [])
  | some head =>
    match findMethod model head selector with
    | .plausibleViaDescendant => some (.dynamic, [])
    | .notFound => some (.dynamic, [.selectorUndefined site receiverType.display selector])
    | .found method =>
      if method.params.length ≠ argTypes.length then some (.dynamic, [])
      else do
        let errors ← checkArgs u model selfClass site selector 0 method.typeSig.paramTypes argTypes
        let declared ← resolveCaptured u method.typeSig.returnType
        -- only a bare `Self` is read as the receiver's class
        some (if declared = .named "Self" then .named (if isSuper then selfClass else head) else declared, errors)

end WinArmVm.Types
