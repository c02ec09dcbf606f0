import WinArmVm.FrontendAst
import WinArmVm.HeapObject

namespace WinArmVm.Frontend

/-- What a global or a class variable is bound to. A klass is its number. -/
inductive Bound
  | nil
  | klass (id : Nat)
  | other (id : Nat)
deriving DecidableEq, Repr

structure ClassVar where
  name : String
  assoc : Nat
deriving DecidableEq, Repr

/-- A klass with its metaclass: of the latter only the methods are of use here. -/
structure KlassInfo (Code : Type) where
  superclass : Bound
  name : String
  format : Format
  untagged : Bool
  nis : Nat
  instVarNames : List String
  classVars : List ClassVar
  methods : String → Option Code
  classMethods : String → Option Code

/-- The klasses, the global namespace and the values of the class variables' associations. -/
structure World (Code : Type) where
  klasses : List (KlassInfo Code)
  globals : List (String × Bound)
  values : List Bound

/-- What the compiler takes from the world: the flattened instance variables, the class
variables and the globals by their associations. -/
structure Names where
  instVars : List String
  classVar : String → Option Nat
  global : String → Bool

namespace World

variable {Code : Type}

def globalLookup (w : World Code) (name : String) : Option Bound := (w.globals.find? fun g => g.1 == name).map Prod.snd

def storeFirst (name : String) (b : Bound) : List (String × Bound) → List (String × Bound)
  | [] => []
  | g :: rest => if g.1 == name then (name, b) :: rest else g :: storeFirst name b rest

/-- `global_declare`, and the store of the klass into the association. -/
def globalBind (w : World Code) (name : String) (b : Bound) : World Code :=
  match w.globalLookup name with
  | some _ => { w with globals := storeFirst name b w.globals }
  | none => { w with globals := w.globals ++ [(name, b)] }

/-- `KlassOop::try_from`. -/
def asKlass (w : World Code) : Bound → Option (Fin w.klasses.length)
  | .klass id => if h : id < w.klasses.length then some ⟨id, h⟩ else none
  | _ => none

/-- The klass and its superclasses. A superclass is older than its subclasses, so there are
no more than its number says. -/
def chainFrom (w : World Code) : Nat → Nat → List (KlassInfo Code)
  | 0, _ => []
  | fuel + 1, id =>
    match w.klasses[id]? with
    | none => []
    | some k =>
      match w.asKlass k.superclass with
      | none => [k]
      | some s => k :: w.chainFrom fuel s.val

def chain (w : World Code) (id : Nat) : List (KlassInfo Code) := w.chainFrom (id + 1) id

def flattenInstVars (w : World Code) (id : Nat) : List String := (w.chain id).reverse.flatMap fun k => k.instVarNames

def findClassVar (w : World Code) (id : Nat) (name : String) : Option Nat :=
  (w.chain id).findSome? fun k => (k.classVars.find? fun v => v.name == name).map ClassVar.assoc

def names (w : World Code) (id : Nat) (classSide : Bool) : Names where
  instVars := if classSide then [] else w.flattenInstVars id
  classVar := w.findClassVar id
  global name := (w.globalLookup name).isSome

def updateKlass (w : World Code) (id : Nat) (f : KlassInfo Code → KlassInfo Code) : World Code :=
  { w with klasses := w.klasses.modify id f }

/-- A fresh association, unless the klass or one above it has the variable. -/
def appendClassVar (w : World Code) (id : Nat) (name : String) : World Code :=
  match w.findClassVar id name with
  | some _ => w
  | none =>
    let assoc := w.values.length
    { w with values := w.values ++ [Bound.nil] }.updateKlass id fun k =>
      { k with classVars := k.classVars ++ [ClassVar.mk name assoc] }

def appendClassVars (w : World Code) (id : Nat) (names : List String) : World Code :=
  names.foldl (fun w name => w.appendClassVar id name) w

def createKlass (w : World Code) (super : Fin w.klasses.length) (node : ClassDefNode) : Nat × World Code :=
  let superKlass := w.klasses[super]
  let format : Format := match node.indexable with
    | some .oops => .indexableOops
    | some .bytes => .indexableBytes
    | none => superKlass.format
  let untagged : Bool := match node.indexable with
    | some .oops => false
    | some .bytes => true
    | none => superKlass.untagged
  let id := w.klasses.length
  let k : KlassInfo Code := {
    superclass := .klass super.val
    name := node.name
    format := format
    untagged := untagged
    nis := superKlass.nis + node.instVars.length
    instVarNames := node.instVars
    classVars := []
    methods := fun _ => none
    classMethods := fun _ => none }
  (id, { w with klasses := w.klasses ++ [k] }.appendClassVars id node.classVars)

def error (span : Span) (msg : String) : CompileError := ⟨span, msg, false⟩

/-- The declared superclass must be the klass's own, and its shape may only be said again:
its own instance variables in their order, or none. -/
def reopenKlass (w : World Code) (id : Fin w.klasses.length) (declaredSuper : Bound) (node : ClassDefNode) :
    Except CompileError (World Code) :=
  let k := w.klasses[id]
  if k.superclass ≠ declaredSuper then
    .error (error node.span ("cannot change shape of existing class " ++ node.name ++ ": superclass differs"))
  else if node.indexable.isSome then
    .error (error node.span ("cannot change shape of existing class " ++ node.name))
  else if node.instVars ≠ [] ∧ k.instVarNames ≠ node.instVars then
    .error (error node.span ("cannot change shape of existing class " ++ node.name))
  else .ok (w.appendClassVars id node.classVars)

def resolveSuperTarget (w : World Code) (node : ClassDefNode) : Except CompileError Bound :=
  if node.superclass = "nil" then .ok .nil
  else
    match w.globalLookup node.superclass with
    | some b => .ok b
    | none => .error (error node.span ("superclass '" ++ node.superclass ++ "' not found"))

def openClass (w : World Code) (node : ClassDefNode) : Except CompileError (Nat × World Code) :=
  match w.globalLookup node.name with
  | none => do
    let target ← w.resolveSuperTarget node
    match w.asKlass target with
    | none => .error (error node.span ("'" ++ node.superclass ++ "' is not a class"))
    | some super => .ok (w.createKlass super node)
  | some b =>
    match w.asKlass b with
    | none => .error (error node.span ("'" ++ node.name ++ "' is already bound to a non-class value"))
    | some existing => do
      let target ← w.resolveSuperTarget node
      let w' ← w.reopenKlass existing target node
      .ok (existing.val, w')

def installMethod (w : World Code) (id : Nat) (classSide : Bool) (selector : String) (code : Code) : World Code :=
  w.updateKlass id fun k =>
    if classSide then { k with classMethods := Function.update k.classMethods selector (some code) }
    else { k with methods := Function.update k.methods selector (some code) }

end World

/-- What the compiler makes of a method of a klass. -/
abbrev Compiler (Code : Type) := Names → MethodNode → Except CompileError Code

namespace World

variable {Code : Type} (compileMethod : Compiler Code)

/-- One method after another; those before an error stay installed. -/
def installMethods (id : Nat) : List MethodNode → World Code → Except CompileError Unit × World Code
  | [], w => (.ok (), w)
  | method :: rest, w =>
    match compileMethod (w.names id method.classSide) method with
    | .error e => (.error e, w)
    | .ok code => installMethods id rest (w.installMethod id method.classSide method.patternSelector code)

def installClassDef (w : World Code) (node : ClassDefNode) : Except CompileError Unit × World Code :=
  match w.openClass node with
  | .error e => (.error e, w)
  | .ok (id, w) => installMethods compileMethod id node.methods (w.globalBind node.name (.klass id))

end World

end WinArmVm.Frontend
