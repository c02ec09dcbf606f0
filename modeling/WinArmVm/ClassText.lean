import WinArmVm.ImageStore
import WinArmVm.MstScanner

namespace WinArmVm.ImageStore

open Mst (trim trimEnd parseMstSource)
open WinArmVm.Types (CharClass)

structure FullMethod where
  selector : String
  side : Side
  category : String
  source : String

def Store.fullMethod (s : Store) (m : MethodRow) : Option FullMethod :=
  match s.latestMethodVersion m.methodId with
  | some v => if v.deleted then none else some ⟨m.selector, m.side, v.category, v.source⟩
  | none => none

def Store.allMethodsOf (s : Store) (className : String) : List FullMethod :=
  ((s.methods.filter fun m => s.classIdOf className = some m.classId).insertionSort
    fun a b => a.methodId ≤ b.methodId).filterMap s.fullMethod

/-- The variables are written where `withHeader` is, and only if there are any. -/
def classBlock (superclass name instanceVars classVars : List Char) (methodSources : List (List Char))
    (withHeader : Bool) : List Char :=
  superclass ++ " subclass: ".toList ++ name ++ " [\n".toList ++ (if withHeader then
      (if trim instanceVars = [] then [] else "    | ".toList ++ trim instanceVars ++ " |\n".toList) ++
      (if trim classVars = [] then [] else "    <classVars: ".toList ++ trim classVars ++ ">\n".toList)
    else []) ++
    methodSources.flatMap (fun src => "    ".toList ++ trimEnd src ++ ['\n']) ++ "]\n".toList

def Store.classSource (s : Store) (className : String) : Option String := do
  let c ← s.classNamed className
  let sources := (s.allMethodsOf className).map FullMethod.source
  some (String.ofList (classBlock (c.superclass.getD "Object").toList c.name.toList c.instanceVars.toList
    c.classVars.toList (sources.map String.toList) true))

/-- The answer of a save. -/
inductive SaveSummary
  | nothing
  | noChanges (name : String)
  | saved (name : String) (changed added removed : Nat)
deriving DecidableEq

def SaveSummary.text : SaveSummary → String
  | .nothing => "nothing to save (no class definition in the buffer)"
  | .noChanges name => name ++ " — no changes"
  | .saved name changed added removed =>
    s!"saved {name} ({changed} changed, {added} added, {removed} removed)"

section

variable (sentSelectors : String → List String)

structure SaveState where
  store : Store
  changed : Nat
  added : Nat
  removed : Nat

def storedSource (rows : List FullMethod) (selector : String) (side : Side) : Option String :=
  (rows.reverse.find? fun r => r.selector = selector ∧ r.side = side).map FullMethod.source

def sideOf (m : Mst.ParsedMethod) : Side := if m.isClassSide then .Class else .Instance

/-- A method whose source is stored already is left alone. A failing call is ignored. -/
def saveOne (name : String) (rows : List FullMethod) (st : SaveState) (m : Mst.ParsedMethod) : SaveState :=
  let source := String.ofList m.source
  let key : MethodKey := ⟨name, sideOf m, String.ofList m.selector⟩
  match storedSource rows key.selector key.side with
  | some old =>
    if old = source then st
    else { st with store := (createOrReopenMethod sentSelectors key "" source st.store).2, changed := st.changed + 1 }
  | none => { st with store := (createOrReopenMethod sentSelectors key "" source st.store).2, added := st.added + 1 }

def removeGone (name : String) (methods : List Mst.ParsedMethod) (st : SaveState) (r : FullMethod) : SaveState :=
  if methods.any fun m => String.ofList m.selector = r.selector ∧ sideOf m = r.side then st
  else { st with store := (removeMethod sentSelectors ⟨name, r.side, r.selector⟩ st.store).2, removed := st.removed + 1 }

def persistEditorClass (u : CharClass) (text : String) (s : Store) : SaveSummary × Store :=
  match (parseMstSource u text.toList).head? with
  | none => (.nothing, s)
  | some cls =>
    let name := String.ofList cls.name
    let superclass := cls.superclass.map String.ofList
    let instanceVars := String.ofList cls.instanceVars
    let s := (createOrReopenClass name superclass "" "" instanceVars s).2
    let s := (setClassDefinition name superclass instanceVars s).2
    let rows := s.allMethodsOf name
    let st := cls.methods.foldl (saveOne sentSelectors name rows) ⟨s, 0, 0, 0⟩
    let st := rows.foldl (removeGone sentSelectors name cls.methods) st
    if st.changed + st.added + st.removed = 0 then (.noChanges name, st.store)
    else (.saved name st.changed st.added st.removed, st.store)

/-- Opening a class and saving its text changes nothing: the save says so, records no new method version,
and leaves the header and the methods as they were. -/
structure SaveUnchanged (u : CharClass) (s : Store) (name : String) : Prop where
  saved : ∃ text s', s.classSource name = some text ∧ persistEditorClass sentSelectors u text s = (.noChanges name, s') ∧
    s'.methods = s.methods ∧ s'.methodVersions = s.methodVersions ∧
    (s'.classNamed name).map (fun c => (c.superclass, c.instanceVars, c.classVars)) =
      (s.classNamed name).map (fun c => (c.superclass, c.instanceVars, c.classVars))

end

end WinArmVm.ImageStore
