import WinArmVm.VersionTable

namespace WinArmVm.ImageStore

open VersionTable (Row nextId latest Doomed Aged)

def RETENTION_LIMIT : Nat := 100

def LOAD_ORDER_START : Int := 1000

def LOAD_ORDER_STEP : Int := 100

inductive Side
  | Instance
  | Class
  deriving DecidableEq

def Side.asStr : Side → String
  | .Instance => "instance"
  | .Class => "class"

structure ClassRow where
  classId : Nat
  name : String
  loadOrder : Int

structure ClassVersion where
  superclassName : Option String
  category : String
  comment : String
  instanceVars : String
  classVars : String
  deleted : Bool

structure MethodRow where
  methodId : Nat
  classId : Nat
  selector : String
  side : Side

structure MethodVersion where
  category : String
  source : String
  deleted : Bool

structure SendRow where
  methodVersionId : Nat
  selector : String
  deriving DecidableEq

structure SignatureRow where
  methodVersionId : Nat
  retType : Option String
  argTypes : String
  tempTypes : String

/-- The tables. A row of `method_bytecode` is its version id. -/
structure Store where
  classes : List ClassRow
  classVersions : List (Row ClassVersion)
  methods : List MethodRow
  methodVersions : List (Row MethodVersion)
  methodBytecode : List Nat
  methodSends : List SendRow
  methodSignatures : List SignatureRow

def Store.empty : Store := ⟨[], [], [], [], [], [], []⟩

structure MethodKey where
  className : String
  side : Side
  selector : String
  deriving DecidableEq

inductive SqlError
  | unique
  | foreignKey
  | noRows
  deriving DecidableEq

/-- Each statement commits by itself, so an error keeps what ran before it. -/
def Db (α : Type) := Store → Except SqlError α × Store

instance : Monad Db where
  pure a := fun s => (.ok a, s)
  bind m f := fun s =>
    match m s with
    | (.ok a, s) => f a s
    | (.error e, s) => (.error e, s)

def select {α : Type} (f : Store → α) : Db α := fun s => (.ok (f s), s)

def queryRow {α : Type} (f : Store → Option α) : Db α := fun s =>
  match f s with
  | some a => (.ok a, s)
  | none => (.error .noRows, s)

def update (f : Store → Store) : Db Unit := fun s => (.ok (), f s)

structure FullClass where
  name : String
  superclass : Option String
  category : String
  comment : String
  instanceVars : String
  classVars : String
  loadOrder : Int

inductive MethodPresence
  | Live (source : String)
  | Deleted
  | Absent
  deriving DecidableEq

namespace Store

def classIdOf (s : Store) (className : String) : Option Nat :=
  (s.classes.find? (·.name = className)).map ClassRow.classId

def methodIdOf (s : Store) (key : MethodKey) : Option Nat := do
  let classId ← s.classIdOf key.className
  (s.methods.find? fun m =>
    m.classId = classId ∧ m.side = key.side ∧ m.selector = key.selector).map MethodRow.methodId

def latestClassVersion (s : Store) (classId : Nat) : Option ClassVersion :=
  (latest s.classVersions classId).map Row.content

def latestMethodVersion (s : Store) (methodId : Nat) : Option MethodVersion :=
  (latest s.methodVersions methodId).map Row.content

def classNamed (s : Store) (className : String) : Option FullClass := do
  let c ← s.classes.find? (·.name = className)
  let v ← s.latestClassVersion c.classId
  if v.deleted then none
  else some ⟨c.name, v.superclassName, v.category, v.comment, v.instanceVars, v.classVars, c.loadOrder⟩

def methodPresence (s : Store) (key : MethodKey) : MethodPresence :=
  match (s.methodIdOf key).bind s.latestMethodVersion with
  | none => .Absent
  | some v => if v.deleted then .Deleted else .Live v.source

def methodVersionCount (s : Store) (key : MethodKey) : Nat :=
  match s.methodIdOf key with
  | none => 0
  | some methodId => (VersionTable.rowsOf s.methodVersions methodId).length

def latestMethodVersionId (s : Store) (key : MethodKey) : Option Nat :=
  (s.methodIdOf key).bind fun methodId => (latest s.methodVersions methodId).map Row.id

/-- The order of the rows that `senders_of` answers. -/
def senderLe (a b : String × String × Side) : Bool := a.1 < b.1 ∨ a.1 = b.1 ∧
    (a.2.1 < b.2.1 ∨ a.2.1 = b.2.1 ∧ a.2.2.asStr ≤ b.2.2.asStr)

def sendersOf (s : Store) (selector : String) : List (String × String × Side) :=
  ((s.methodSends.filter (·.selector = selector)).flatMap fun ms =>
    (s.methodVersions.filter fun r => r.id = ms.methodVersionId ∧
        r.number = VersionTable.maxNumber s.methodVersions r.owner ∧ r.content.deleted = false).flatMap fun r =>
      (s.methods.filter (·.methodId = r.owner)).flatMap fun m =>
        (s.classes.filter (·.classId = m.classId)).map fun c =>
          (c.name, m.selector, m.side)).mergeSort senderLe

def Referenced (s : Store) (versionId : Nat) : Prop :=
  versionId ∈ s.methodBytecode ∨ (∃ ms ∈ s.methodSends, ms.methodVersionId = versionId) ∨
    ∃ sig ∈ s.methodSignatures, sig.methodVersionId = versionId

instance (s : Store) (versionId : Nat) : Decidable (s.Referenced versionId) := inferInstanceAs (Decidable (_ ∨ _ ∨ _))

def nextLoadOrder (s : Store) : Int :=
  match (s.classes.map ClassRow.loadOrder).max? with
  | some m => m + LOAD_ORDER_STEP
  | none => LOAD_ORDER_START

end Store

def insertClassRow (name : String) (loadOrder : Int) : Db Nat := fun s =>
  if s.classes.any fun c => c.name = name ∨ c.loadOrder = loadOrder then (.error .unique, s)
  else
    let classId := (s.classes.map ClassRow.classId).foldr max 0 + 1
    (.ok classId, { s with classes := s.classes ++ [⟨classId, name, loadOrder⟩] })

def insertMethodRow (classId : Nat) (selector : String) (side : Side) : Db Nat := fun s =>
  if s.methods.any fun m => m.classId = classId ∧ m.selector = selector ∧ m.side = side then
    (.error .unique, s)
  else
    let methodId := (s.methods.map MethodRow.methodId).foldr max 0 + 1
    (.ok methodId, { s with methods := s.methods ++ [⟨methodId, classId, selector, side⟩] })

/-- A version that a side table names cannot be deleted: the statement fails and deletes nothing. -/
def deleteMethodVersions (p : List (Row MethodVersion) → Row MethodVersion → Prop)
    [∀ t r, Decidable (p t r)] : Db Nat := fun s =>
  let gone := s.methodVersions.filter fun r => p s.methodVersions r
  if ∃ r ∈ gone, s.Referenced r.id then (.error .foreignKey, s)
  else (.ok gone.length, { s with methodVersions := s.methodVersions.filter fun r => ¬ p s.methodVersions r })

section

variable (sentSelectors : String → List String)

def insertSend (versionId : Nat) (selector : String) : Db Unit := update fun s =>
    if ⟨versionId, selector⟩ ∈ s.methodSends then s
    else { s with methodSends := s.methodSends ++ [⟨versionId, selector⟩] }

def insertSends (versionId : Nat) (selectors : List String) : Db Unit := selectors.forM (insertSend versionId)

def insertMethodVersion (methodId : Nat) (v : MethodVersion) : Db Unit := do
  let versionId ← select fun s => nextId s.methodVersions
  update fun s => { s with methodVersions := VersionTable.insert s.methodVersions methodId v }
  if v.deleted then pure ()
  else insertSends versionId (sentSelectors v.source)

def pruneMethodVersions (methodId : Nat) : Db Unit := do
  let _ ← deleteMethodVersions fun t r => Aged t methodId RETENTION_LIMIT r
  pure ()

def insertClassVersion (classId : Nat) (v : ClassVersion) : Db Unit :=
  update fun s => { s with classVersions := VersionTable.insert s.classVersions classId v }

def pruneClassVersions (classId : Nat) : Db Unit :=
  update fun s => { s with
    classVersions := s.classVersions.filter fun r => ¬ Aged s.classVersions classId RETENTION_LIMIT r }

def addClass (name : String) (superclass : Option String)
    (category comment instanceVars classVars : String) (loadOrder : Int) : Db Nat := do
  let classId ← insertClassRow name loadOrder
  let v : ClassVersion := ⟨superclass, category, comment, instanceVars, classVars, false⟩
  update fun s => { s with
    classVersions := s.classVersions ++ [⟨nextId s.classVersions, classId, 1, v⟩] }
  pure classId

def addMethod (key : MethodKey) (category source : String) : Db (Option Nat) := do
  match ← select fun s => s.classIdOf key.className with
  | none => pure none
  | some classId =>
    let methodId ← insertMethodRow classId key.selector key.side
    update fun s => { s with methodVersions :=
      s.methodVersions ++ [⟨nextId s.methodVersions, methodId, 1, ⟨category, source, false⟩⟩] }
    pure (some methodId)

def setMethodSource (key : MethodKey) (newSource : String) : Db Bool := do
  match ← select fun s => s.methodIdOf key with
  | none => pure false
  | some methodId =>
    let v ← queryRow fun s => s.latestMethodVersion methodId
    insertMethodVersion sentSelectors methodId ⟨v.category, newSource, false⟩
    pruneMethodVersions methodId
    pure true

def setMethodSignature (sig : SignatureRow) : Db Unit := fun s =>
  if ∃ r ∈ s.methodVersions, r.id = sig.methodVersionId then
    (.ok (), { s with methodSignatures :=
      s.methodSignatures.filter (·.methodVersionId ≠ sig.methodVersionId) ++ [sig] })
  else (.error .foreignKey, s)

def captureTypeSignature (key : MethodKey) (retType : Option String) (argTypes tempTypes : String) : Db Unit := do
  match ← select fun s => s.latestMethodVersionId key with
  | none => pure ()
  | some versionId => setMethodSignature ⟨versionId, retType, argTypes, tempTypes⟩

def setClassComment (className newComment : String) : Db Bool := do
  match ← select fun s => s.classIdOf className with
  | none => pure false
  | some classId =>
    let v ← queryRow fun s => s.latestClassVersion classId
    insertClassVersion classId { v with comment := newComment, deleted := false }
    pruneClassVersions classId
    pure true

def setClassDefinition (className : String) (newSuperclass : Option String) (newInstanceVars : String) : Db Bool := do
  match ← select fun s => s.classIdOf className with
  | none => pure false
  | some classId =>
    let v ← queryRow fun s => s.latestClassVersion classId
    insertClassVersion classId
      { v with superclassName := newSuperclass, instanceVars := newInstanceVars, deleted := false }
    pruneClassVersions classId
    pure true

def isWhitespace (c : Char) : Bool := (0x9 ≤ c.toNat && c.toNat ≤ 0xD) || (0x2000 ≤ c.toNat && c.toNat ≤ 0x200A) ||
    c.toNat ∈ [0x20, 0x85, 0xA0, 0x1680, 0x2028, 0x2029, 0x202F, 0x205F, 0x3000]

def splitWhitespace (s : String) : List String := ((s.toList.splitOnP isWhitespace).filter (· ≠ [])).map String.ofList

def unionSpaceSeparated (existing additions : String) : String := " ".intercalate ((splitWhitespace additions).foldl
    (fun out a => if a ∈ out then out else out ++ [a]) (splitWhitespace existing))

def reimportClassShell (className instanceVars classVars : String) : Db Bool := do
  match ← select fun s => s.classIdOf className with
  | none => pure false
  | some classId =>
    let v ← queryRow fun s => s.latestClassVersion classId
    let mergedIv := unionSpaceSeparated v.instanceVars instanceVars
    let mergedCv := unionSpaceSeparated v.classVars classVars
    if mergedIv = v.instanceVars ∧ mergedCv = v.classVars then pure false
    else
      insertClassVersion classId { v with instanceVars := mergedIv, classVars := mergedCv, deleted := false }
      pruneClassVersions classId
      pure true

def removeMethod (key : MethodKey) : Db Bool := do
  match ← select fun s => s.methodIdOf key with
  | none => pure false
  | some methodId =>
    let v ← queryRow fun s => s.latestMethodVersion methodId
    if v.deleted then pure false
    else
      insertMethodVersion sentSelectors methodId { v with deleted := true }
      pruneMethodVersions methodId
      pure true

def removeClass (className : String) : Db Bool := do
  match ← select fun s => s.classIdOf className with
  | none => pure false
  | some classId =>
    let v ← queryRow fun s => s.latestClassVersion classId
    if v.deleted then pure false
    else
      insertClassVersion classId { v with deleted := true }
      pruneClassVersions classId
      pure true

inductive ClassCreateOutcome
  | Created
  | Reopened
  | AlreadyLive

def createOrReopenClass (name : String) (superclass : Option String) (category comment instanceVars : String) :
    Db ClassCreateOutcome := do
  match ← select fun s => s.classIdOf name with
  | none =>
    let loadOrder ← select Store.nextLoadOrder
    let _ ← addClass name superclass category comment instanceVars "" loadOrder
    pure .Created
  | some classId =>
    let v ← queryRow fun s => s.latestClassVersion classId
    if v.deleted then
      insertClassVersion classId ⟨superclass, category, comment, instanceVars, v.classVars, false⟩
      pruneClassVersions classId
      pure .Reopened
    else pure .AlreadyLive

def createOrReopenMethod (key : MethodKey) (category source : String) : Db (Option Nat) := do
  match ← select fun s => s.classIdOf key.className with
  | none => pure none
  | some classId =>
    let methodId ← match ← select fun s => s.methodIdOf key with
      | some id => pure id
      | none => insertMethodRow classId key.selector key.side
    insertMethodVersion sentSelectors methodId ⟨category, source, false⟩
    pruneMethodVersions methodId
    pure (some methodId)

def undoMethod (key : MethodKey) : Db Bool := do
  match ← select fun s => s.methodIdOf key with
  | none => pure false
  | some methodId =>
    match ← select fun s => (VersionTable.descending s.methodVersions methodId)[1]? with
    | none => pure false
    | some previous =>
      insertMethodVersion sentSelectors methodId previous.content
      pruneMethodVersions methodId
      pure true

def undoClass (className : String) : Db Bool := do
  match ← select fun s => s.classIdOf className with
  | none => pure false
  | some classId =>
    match ← select fun s => (VersionTable.descending s.classVersions classId)[1]? with
    | none => pure false
    | some previous =>
      insertClassVersion classId previous.content
      pruneClassVersions classId
      pure true

def pruneHistory (keep : Int) : Db Nat := do
  let keep := (max keep 1).toNat
  let doomed (s : Store) (versionId : Nat) : Bool :=
    s.methodVersions.any fun r => r.id = versionId ∧ Doomed s.methodVersions keep r
  update fun s => { s with methodBytecode := s.methodBytecode.filter fun v => ¬ doomed s v }
  update fun s => { s with methodSends := s.methodSends.filter fun ms => ¬ doomed s ms.methodVersionId }
  update fun s => { s with
    methodSignatures := s.methodSignatures.filter fun sig => ¬ doomed s sig.methodVersionId }
  let removed ← deleteMethodVersions fun t r => Doomed t keep r
  let classes ← select fun s =>
    (s.classVersions.filter fun r => Doomed s.classVersions keep r).length
  update fun s => { s with
    classVersions := s.classVersions.filter fun r => ¬ Doomed s.classVersions keep r }
  pure (removed + classes)

def backfillMethodSends : Db Unit := do
  let pending ← select fun s => s.methodVersions.filter fun r =>
    r.content.deleted = false ∧ r.id ∉ s.methodSends.map SendRow.methodVersionId
  pending.forM fun r => insertSends r.id (sentSelectors r.content.source)

end

/-- One call of the crate's interface that writes. -/
inductive Edit
  | addClass (name : String) (superclass : Option String)
      (category comment instanceVars classVars : String) (loadOrder : Int)
  | createOrReopenClass (name : String) (superclass : Option String) (category comment instanceVars : String)
  | setClassComment (className newComment : String)
  | setClassDefinition (className : String) (newSuperclass : Option String) (newInstanceVars : String)
  | reimportClassShell (className instanceVars classVars : String)
  | removeClass (className : String)
  | undoClass (className : String)
  | addMethod (key : MethodKey) (category source : String)
  | createOrReopenMethod (key : MethodKey) (category source : String)
  | setMethodSource (key : MethodKey) (newSource : String)
  | removeMethod (key : MethodKey)
  | undoMethod (key : MethodKey)
  | captureTypeSignature (key : MethodKey) (retType : Option String) (argTypes tempTypes : String)
  | pruneHistory (keep : Int)
  | backfillMethodSends

section

variable (sentSelectors : String → List String)

def Db.done {α : Type} (m : Db α) : Db Unit := fun s => ((m s).1.map fun _ => (), (m s).2)

def Edit.exec : Edit → Db Unit
  | .addClass name superclass category comment instanceVars classVars loadOrder =>
    (ImageStore.addClass name superclass category comment instanceVars classVars loadOrder).done
  | .createOrReopenClass name superclass category comment instanceVars =>
    (ImageStore.createOrReopenClass name superclass category comment instanceVars).done
  | .setClassComment className newComment => (ImageStore.setClassComment className newComment).done
  | .setClassDefinition className newSuperclass newInstanceVars =>
    (ImageStore.setClassDefinition className newSuperclass newInstanceVars).done
  | .reimportClassShell className instanceVars classVars =>
    (ImageStore.reimportClassShell className instanceVars classVars).done
  | .removeClass className => (ImageStore.removeClass className).done
  | .undoClass className => (ImageStore.undoClass className).done
  | .addMethod key category source => (ImageStore.addMethod key category source).done
  | .createOrReopenMethod key category source =>
    (ImageStore.createOrReopenMethod sentSelectors key category source).done
  | .setMethodSource key newSource => (ImageStore.setMethodSource sentSelectors key newSource).done
  | .removeMethod key => (ImageStore.removeMethod sentSelectors key).done
  | .undoMethod key => (ImageStore.undoMethod sentSelectors key).done
  | .captureTypeSignature key retType argTypes tempTypes =>
    (ImageStore.captureTypeSignature key retType argTypes tempTypes).done
  | .pruneHistory keep => (ImageStore.pruneHistory keep).done
  | .backfillMethodSends => ImageStore.backfillMethodSends sentSelectors

/-- Edits one after another, also past one that fails. -/
def run (edits : List Edit) (s : Store) : Store := edits.foldl (fun s e => (e.exec sentSelectors s).2) s

end

end WinArmVm.ImageStore
