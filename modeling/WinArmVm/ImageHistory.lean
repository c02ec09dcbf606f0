import WinArmVm.ImageStore

namespace WinArmVm.ImageStore

open List Option Function

open VersionTable (Row history newest Ordered history_insert history_edit)

structure Histories where
  classes : String → List ClassVersion
  methods : MethodKey → List MethodVersion
  orders : List Int

namespace Histories

def empty : Histories := ⟨fun _ => [], fun _ => [], []⟩

def editClass (h : Histories) (name : String) (v : ClassVersion) : Histories :=
  { h with classes := Function.update h.classes name (newest RETENTION_LIMIT (h.classes name ++ [v])) }

def editMethod (h : Histories) (key : MethodKey) (v : MethodVersion) : Histories :=
  { h with methods := Function.update h.methods key (newest RETENTION_LIMIT (h.methods key ++ [v])) }

def newClass (h : Histories) (name : String) (v : ClassVersion) (order : Int) : Histories :=
  { h with classes := Function.update h.classes name [v], orders := h.orders ++ [order] }

def amendClass (h : Histories) (name : String) (f : ClassVersion → Option ClassVersion) : Histories :=
  match (h.classes name).getLast?.bind f with
  | none => h
  | some v => h.editClass name v

def amendMethod (h : Histories) (key : MethodKey) (f : MethodVersion → Option MethodVersion) : Histories :=
  match (h.methods key).getLast?.bind f with
  | none => h
  | some v => h.editMethod key v

def before {α : Type} (l : List α) : Option α := l.dropLast.getLast?

def nextOrder (h : Histories) : Int :=
  match h.orders.max? with
  | some m => m + LOAD_ORDER_STEP
  | none => LOAD_ORDER_START

def apply (h : Histories) : Edit → Histories
  | .addClass name superclass category comment instanceVars classVars loadOrder =>
    if h.classes name = [] ∧ loadOrder ∉ h.orders then
      h.newClass name ⟨superclass, category, comment, instanceVars, classVars, false⟩ loadOrder
    else h
  | .createOrReopenClass name superclass category comment instanceVars =>
    if h.classes name = [] then
      h.newClass name ⟨superclass, category, comment, instanceVars, "", false⟩ h.nextOrder
    else h.amendClass name fun v =>
      if v.deleted then some ⟨superclass, category, comment, instanceVars, v.classVars, false⟩ else none
  | .setClassComment name newComment =>
    h.amendClass name fun v => some { v with comment := newComment, deleted := false }
  | .setClassDefinition name newSuperclass newInstanceVars =>
    h.amendClass name fun v =>
      some { v with superclassName := newSuperclass, instanceVars := newInstanceVars, deleted := false }
  | .reimportClassShell name instanceVars classVars =>
    h.amendClass name fun v =>
      let mergedIv := unionSpaceSeparated v.instanceVars instanceVars
      let mergedCv := unionSpaceSeparated v.classVars classVars
      if mergedIv = v.instanceVars ∧ mergedCv = v.classVars then none
      else some { v with instanceVars := mergedIv, classVars := mergedCv, deleted := false }
  | .removeClass name =>
    h.amendClass name fun v => if v.deleted then none else some { v with deleted := true }
  | .undoClass name =>
    match before (h.classes name) with
    | none => h
    | some v => h.editClass name v
  | .addMethod key category source =>
    if h.classes key.className ≠ [] ∧ h.methods key = [] then
      { h with methods := Function.update h.methods key [⟨category, source, false⟩] }
    else h
  | .createOrReopenMethod key category source =>
    if h.classes key.className = [] then h else h.editMethod key ⟨category, source, false⟩
  | .setMethodSource key newSource =>
    h.amendMethod key fun v => some ⟨v.category, newSource, false⟩
  | .removeMethod key =>
    h.amendMethod key fun v => if v.deleted then none else some { v with deleted := true }
  | .undoMethod key =>
    match before (h.methods key) with
    | none => h
    | some v => h.editMethod key v
  | .captureTypeSignature _ _ _ _ => h
  | .pruneHistory keep =>
    { h with
      classes := fun name => newest (max keep 1).toNat (h.classes name)
      methods := fun key => newest (max keep 1).toNat (h.methods key) }
  | .backfillMethodSends => h

def accepts (h : Histories) : Edit → Bool
  | .addClass name _ _ _ _ _ loadOrder => h.classes name = [] ∧ loadOrder ∉ h.orders
  | .addMethod key _ _ => h.classes key.className = [] ∨ h.methods key = []
  | _ => true

def presence (h : Histories) (key : MethodKey) : MethodPresence :=
  match (h.methods key).getLast? with
  | none => .Absent
  | some v => if v.deleted then .Deleted else .Live v.source

def header (h : Histories) (name : String) : Option ClassVersion :=
  (h.classes name).getLast?.filter fun v => v.deleted = false

end Histories

namespace Store

def classHistory (s : Store) (name : String) : List ClassVersion :=
  match s.classIdOf name with
  | none => []
  | some id => history s.classVersions id

def methodHistory (s : Store) (key : MethodKey) : List MethodVersion :=
  match s.methodIdOf key with
  | none => []
  | some id => history s.methodVersions id

def abs (s : Store) : Histories := ⟨s.classHistory, s.methodHistory, s.classes.map ClassRow.loadOrder⟩

/-- The tables are in order; where `indexed` holds, the senders index is that of the sources too. -/
structure Valid (indexed : Prop) (sentSelectors : String → List String) (s : Store) : Prop where
  classIds : (s.classes.map ClassRow.classId).Nodup
  classNames : (s.classes.map ClassRow.name).Nodup
  classVersions : Ordered s.classVersions
  classOwned : ∀ r ∈ s.classVersions, r.owner ∈ s.classes.map ClassRow.classId
  classKept : ∀ c ∈ s.classes, history s.classVersions c.classId ≠ []
  methodIds : (s.methods.map MethodRow.methodId).Nodup
  methodKeys : (s.methods.map fun m => (m.classId, m.side, m.selector)).Nodup
  methodClass : ∀ m ∈ s.methods, m.classId ∈ s.classes.map ClassRow.classId
  methodVersions : Ordered s.methodVersions
  methodOwned : ∀ r ∈ s.methodVersions, r.owner ∈ s.methods.map MethodRow.methodId
  methodKept : ∀ m ∈ s.methods, history s.methodVersions m.methodId ≠ []
  refs : ∀ v, s.Referenced v → v ∈ s.methodVersions.map Row.id
  sends : indexed → ∀ r ∈ s.methodVersions, ∀ x, ⟨r.id, x⟩ ∈ s.methodSends ↔
    r.content.deleted = false ∧ x ∈ sentSelectors r.content.source

end Store

variable {α β : Type} {name : String} {f : α → Db β}

theorem bind_ok {m : Db α} {s t : Store} {a : α} (h : m s = (.ok a, t)) : (m >>= f) s = f a t := by
  simp only [Bind.bind, h]

theorem bind_error {m : Db α} {s t : Store} {e : SqlError} (h : m s = (.error e, t)) : (m >>= f) s = (.error e, t) := by
  simp only [Bind.bind, h]

theorem select_bind (g : Store → α) (f : α → Db β) (s : Store) : (select g >>= f) s = f (g s) s := rfl

theorem update_bind {β : Type} (g : Store → Store) (f : Unit → Db β) (s : Store) :
    (update g >>= f) s = f () (g s) := rfl

theorem queryRow_bind {g : Store → Option α} {s : Store} {a : α} (h : g s = some a) : (queryRow g >>= f) s = f a s := by
  apply bind_ok
  unfold queryRow
  rw [h]

theorem pure_apply {α : Type} (a : α) (s : Store) : (pure a : Db α) s = (.ok a, s) := rfl

variable {indexed : Prop} {sentSelectors : String → List String} {s t : Store}

namespace Store

variable {id : Nat} {name : String} {key : MethodKey}

theorem classIdOf_eq_some (h : (s.classes.map ClassRow.name).Nodup) :
    s.classIdOf name = some id ↔ ∃ c ∈ s.classes, c.name = name ∧ c.classId = id := by
  unfold classIdOf
  rw [map_eq_some_iff]
  constructor
  · intro ⟨c, hfind, hid⟩
    have hname : c.name = name := by simpa using find?_some hfind
    exact ⟨c, mem_of_find?_eq_some hfind, hname, hid⟩
  · intro ⟨c, hc, hname, hid⟩
    obtain ⟨d, hfind⟩ : ∃ d, s.classes.find? (·.name = name) = some d := by
      rw [← isSome_iff_exists, find?_isSome]
      exact ⟨c, hc, decide_eq_true hname⟩
    have hd : d.name = name := by simpa using find?_some hfind
    have hsame := inj_on_of_nodup_map h (mem_of_find?_eq_some hfind) hc (hd.trans hname.symm)
    exact ⟨d, hfind, by rw [hsame, hid]⟩

section

variable (h : s.Valid indexed sentSelectors)

include h

theorem Valid.classIdOf_inj {a b : String} (ha : s.classIdOf a = some id) (hb : s.classIdOf b = some id) : a = b := by
  obtain ⟨c, hc, hca, hcid⟩ := (classIdOf_eq_some h.classNames).mp ha
  obtain ⟨d, hd, hdb, hdid⟩ := (classIdOf_eq_some h.classNames).mp hb
  have hsame := inj_on_of_nodup_map h.classIds hc hd (hcid.trans hdid.symm)
  rw [← hca, ← hdb, hsame]

theorem Valid.methodIdOf_eq_some :
    s.methodIdOf key = some id ↔ ∃ m ∈ s.methods, s.classIdOf key.className = some m.classId ∧
      m.side = key.side ∧ m.selector = key.selector ∧ m.methodId = id := by
  unfold methodIdOf
  rw [bind_eq_bind, bind_eq_some_iff]
  constructor
  · intro ⟨classId, hclass, hm⟩
    obtain ⟨m, hfind, hid⟩ := map_eq_some_iff.mp hm
    obtain ⟨hmc, hside, hsel⟩ : m.classId = classId ∧ m.side = key.side ∧ m.selector = key.selector := by
      simpa using find?_some hfind
    exact ⟨m, mem_of_find?_eq_some hfind, by rw [hclass, hmc], hside, hsel, hid⟩
  · intro ⟨m, hm, hclass, hside, hsel, hid⟩
    refine ⟨m.classId, hclass, ?_⟩
    obtain ⟨d, hfind⟩ : ∃ d, s.methods.find? (fun v =>
        v.classId = m.classId ∧ v.side = key.side ∧ v.selector = key.selector) = some d := by
      rw [← isSome_iff_exists, find?_isSome]
      exact ⟨m, hm, decide_eq_true ⟨rfl, hside, hsel⟩⟩
    obtain ⟨hdc, hdside, hdsel⟩ : d.classId = m.classId ∧ d.side = key.side ∧ d.selector = key.selector := by
      simpa using find?_some hfind
    have hsame := inj_on_of_nodup_map h.methodKeys (mem_of_find?_eq_some hfind) hm
      (by rw [hdc, hdside, hdsel, hside, hsel])
    rw [hfind, map_some, hsame, hid]

theorem Valid.methodIdOf_inj {a b : MethodKey}
    (ha : s.methodIdOf a = some id) (hb : s.methodIdOf b = some id) : a = b := by
  obtain ⟨m, hm, hca, hsa, hna, hida⟩ := h.methodIdOf_eq_some.mp ha
  obtain ⟨v, hv, hcb, hsb, hnb, hidb⟩ := h.methodIdOf_eq_some.mp hb
  have hsame := inj_on_of_nodup_map h.methodIds hm hv (hida.trans hidb.symm)
  rw [← hsame] at hcb hsb hnb
  have hname := h.classIdOf_inj hca hcb
  cases a
  cases b
  simp_all

theorem Valid.classKept_of_classIdOf (hid : s.classIdOf name = some id) : history s.classVersions id ≠ [] := by
  obtain ⟨c, hc, _, hcid⟩ := (classIdOf_eq_some h.classNames).mp hid
  rw [← hcid]
  exact h.classKept c hc

theorem Valid.methodKept_of_methodIdOf (hid : s.methodIdOf key = some id) : history s.methodVersions id ≠ [] := by
  obtain ⟨m, hm, _, _, _, hmid⟩ := h.methodIdOf_eq_some.mp hid
  rw [← hmid]
  exact h.methodKept m hm

theorem Valid.classHistory_eq_nil : s.classHistory name = [] ↔ s.classIdOf name = none := by
  unfold classHistory
  split
  next hnone => simp [hnone]
  next id hid => simp [hid, h.classKept_of_classIdOf hid]

theorem Valid.methodHistory_eq_nil : s.methodHistory key = [] ↔ s.methodIdOf key = none := by
  unfold methodHistory
  split
  next hnone => simp [hnone]
  next id hid => simp [hid, h.methodKept_of_methodIdOf hid]

omit h in
theorem latestClassVersion_eq (h : Ordered s.classVersions) (id : Nat) :
    s.latestClassVersion id = (history s.classVersions id).getLast? := by
  unfold latestClassVersion history
  rw [VersionTable.latest_eq h, getLast?_map]

omit h in
theorem latestMethodVersion_eq (h : Ordered s.methodVersions) (id : Nat) :
    s.latestMethodVersion id = (history s.methodVersions id).getLast? := by
  unfold latestMethodVersion history
  rw [VersionTable.latest_eq h, getLast?_map]

theorem Valid.latestClass_eq (hid : s.classIdOf name = some id) :
    ∃ v, s.latestClassVersion id = some v ∧ (s.abs.classes name).getLast? = some v := by
  have hkept := h.classKept_of_classIdOf hid
  refine ⟨_, (latestClassVersion_eq h.classVersions id).trans (getLast?_eq_some_getLast hkept), ?_⟩
  show (s.classHistory name).getLast? = _
  unfold classHistory
  rw [hid]
  exact getLast?_eq_some_getLast hkept

theorem Valid.latestMethod_eq (hid : s.methodIdOf key = some id) :
    ∃ v, s.latestMethodVersion id = some v ∧ (s.abs.methods key).getLast? = some v := by
  have hkept := h.methodKept_of_methodIdOf hid
  refine ⟨_, (latestMethodVersion_eq h.methodVersions id).trans (getLast?_eq_some_getLast hkept), ?_⟩
  show (s.methodHistory key).getLast? = _
  unfold methodHistory
  rw [hid]
  exact getLast?_eq_some_getLast hkept

end

def saveClass (s : Store) (id : Nat) (v : ClassVersion) : Store :=
  { s with classVersions := VersionTable.edit s.classVersions id RETENTION_LIMIT v }

theorem Valid.saveClass (h : s.Valid indexed sentSelectors)
    (hid : s.classIdOf name = some id) (v : ClassVersion) : (s.saveClass id v).Valid indexed sentSelectors := by
  obtain ⟨c, hc, _, hcid⟩ := (classIdOf_eq_some h.classNames).mp hid
  refine { h with classVersions := h.classVersions.edit .., classOwned := fun r hr => ?_, classKept := fun d hd => ?_ }
  · rcases VersionTable.mem_insert (mem_of_mem_filter hr) with hr | rfl
    · exact h.classOwned r hr
    · exact mem_map.mpr ⟨c, hc, hcid⟩
  · show history (VersionTable.edit ..) _ ≠ []
    rw [history_edit h.classVersions]
    split
    next => exact VersionTable.newest_ne_nil (by decide) (by simp)
    next => exact h.classKept d hd

theorem Valid.abs_saveClass (h : s.Valid indexed sentSelectors) (hid : s.classIdOf name = some id) (v : ClassVersion) :
    (s.saveClass id v).abs = s.abs.editClass name v := by
  have hclasses : (s.saveClass id v).classHistory =
      Function.update s.classHistory name (newest RETENTION_LIMIT (s.classHistory name ++ [v])) := by
    funext other
    have hsame : (s.saveClass id v).classIdOf other = s.classIdOf other := rfl
    by_cases he : other = name
    · rw [he, update_self]
      unfold classHistory
      rw [← he, hsame, he, hid]
      exact (history_edit h.classVersions ..).trans (if_pos rfl)
    · rw [update_of_ne he]
      unfold classHistory
      rw [hsame]
      split
      next => rfl
      next id' hid' =>
        have hne : id' ≠ id := fun hii => he (h.classIdOf_inj (hii ▸ hid') hid)
        exact (history_edit h.classVersions ..).trans (if_neg hne)
  unfold abs Histories.editClass
  rw [hclasses]
  rfl

end Store

/-- A call that does to the tables what is due to the histories, and fails where it should. -/
structure Refined (indexed : Prop) (sentSelectors : String → List String) (h : Histories) (accepted : Bool)
    (r : Except SqlError Unit × Store) : Prop where
  valid : r.2.Valid indexed sentSelectors
  abs : r.2.abs = h
  accepted : r.1.isOk = accepted

theorem Refined.of_ok {α : Type} {m : Db α} {a : α} {g : Histories} (hm : m s = (.ok a, t))
    (hv : t.Valid indexed sentSelectors) (ha : t.abs = g) : Refined indexed sentSelectors g true (m.done s) := by
  unfold Db.done
  rw [hm]
  exact ⟨hv, ha, rfl⟩

theorem Refined.of_error {α : Type} {m : Db α} {e : SqlError} {g : Histories} (hm : m s = (.error e, s))
    (hv : s.Valid indexed sentSelectors) (ha : s.abs = g) : Refined indexed sentSelectors g false (m.done s) := by
  unfold Db.done
  rw [hm]
  exact ⟨hv, ha, rfl⟩

namespace Store

theorem abs_classes_of_none {name : String} (hid : s.classIdOf name = none) : s.abs.classes name = [] := by
  show s.classHistory name = []
  unfold classHistory
  rw [hid]

variable {id : Nat} {key : MethodKey}

theorem abs_classes_of_some {name : String} (hid : s.classIdOf name = some id) :
    s.abs.classes name = history s.classVersions id := by
  show s.classHistory name = _
  unfold classHistory
  rw [hid]

theorem abs_methods_of_none (hid : s.methodIdOf key = none) : s.abs.methods key = [] := by
  show s.methodHistory key = []
  unfold methodHistory
  rw [hid]

theorem abs_methods_of_some (hid : s.methodIdOf key = some id) : s.abs.methods key = history s.methodVersions id := by
  show s.methodHistory key = _
  unfold methodHistory
  rw [hid]

theorem Valid.abs_amendClass (h : s.Valid indexed sentSelectors) {name : String}
    (hid : s.classIdOf name = some id) {v w : ClassVersion} (hlast : (s.abs.classes name).getLast? = some v)
    {f : ClassVersion → Option ClassVersion} (hf : f v = some w) :
    (s.saveClass id w).abs = s.abs.amendClass name f := by
  unfold Histories.amendClass
  rw [hlast, bind_some, hf]
  exact h.abs_saveClass hid w

end Store

open Store

theorem amendClass_refined (h : s.Valid indexed sentSelectors) {m : Db Bool}
    {f : ClassVersion → Option ClassVersion} (hnone : s.classIdOf name = none → m s = (.ok false, s))
    (hsome : ∀ id v, s.classIdOf name = some id → s.latestClassVersion id = some v →
      m s = match f v with
        | none => (.ok false, s)
        | some w => (.ok true, s.saveClass id w)) :
    Refined indexed sentSelectors (s.abs.amendClass name f) true (m.done s) := by
  rcases hid : s.classIdOf name with _ | id
  · apply Refined.of_ok (hnone hid) h
    unfold Histories.amendClass
    rw [abs_classes_of_none hid]
    rfl
  · obtain ⟨v, hv, hlast⟩ := h.latestClass_eq hid
    have hm := hsome id v hid hv
    rcases hf : f v with _ | w
    · rw [hf] at hm
      apply Refined.of_ok hm h
      unfold Histories.amendClass
      rw [hlast, bind_some, hf]
    · rw [hf] at hm
      exact Refined.of_ok hm (h.saveClass hid w) (h.abs_amendClass hid hlast hf)

theorem setClassComment_refined (h : s.Valid indexed sentSelectors) (name newComment : String) :
    Refined indexed sentSelectors (s.abs.apply (.setClassComment name newComment)) true
      ((setClassComment name newComment).done s) := by
  apply amendClass_refined h
  · intro hid
    unfold setClassComment
    rw [select_bind, hid]
    rfl
  · intro id v hid hv
    unfold setClassComment
    rw [select_bind, hid]
    exact queryRow_bind hv

theorem setClassDefinition_refined (h : s.Valid indexed sentSelectors) (name : String)
    (newSuperclass : Option String) (newInstanceVars : String) :
    Refined indexed sentSelectors (s.abs.apply (.setClassDefinition name newSuperclass newInstanceVars)) true
      ((setClassDefinition name newSuperclass newInstanceVars).done s) := by
  apply amendClass_refined h
  · intro hid
    unfold setClassDefinition
    rw [select_bind, hid]
    rfl
  · intro id v hid hv
    unfold setClassDefinition
    rw [select_bind, hid]
    exact queryRow_bind hv

theorem reimportClassShell_refined (h : s.Valid indexed sentSelectors) (name instanceVars classVars : String) :
    Refined indexed sentSelectors (s.abs.apply (.reimportClassShell name instanceVars classVars)) true
      ((reimportClassShell name instanceVars classVars).done s) := by
  apply amendClass_refined h
  · intro hid
    unfold reimportClassShell
    rw [select_bind, hid]
    rfl
  · intro id v hid hv
    unfold reimportClassShell
    rw [select_bind, hid]
    dsimp only
    rw [queryRow_bind hv]
    split
    next => rfl
    next => rfl

theorem removeClass_refined (h : s.Valid indexed sentSelectors) (name : String) :
    Refined indexed sentSelectors (s.abs.apply (.removeClass name)) true ((removeClass name).done s) := by
  apply amendClass_refined h
  · intro hid
    unfold removeClass
    rw [select_bind, hid]
    rfl
  · intro id v hid hv
    unfold removeClass
    rw [select_bind, hid]
    dsimp only
    rw [queryRow_bind hv]
    split
    next => rfl
    next => rfl

theorem before_eq {α : Type} (l : List α) : Histories.before l = l.reverse[1]? := by
  unfold Histories.before
  rw [← head?_reverse, ← tail_reverse, head?_tail]

theorem undoClass_refined (h : s.Valid indexed sentSelectors) (name : String) :
    Refined indexed sentSelectors (s.abs.apply (.undoClass name)) true ((undoClass name).done s) := by
  show Refined indexed sentSelectors (match Histories.before (s.abs.classes name) with
    | none => s.abs
    | some v => s.abs.editClass name v) true _
  rcases hid : s.classIdOf name with _ | id
  · rw [abs_classes_of_none hid]
    apply Refined.of_ok (a := false) (t := s) _ h rfl
    unfold undoClass
    rw [select_bind, hid]
    rfl
  · rw [abs_classes_of_some hid, before_eq]
    have hprevious : (VersionTable.descending s.classVersions id)[1]?.map Row.content =
        (history s.classVersions id).reverse[1]? := by
      rw [VersionTable.descending_eq h.classVersions, ← getElem?_map, map_reverse]
      rfl
    rw [← hprevious]
    rcases hp : (VersionTable.descending s.classVersions id)[1]? with _ | previous
    · apply Refined.of_ok (a := false) (t := s) _ h rfl
      unfold undoClass
      rw [select_bind, hid]
      dsimp only
      rw [select_bind, hp]
      rfl
    · apply Refined.of_ok (a := true) _ (h.saveClass hid previous.content) (h.abs_saveClass hid _)
      unfold undoClass
      rw [select_bind, hid]
      dsimp only
      rw [select_bind, hp]
      rfl

namespace Store

def freshClassId (s : Store) : Nat := (s.classes.map ClassRow.classId).foldr max 0 + 1

theorem freshClassId_not_mem (s : Store) : s.freshClassId ∉ s.classes.map ClassRow.classId := by
  intro h
  have := VersionTable.foldr_max_ge h
  unfold freshClassId at this
  omega

def createClass (s : Store) (name : String) (v : ClassVersion) (order : Int) : Store :=
  { s with
    classes := s.classes ++ [⟨s.freshClassId, name, order⟩]
    classVersions := VersionTable.insert s.classVersions s.freshClassId v }

variable {name : String}

theorem classIdOf_createClass (hid : s.classIdOf name = none) (v : ClassVersion) (order : Int)
    (other : String) : (s.createClass name v order).classIdOf other =
      if other = name then some s.freshClassId else s.classIdOf other := by
  unfold classIdOf createClass at *
  rw [find?_append, map_eq_none_iff] at *
  split
  next he =>
    rw [he, hid]
    simp
  next hne =>
    have hne' : name ≠ other := fun he => hne he.symm
    simp [hne']

section

variable (h : s.Valid indexed sentSelectors) (hid : s.classIdOf name = none)

include h hid

variable (v : ClassVersion) (order : Int)

theorem Valid.methodIdOf_createClass (key : MethodKey) :
    (s.createClass name v order).methodIdOf key = s.methodIdOf key := by
  unfold methodIdOf
  rw [classIdOf_createClass hid]
  split
  next he =>
    rw [he, hid, bind_eq_bind, bind_some]
    show Option.map _ (s.methods.find? _) = none
    rw [map_eq_none_iff, find?_eq_none]
    intro m hm
    have hne : m.classId ≠ s.freshClassId := fun hc => s.freshClassId_not_mem (hc ▸ h.methodClass m hm)
    simp [hne]
  next => rfl

theorem Valid.createClass : (s.createClass name v order).Valid indexed sentSelectors := by
  have hnew : name ∉ s.classes.map ClassRow.name := by
    intro hmem
    obtain ⟨c, hc, hname⟩ := mem_map.mp hmem
    have hsome := (classIdOf_eq_some h.classNames).mpr ⟨c, hc, hname, rfl⟩
    rw [hid] at hsome
    cases hsome
  have hids : (s.createClass name v order).classes.map ClassRow.classId =
      s.classes.map ClassRow.classId ++ [s.freshClassId] := map_append
  have hmem : ∀ {id : Nat}, id ∈ s.classes.map ClassRow.classId →
      id ∈ (s.createClass name v order).classes.map ClassRow.classId := by
    intro id hid
    rw [hids]
    exact mem_append_left _ hid
  refine { h with
    classIds := ?_, classNames := ?_, classVersions := h.classVersions.insert _ _, classOwned := fun r hr => ?_
    classKept := fun c hc => ?_, methodClass := fun m hm => hmem (h.methodClass m hm) }
  · rw [hids]
    rw [← concat_eq_append]
    exact h.classIds.concat s.freshClassId_not_mem
  · have hnames : (s.createClass name v order).classes.map ClassRow.name = s.classes.map ClassRow.name ++ [name] :=
      map_append
    rw [hnames, ← concat_eq_append]
    exact h.classNames.concat hnew
  · rcases VersionTable.mem_insert hr with hr | rfl
    · exact hmem (h.classOwned r hr)
    · rw [hids]
      exact mem_append_right _ (mem_singleton_self _)
  · show history (VersionTable.insert ..) _ ≠ []
    rw [history_insert]
    split
    next => simp
    next hne =>
      rcases mem_append.mp hc with hc | hc
      · exact h.classKept c hc
      · rw [mem_singleton.mp hc] at hne
        exact absurd rfl hne

theorem Valid.abs_createClass : (s.createClass name v order).abs = s.abs.newClass name v order := by
  have hfree : history s.classVersions s.freshClassId = [] :=
    VersionTable.history_of_not_owned fun r hr ho => s.freshClassId_not_mem (ho ▸ h.classOwned r hr)
  have hclasses : (s.createClass name v order).classHistory = Function.update s.classHistory name [v] := by
    funext other
    unfold classHistory
    rw [classIdOf_createClass hid]
    by_cases he : other = name
    · rw [if_pos he, he, update_self]
      refine (history_insert ..).trans ?_
      rw [if_pos rfl, hfree]
      rfl
    · rw [if_neg he, update_of_ne he]
      split
      next => rfl
      next id' hid' =>
        obtain ⟨c, hc, _, hcid⟩ := (classIdOf_eq_some h.classNames).mp hid'
        have hne : id' ≠ s.freshClassId := by
          intro hfresh
          apply s.freshClassId_not_mem
          rw [← hfresh, ← hcid]
          exact mem_map_of_mem hc
        exact (history_insert ..).trans (if_neg hne)
  have hmethods : (s.createClass name v order).methodHistory = s.methodHistory := by
    funext key
    unfold methodHistory
    rw [h.methodIdOf_createClass hid]
    rfl
  unfold abs Histories.newClass
  rw [hclasses, hmethods]
  congr 1
  exact map_append

end

end Store

theorem addClass_eq (h : s.Valid indexed sentSelectors) {order : Int} (hid : s.classIdOf name = none)
    (horder : order ∉ s.classes.map ClassRow.loadOrder) (superclass : Option String)
    (category comment instanceVars classVars : String) :
    addClass name superclass category comment instanceVars classVars order s = (.ok s.freshClassId,
        s.createClass name ⟨superclass, category, comment, instanceVars, classVars, false⟩ order) := by
  have hrow : insertClassRow name order s =
      (.ok s.freshClassId, { s with classes := s.classes ++ [⟨s.freshClassId, name, order⟩] }) := by
    unfold insertClassRow
    rw [if_neg]
    · rfl
    · rw [List.any_eq_true]
      intro ⟨c, hc, htaken⟩
      rcases of_decide_eq_true htaken with hname | hload
      · have hsome := (classIdOf_eq_some h.classNames).mpr ⟨c, hc, hname, rfl⟩
        rw [hid] at hsome
        cases hsome
      · exact horder (mem_map.mpr ⟨c, hc, hload⟩)
  have howned : ∀ r ∈ s.classVersions, r.owner ≠ s.freshClassId := fun r hr ho =>
    s.freshClassId_not_mem (ho ▸ h.classOwned r hr)
  unfold addClass
  rw [bind_ok hrow]
  unfold createClass
  rw [← VersionTable.insert_first howned]
  rfl

theorem addClass_taken {order : Int} (superclass : Option String) (category comment instanceVars classVars : String)
    (htaken : s.classIdOf name ≠ none ∨ order ∈ s.classes.map ClassRow.loadOrder) :
    addClass name superclass category comment instanceVars classVars order s = (.error .unique, s) := by
  apply bind_error
  unfold insertClassRow
  rw [if_pos]
  rw [List.any_eq_true]
  rcases htaken with hid | horder
  · obtain ⟨id, hid⟩ := ne_none_iff_exists'.mp hid
    obtain ⟨c, hfind, _⟩ := map_eq_some_iff.mp hid
    have hname : c.name = name := by simpa using find?_some hfind
    exact ⟨c, mem_of_find?_eq_some hfind, decide_eq_true (.inl hname)⟩
  · obtain ⟨c, hc, hload⟩ := mem_map.mp horder
    exact ⟨c, hc, decide_eq_true (.inr hload)⟩

theorem addClass_refined (h : s.Valid indexed sentSelectors) (name : String) (superclass : Option String)
    (category comment instanceVars classVars : String) (order : Int) :
    Refined indexed sentSelectors (s.abs.apply (.addClass name superclass category comment instanceVars classVars order))
      (s.abs.accepts (.addClass name superclass category comment instanceVars classVars order))
      ((addClass name superclass category comment instanceVars classVars order).done s) := by
  unfold Histories.apply Histories.accepts
  dsimp only
  by_cases hfree : s.abs.classes name = [] ∧ order ∉ s.abs.orders
  · have hid := h.classHistory_eq_nil.mp hfree.1
    rw [if_pos hfree, decide_eq_true hfree]
    exact Refined.of_ok (addClass_eq h hid hfree.2 ..) (h.createClass hid _ _) (h.abs_createClass hid _ _)
  · rw [if_neg hfree, decide_eq_false hfree]
    apply Refined.of_error (addClass_taken ..) h rfl
    by_contra hnot
    push Not at hnot
    exact hfree ⟨h.classHistory_eq_nil.mpr hnot.1, hnot.2⟩

theorem nextLoadOrder_not_mem : s.nextLoadOrder ∉ s.classes.map ClassRow.loadOrder := by
  unfold nextLoadOrder
  split
  next m hm =>
    intro hmem
    have hle := (max?_eq_some_iff.mp hm).2 _ hmem
    unfold LOAD_ORDER_STEP at hle
    omega
  next hnone =>
    rw [max?_eq_none_iff.mp hnone]
    exact not_mem_nil

theorem createOrReopenClass_refined (h : s.Valid indexed sentSelectors) (name : String) (superclass : Option String)
    (category comment instanceVars : String) :
    Refined indexed sentSelectors (s.abs.apply (.createOrReopenClass name superclass category comment instanceVars)) true
      ((createOrReopenClass name superclass category comment instanceVars).done s) := by
  unfold Histories.apply
  dsimp only
  rcases hid : s.classIdOf name with _ | id
  · have hnil : s.abs.classes name = [] := abs_classes_of_none hid
    rw [if_pos hnil]
    apply Refined.of_ok (a := .Created) _ (h.createClass hid _ _) (h.abs_createClass hid _ _)
    unfold createOrReopenClass
    rw [select_bind, hid]
    dsimp only
    rw [select_bind]
    exact bind_ok (addClass_eq h hid nextLoadOrder_not_mem ..)
  · have hne : s.abs.classes name ≠ [] := fun hnil => by
      have hnone := h.classHistory_eq_nil.mp hnil
      rw [hid] at hnone
      cases hnone
    rw [if_neg hne]
    obtain ⟨v, hv, hlast⟩ := h.latestClass_eq hid
    by_cases hdel : v.deleted = true
    · apply Refined.of_ok (a := .Reopened) _ (h.saveClass hid _) (h.abs_amendClass hid hlast (if_pos hdel))
      unfold createOrReopenClass
      rw [select_bind, hid]
      dsimp only
      rw [queryRow_bind hv, if_pos hdel]
      rfl
    · apply Refined.of_ok (a := .AlreadyLive) (t := s) _ h
      · unfold Histories.amendClass
        rw [hlast, bind_some, if_neg hdel]
      · unfold createOrReopenClass
        rw [select_bind, hid]
        dsimp only
        rw [queryRow_bind hv, if_neg hdel]
        rfl

end WinArmVm.ImageStore
