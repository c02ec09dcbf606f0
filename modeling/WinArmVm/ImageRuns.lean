import WinArmVm.ImageMethods

namespace WinArmVm.ImageStore

open List Option Function

open VersionTable (Row history newest maxNumber nextId newest_append)

variable {indexed : Prop} {sentSelectors : String → List String} {s t : Store}

def FullClass.version (c : FullClass) : ClassVersion :=
  ⟨c.superclass, c.category, c.comment, c.instanceVars, c.classVars, false⟩

namespace Store

def classVersionCount (s : Store) (name : String) : Nat :=
  match s.classIdOf name with
  | none => 0
  | some classId => (VersionTable.rowsOf s.classVersions classId).length

theorem Valid.methodPresence_eq (h : s.Valid indexed sentSelectors) (key : MethodKey) :
    s.methodPresence key = s.abs.presence key := by
  unfold methodPresence Histories.presence
  rcases hid : s.methodIdOf key with _ | id
  · rw [abs_methods_of_none hid]
    rfl
  · obtain ⟨v, hv, hlast⟩ := h.latestMethod_eq hid
    rw [hlast, bind_some, hv]

theorem methodVersionCount_eq (s : Store) (key : MethodKey) :
    s.methodVersionCount key = (s.abs.methods key).length := by
  unfold methodVersionCount
  rcases hid : s.methodIdOf key with _ | id
  · rw [abs_methods_of_none hid]
    rfl
  · rw [abs_methods_of_some hid, VersionTable.length_history]

theorem classVersionCount_eq (s : Store) (name : String) : s.classVersionCount name = (s.abs.classes name).length := by
  unfold classVersionCount
  rcases hid : s.classIdOf name with _ | id
  · rw [abs_classes_of_none hid]
    rfl
  · rw [abs_classes_of_some hid, VersionTable.length_history]

theorem Valid.classNamed_eq (h : s.Valid indexed sentSelectors) (name : String) :
    (s.classNamed name).map FullClass.version = s.abs.header name := by
  unfold classNamed Histories.header
  rcases hid : s.classIdOf name with _ | id
  · have hfind : s.classes.find? (·.name = name) = none := map_eq_none_iff.mp hid
    rw [abs_classes_of_none hid, hfind]
    rfl
  · obtain ⟨v, hv, hlast⟩ := h.latestClass_eq hid
    obtain ⟨c, hfind, hcid⟩ := map_eq_some_iff.mp hid
    rw [hfind, hlast, bind_eq_bind, bind_some, hcid, hv, bind_eq_bind, bind_some]
    rw [filter_some]
    by_cases hdel : v.deleted = true
    · rw [if_pos hdel, if_neg (by simp [hdel])]
      rfl
    · rw [if_neg hdel, if_pos (by simpa using hdel)]
      cases v
      simp_all [FullClass.version]

theorem Valid.mem_sendersOf (h : s.Valid True sentSelectors) {x : String} {key : MethodKey} :
    (key.className, key.selector, key.side) ∈ s.sendersOf x ↔
      ∃ v, (s.abs.methods key).getLast? = some v ∧ v.deleted = false ∧ x ∈ sentSelectors v.source := by
  unfold sendersOf
  rw [mem_mergeSort]
  simp only [mem_flatMap, mem_filter, List.mem_map, decide_eq_true_eq]
  constructor
  · rintro ⟨ms, ⟨hms, rfl⟩, r, ⟨hr, hrid, hnumber, hdel⟩, m, ⟨hm, hmid⟩, c, ⟨hc, hcid⟩, he⟩
    obtain ⟨hname, hsel, hside⟩ : c.name = key.className ∧ m.selector = key.selector ∧ m.side = key.side := by
      simpa using he
    have hclass := (classIdOf_eq_some h.classNames).mpr ⟨c, hc, hname, hcid⟩
    have hid := h.methodIdOf_eq_some.mpr ⟨m, hm, hclass, hside, hsel, hmid⟩
    have hlatest := VersionTable.latest_of_number h.methodVersions hr hnumber
    have hcontent := latestMethodVersion_eq h.methodVersions r.owner
    unfold latestMethodVersion at hcontent
    rw [hlatest] at hcontent
    refine ⟨r.content, ?_, hdel, ?_⟩
    · rw [abs_methods_of_some hid]
      exact hcontent.symm
    · apply ((h.sends trivial r hr ms.selector).mp _).2
      rw [hrid]
      exact hms
  · rintro ⟨v, hlast, hdel, hx⟩
    rcases hid : s.methodIdOf key with _ | id
    · rw [abs_methods_of_none hid] at hlast
      cases hlast
    · rw [abs_methods_of_some hid, ← latestMethodVersion_eq h.methodVersions] at hlast
      obtain ⟨r, hlatest, rfl⟩ := Option.map_eq_some_iff.mp hlast
      obtain ⟨hr, howner⟩ := mem_filter.mp (mem_of_find?_eq_some hlatest)
      have howner' : r.owner = id := of_decide_eq_true howner
      have hnumber : r.number = maxNumber s.methodVersions id := by
        simpa using find?_some hlatest
      obtain ⟨m, hm, hclass, hside, hsel, hmid⟩ := h.methodIdOf_eq_some.mp hid
      obtain ⟨c, hc, hname, hcid⟩ := (classIdOf_eq_some h.classNames).mp hclass
      refine ⟨⟨r.id, x⟩, ⟨(h.sends trivial r hr x).mpr ⟨hdel, hx⟩, rfl⟩, r, ⟨hr, rfl, ?_, hdel⟩, m,
        ⟨hm, hmid.trans howner'.symm⟩, c, ⟨hc, hcid⟩, ?_⟩
      · rw [howner', hnumber]
      · rw [hname, hsel, hside]

end Store

/-- An edit drops no version that the side tables name. -/
def Edit.Drops (s : Store) : Edit → Prop
  | .createOrReopenMethod key _ _ => s.Droppable key
  | .setMethodSource key _ => s.Droppable key
  | .removeMethod key => s.methodPresence key ≠ .Deleted → s.Droppable key
  | .undoMethod key => s.Droppable key
  | _ => True

/-- Nor does it make a method whose sends the index would miss. -/
def Edit.Meets (sentSelectors : String → List String) (s : Store) (e : Edit) : Prop := e.Drops s ∧ match e with
    | .addMethod key _ source =>
      s.classIdOf key.className ≠ none → s.methodIdOf key = none → sentSelectors source = []
    | _ => True

theorem exec_refined (h : s.Valid indexed sentSelectors) {e : Edit} (hdrops : e.Drops s)
    (hmeets : indexed → e.Meets sentSelectors s) :
    Refined indexed sentSelectors (s.abs.apply e) (s.abs.accepts e) (e.exec sentSelectors s) := by
  cases e with
  | addClass name superclass category comment instanceVars classVars loadOrder =>
    exact addClass_refined h name superclass category comment instanceVars classVars loadOrder
  | createOrReopenClass name superclass category comment instanceVars =>
    exact createOrReopenClass_refined h name superclass category comment instanceVars
  | setClassComment className newComment => exact setClassComment_refined h className newComment
  | setClassDefinition className newSuperclass newInstanceVars =>
    exact setClassDefinition_refined h className newSuperclass newInstanceVars
  | reimportClassShell className instanceVars classVars =>
    exact reimportClassShell_refined h className instanceVars classVars
  | removeClass className => exact removeClass_refined h className
  | undoClass className => exact undoClass_refined h className
  | addMethod key category source =>
    refine addMethod_refined h (fun hi hclass hmethod => (hmeets hi).2 ?_ ?_) category
    · exact fun hnone => hclass (Store.abs_classes_of_none hnone)
    · exact h.methodHistory_eq_nil.mp hmethod
  | createOrReopenMethod key category source => exact createOrReopenMethod_refined h hdrops category source
  | setMethodSource key newSource => exact setMethodSource_refined h hdrops newSource
  | removeMethod key =>
    refine removeMethod_refined h fun v hlast hdel => hdrops ?_
    rw [h.methodPresence_eq]
    unfold Histories.presence
    rw [hlast]
    simp [hdel]
  | undoMethod key => exact undoMethod_refined h hdrops
  | captureTypeSignature key retType argTypes tempTypes =>
    exact captureTypeSignature_refined h key retType argTypes tempTypes
  | pruneHistory keep => exact pruneHistory_refined h keep
  | backfillMethodSends => exact backfillMethodSends_refined h

/-- Every edit of a run meets a condition on the store before it. -/
def RunMeets (sentSelectors : String → List String) (P : Store → Edit → Prop) : List Edit → Store → Prop
  | [], _ => True
  | e :: edits, s => P s e ∧ RunMeets sentSelectors P edits (e.exec sentSelectors s).2

def DropsAll (sentSelectors : String → List String) : List Edit → Store → Prop :=
  RunMeets sentSelectors fun s e => e.Drops s

def MeetsAll (sentSelectors : String → List String) : List Edit → Store → Prop :=
  RunMeets sentSelectors fun s e => e.Meets sentSelectors s

theorem run_refined {P : Store → Edit → Prop} (hdrops : ∀ s e, P s e → e.Drops s)
    (hindexed : indexed → ∀ s e, P s e → e.Meets sentSelectors s) (edits : List Edit)
    (h : s.Valid indexed sentSelectors) (hmeets : RunMeets sentSelectors P edits s) :
    (run sentSelectors edits s).Valid indexed sentSelectors ∧
      (run sentSelectors edits s).abs = edits.foldl Histories.apply s.abs := by
  induction edits generalizing s with
  | nil => exact ⟨h, rfl⟩
  | cons e edits ih =>
    obtain ⟨hvalid, habs, _⟩ := exec_refined h (hdrops s e hmeets.1) fun hi => hindexed hi s e hmeets.1
    have hrest := ih hvalid hmeets.2
    rw [habs] at hrest
    exact hrest

theorem empty_valid : Store.empty.Valid indexed sentSelectors where
  classIds := List.nodup_nil
  classNames := List.nodup_nil
  classVersions := VersionTable.Ordered.nil
  classOwned := fun r hr => by cases hr
  classKept := fun c hc => by cases hc
  methodIds := List.nodup_nil
  methodKeys := List.nodup_nil
  methodClass := fun m hm => by cases hm
  methodVersions := VersionTable.Ordered.nil
  methodOwned := fun r hr => by cases hr
  methodKept := fun m hm => by cases hm
  refs := fun v href => by
    rcases href with hb | ⟨ms, hms, _⟩ | ⟨sig, hsig, _⟩
    · cases hb
    · cases hms
    · cases hsig
  sends := fun _ r hr => by cases hr

/-- In a run of edits that meet the condition every query answers what the histories say, no
edit of an item that is there fails, the side tables name versions that are there, and the
senders index is the one of the live sources. -/
theorem edits_refine (edits : List Edit) (hmeets : MeetsAll sentSelectors edits .empty) :
    let s := run sentSelectors edits .empty
    let h := edits.foldl Histories.apply .empty
    (∀ key, s.methodPresence key = h.presence key ∧ s.methodVersionCount key = (h.methods key).length) ∧
      (∀ name, (s.classNamed name).map FullClass.version = h.header name ∧
        s.classVersionCount name = (h.classes name).length) ∧
      (∀ e : Edit, e.Meets sentSelectors s → (e.exec sentSelectors s).1.isOk = h.accepts e) ∧
      (∀ v, s.Referenced v → ∃ r ∈ s.methodVersions, r.id = v) ∧
      ∀ x key, (key.className, key.selector, key.side) ∈ s.sendersOf x ↔
        ∃ v, (h.methods key).getLast? = some v ∧ v.deleted = false ∧ x ∈ sentSelectors v.source := by
  obtain ⟨hvalid, habs⟩ := run_refined (fun _ _ he => he.1) (fun _ _ _ he => he) edits empty_valid hmeets
  have hempty : Store.empty.abs = Histories.empty := rfl
  rw [hempty] at habs
  rw [← habs]
  exact ⟨fun key => ⟨hvalid.methodPresence_eq key, Store.methodVersionCount_eq _ key⟩,
    fun name => ⟨hvalid.classNamed_eq name, Store.classVersionCount_eq _ name⟩,
    fun e he => (exec_refined hvalid he.1 fun _ => he).accepted, fun v href => mem_map.mp (hvalid.refs v href),
    fun x key => hvalid.mem_sendersOf⟩

theorem edits_refine_after_undo :
    let edits : List Edit := [.createOrReopenClass "A" none "" "" "",
      .createOrReopenMethod ⟨"A", .Instance, "m"⟩ "" "m [ ^self x ]", .removeMethod ⟨"A", .Instance, "m"⟩,
      .undoMethod ⟨"A", .Instance, "m"⟩]
    (run (fun _ => ["x"]) edits .empty).methodPresence ⟨"A", .Instance, "m"⟩ = .Live "m [ ^self x ]" := by
  intro edits
  have hmeets : MeetsAll (fun _ => ["x"]) edits .empty := by
    refine ⟨⟨trivial, trivial⟩, ⟨?_, trivial⟩, ⟨fun _ => ?_, trivial⟩, ⟨?_, trivial⟩, trivial⟩
    · show Store.Droppable _ _
      decide +kernel
    · decide +kernel
    · show Store.Droppable _ _
      decide +kernel
  refine (((edits_refine edits hmeets).1 ⟨"A", .Instance, "m"⟩).1).trans ?_
  decide +kernel

def Edit.Spares (key : MethodKey) : Edit → Prop
  | .addMethod k _ _ | .createOrReopenMethod k _ _ | .setMethodSource k _ | .removeMethod k | .undoMethod k => k ≠ key
  | .pruneHistory keep => 2 ≤ keep
  | _ => True

theorem Histories.apply_spared {h : Histories} {key : MethodKey} {e : Edit} (hs : e.Spares key) {rest lastTwo : List MethodVersion}
    (hlen : lastTwo.length = 2) (h2 : h.methods key = rest ++ lastTwo) :
    ∃ rest', (h.apply e).methods key = rest' ++ lastTwo := by
  have hclass (name : String) (f : ClassVersion → Option ClassVersion) :
      (h.amendClass name f).methods key = h.methods key := by
    unfold amendClass
    split <;> rfl
  cases e with
  | pruneHistory keep =>
    have hkeep : 2 ≤ keep := hs
    refine ⟨_, (congrArg (newest (max keep 1).toNat) h2).trans (newest_append ?_)⟩
    omega
  | createOrReopenClass =>
    refine ⟨rest, Eq.trans ?_ h2⟩
    simp only [apply]
    split
    next => rfl
    next => exact hclass _ _
  | addClass | undoClass | addMethod | createOrReopenMethod | setMethodSource | removeMethod | undoMethod =>
    refine ⟨rest, Eq.trans ?_ h2⟩
    simp only [apply, amendMethod]
    split <;> first | rfl | exact update_of_ne (Ne.symm hs) _ _
  | captureTypeSignature | backfillMethodSends => exact ⟨rest, h2⟩
  | _ => exact ⟨rest, (hclass _ _).trans h2⟩

theorem RunMeets.init {P : Store → Edit → Prop} {more : List Edit} (edits : List Edit) {s : Store}
    (h : RunMeets sentSelectors P (edits ++ more) s) : RunMeets sentSelectors P edits s := by
  induction edits generalizing s with
  | nil => trivial
  | cons e edits ih => exact ⟨h.1, ih h.2⟩

/-- An undo takes back the last edit of a live method, whatever was done elsewhere since. -/
theorem undo_takes_back (edits more : List Edit) {e : Edit} {key : MethodKey} {source : String}
    (he : e = .removeMethod key ∨ ∃ newSource, e = .setMethodSource key newSource)
    (hmore : ∀ e' ∈ more, e'.Spares key)
    (hdrops : DropsAll sentSelectors (edits ++ e :: (more ++ [.undoMethod key])) .empty)
    (hlive : (run sentSelectors edits .empty).methodPresence key = .Live source) :
    (run sentSelectors (edits ++ e :: (more ++ [.undoMethod key])) .empty).methodPresence key = .Live source := by
  have hempty : Store.empty.Valid False sentSelectors := empty_valid
  have hrefined (l : List Edit) (hl : DropsAll sentSelectors l .empty) :=
    run_refined (fun _ _ he => he) (fun hi => hi.elim) l hempty hl
  obtain ⟨hvalid, habs⟩ := hrefined edits (hdrops.init edits)
  obtain ⟨hvalid', habs'⟩ := hrefined _ hdrops
  rw [hvalid.methodPresence_eq, habs] at hlive
  rw [hvalid'.methodPresence_eq, habs', foldl_append, foldl_cons, foldl_append]
  generalize edits.foldl Histories.apply (Store.abs .empty) = h at hlive ⊢
  unfold Histories.presence at hlive ⊢
  split at hlive
  next => cases hlive
  next v hv =>
    obtain ⟨rest, hrest⟩ := getLast?_eq_some_iff.mp hv
    have hdel : v.deleted = false := by
      by_contra hdel
      simp [Bool.not_eq_false _ ▸ hdel] at hlive
    obtain ⟨w, hw⟩ : ∃ w rest', (h.apply e).methods key = rest' ++ [v, w] := by
      have hone (w : MethodVersion) : ∃ rest', (h.editMethod key w).methods key = rest' ++ [v, w] := by
        refine ⟨newest (RETENTION_LIMIT - 2) rest, ?_⟩
        simp only [Histories.editMethod, update_self, hrest, append_assoc]
        exact newest_append (show 2 ≤ RETENTION_LIMIT by decide)
      rcases he with rfl | ⟨newSource, rfl⟩ <;> simp only [Histories.apply, Histories.amendMethod, hv, bind_some, hdel]
      · exact ⟨_, hone _⟩
      · exact ⟨_, hone _⟩
    obtain ⟨rest', hg⟩ : ∃ rest', (more.foldl Histories.apply (h.apply e)).methods key = rest' ++ [v, w] := by
      clear hdrops hvalid' habs'
      generalize h.apply e = g at hw ⊢
      induction more generalizing g with
      | nil => exact hw
      | cons e' more ih =>
        obtain ⟨rest', hg⟩ := hw
        exact ih (fun x hx => hmore x (mem_cons_of_mem _ hx)) _ (Histories.apply_spared (hmore e' mem_cons_self) rfl hg)
    generalize more.foldl Histories.apply (h.apply e) = g at hg ⊢
    have hlast : ((g.apply (.undoMethod key)).methods key).getLast? = some v := by
      have hbefore : Histories.before (rest' ++ [v, w]) = some v := by
        rw [Histories.before, dropLast_append_of_ne_nil (cons_ne_nil _ _)]
        exact getLast?_concat
      simp only [Histories.apply, hg, hbefore, Histories.editMethod, update_self]
      rw [newest_append (show 1 ≤ RETENTION_LIMIT by decide)]
      exact getLast?_concat
    rw [foldl_cons, foldl_nil, hlast]
    exact hlive

theorem undo_takes_back_change :
    let key : MethodKey := ⟨"A", .Instance, "m"⟩
    let edits : List Edit := [.createOrReopenClass "A" none "" "" "", .addMethod key "" "m [ ^self x ]"]
    let more : List Edit := [.addMethod ⟨"A", .Instance, "n"⟩ "" "n [ ^self x ]", .removeClass "A", .pruneHistory 2]
    (run (fun _ => ["x"]) (edits ++ .setMethodSource key "m [ ]" :: (more ++ [.undoMethod key])) .empty).methodPresence key =
      .Live "m [ ^self x ]" := by
  intro key edits more
  refine undo_takes_back edits more (.inr ⟨_, rfl⟩) ?_ ?_ (by decide +kernel)
  · simp [more, key, Edit.Spares]
  · refine ⟨trivial, trivial, ?_, trivial, trivial, trivial, ?_, trivial⟩ <;>
    · show Store.Droppable _ _
      decide +kernel

private abbrev saving : MethodVersion := ⟨"", "m [ ^self x ]", false⟩

/-- `A>>m` after `n` saves, each with an indexed send. -/
private def saved (n : Nat) : Store := ⟨[⟨1, "A", 1000⟩], [⟨1, 1, 1, ⟨none, "", "", "", "", false⟩⟩], [⟨1, 1, "m", .Instance⟩],
  (range' 1 n).map fun i => ⟨i, 1, i, saving⟩, [], (range' 1 n).map (⟨·, "x"⟩), []⟩

private def save : Edit := .createOrReopenMethod ⟨"A", .Instance, "m"⟩ "" "m [ ^self x ]"

theorem save_saved {n : Nat} (hn : n < 99) : (save.exec (fun _ => ["x"]) (saved (n + 1))).2 = saved (n + 2) := by
  have hmax : (range' 1 (n + 1)).foldr max 0 = n + 1 := by simpa using VersionTable.foldr_max_range' 0 n
  have hnext : nextId (saved (n + 1)).methodVersions = n + 2 := by
    simpa [saved, nextId, Function.comp_def] using hmax
  have hnumber : maxNumber (saved (n + 1)).methodVersions 1 = n + 1 := by
    simpa [saved, maxNumber, VersionTable.rowsOf, List.filter_map, Function.comp_def] using hmax
  have hinsert : VersionTable.insert (saved (n + 1)).methodVersions 1 saving = (saved (n + 2)).methodVersions := by
    rw [VersionTable.insert, hnext, hnumber]
    simp [saved, range'_1_concat, Nat.add_comm 1]
  have hprune : pruneMethodVersions 1 (saved (n + 2)) = (.ok (), saved (n + 2)) := pruneMethodVersions_young fun r hr haged => by
    have hle : r.number + 100 ≤ _ := haged.2
    rw [← hinsert, VersionTable.maxNumber_insert, hnumber] at hle
    simp [saved] at hr
    grind
  have hsent : insertMethodVersion (fun _ => ["x"]) 1 saving (saved (n + 1)) = (.ok (), saved (n + 2)) := by
    have hnew : (⟨n + 2, "x"⟩ : SendRow) ∉ (saved (n + 1)).methodSends := by
      simp [saved]
      omega
    unfold insertMethodVersion
    rw [select_bind, update_bind, hinsert, hnext]
    refine congrArg _ ((if_neg hnew).trans ?_)
    simp [saved, range'_1_concat, Nat.add_comm 1]
  have hcall : createOrReopenMethod (fun _ => ["x"]) ⟨"A", .Instance, "m"⟩ "" "m [ ^self x ]" (saved (n + 1)) =
      (.ok (some 1), saved (n + 2)) := by
    unfold createOrReopenMethod
    rw [select_bind, show (saved (n + 1)).classIdOf _ = some 1 from rfl]
    dsimp only
    rw [select_bind, show (saved (n + 1)).methodIdOf _ = some 1 from rfl]
    dsimp only
    rw [bind_ok (pure_apply 1 _), bind_ok hsent, bind_ok hprune]
    rfl
  exact congrArg (fun r => (r.1.map fun _ => (), r.2).2) hcall

/-- An edit that pushes out a version with an indexed send fails, and leaves one version too many. -/
theorem setMethodSource_after_hundred : ∃ (edits : List Edit) (key : MethodKey) (source : String),
    (run (fun _ => ["x"]) edits .empty).methodPresence key = .Live source ∧
      (run (fun _ => ["x"]) edits .empty).methodVersionCount key = 100 ∧
      ((Edit.setMethodSource key source).exec (fun _ => ["x"]) (run (fun _ => ["x"]) edits .empty)).1.isOk = false ∧
      (run (fun _ => ["x"]) (edits ++ [.setMethodSource key source]) .empty).methodVersionCount key = 101 := by
  have hrun : ∀ n < 100, run (fun _ => ["x"]) (replicate n save) (saved 1) = saved (n + 1) := by
    intro n hn
    induction n with
    | zero => rfl
    | succ n ih =>
      rw [replicate_succ', run, foldl_append]
      exact (congrArg (fun s => (save.exec _ s).2) (ih (by omega))).trans (save_saved (by omega))
  obtain ⟨edits, hedits⟩ : ∃ edits, run (fun _ => ["x"]) edits .empty = saved 100 := by
    refine ⟨.createOrReopenClass "A" none "" "" "" :: save :: replicate 99 save, ?_⟩
    rw [← hrun 99 (by decide), run, foldl_cons, foldl_cons]
    rfl
  refine ⟨edits, ⟨"A", .Instance, "m"⟩, "m [ ^self x ]", ?_⟩
  rw [run, run, foldl_concat, ← run, hedits]
  decide +kernel

end WinArmVm.ImageStore
