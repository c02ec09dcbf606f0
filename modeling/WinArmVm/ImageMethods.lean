import WinArmVm.ImageHistory

namespace WinArmVm.ImageStore

open List Option Function

open VersionTable (Row history newest nextId Doomed Aged maxNumber lt_nextId history_insert history_edit history_pruneAll newest_ne_nil maxNumber_insert)

variable {indexed : Prop} {sentSelectors : String → List String} {s t : Store}

namespace Store

def Droppable (s : Store) (key : MethodKey) : Prop := ∀ id ∈ s.methodIdOf key, ∀ r ∈ s.methodVersions, r.owner = id →
    r.number + RETENTION_LIMIT ≤ maxNumber s.methodVersions id + 1 → ¬ s.Referenced r.id

instance (s : Store) (key : MethodKey) : Decidable (s.Droppable key) :=
  inferInstanceAs (Decidable (∀ id ∈ s.methodIdOf key, ∀ r ∈ s.methodVersions, r.owner = id →
    r.number + RETENTION_LIMIT ≤ maxNumber s.methodVersions id + 1 → ¬ s.Referenced r.id))

end Store

theorem insertSend_spec (versionId : Nat) (selector : String) (s : Store) :
    ∃ sends, insertSend versionId selector s = (.ok (), { s with methodSends := sends }) ∧
      ∀ ms, ms ∈ sends ↔ ms ∈ s.methodSends ∨ ms = ⟨versionId, selector⟩ := by
  unfold insertSend update
  dsimp only
  split
  next hmem =>
    refine ⟨s.methodSends, rfl, fun ms => ⟨.inl, fun h => ?_⟩⟩
    rcases h with h | rfl
    · exact h
    · exact hmem
  next => exact ⟨_, rfl, fun ms => by rw [mem_append, mem_singleton]⟩

theorem insertSends_spec (versionId : Nat) (selectors : List String) (s : Store) :
    ∃ sends, insertSends versionId selectors s = (.ok (), { s with methodSends := sends }) ∧
      ∀ ms, ms ∈ sends ↔ ms ∈ s.methodSends ∨ ms.methodVersionId = versionId ∧ ms.selector ∈ selectors := by
  induction selectors generalizing s with
  | nil => exact ⟨s.methodSends, rfl, fun ms => by simp⟩
  | cons x xs ih =>
    obtain ⟨first, hfirst, hmem⟩ := insertSend_spec versionId x s
    obtain ⟨sends, hrest, hall⟩ := ih { s with methodSends := first }
    refine ⟨sends, ?_, fun ms => ?_⟩
    · show (insertSend versionId x >>= fun _ => xs.forM (insertSend versionId)) s = _
      rw [bind_ok hfirst]
      exact hrest
    · rw [hall, hmem, mem_cons]
      constructor
      · rintro ((h | rfl) | ⟨hid, hsel⟩)
        · exact .inl h
        · exact .inr ⟨rfl, .inl rfl⟩
        · exact .inr ⟨hid, .inr hsel⟩
      · rintro (h | ⟨hid, rfl | hsel⟩)
        · exact .inl (.inl h)
        · exact .inl (.inr (by rw [← hid]))
        · exact .inr ⟨hid, hsel⟩

theorem insertMethodVersion_spec (id : Nat) (v : MethodVersion) (s : Store) :
    ∃ sends, insertMethodVersion sentSelectors id v s =
        (.ok (), { s with methodVersions := VersionTable.insert s.methodVersions id v, methodSends := sends }) ∧
      ∀ ms, ms ∈ sends ↔ ms ∈ s.methodSends ∨ ms.methodVersionId = nextId s.methodVersions ∧
        v.deleted = false ∧ ms.selector ∈ sentSelectors v.source := by
  unfold insertMethodVersion
  rw [select_bind, update_bind]
  by_cases hdel : v.deleted = true
  · rw [if_pos hdel]
    exact ⟨s.methodSends, rfl, fun ms => by simp [hdel]⟩
  · rw [if_neg hdel]
    obtain ⟨sends, hsends, hmem⟩ := insertSends_spec (nextId s.methodVersions)
      (sentSelectors v.source) { s with methodVersions := VersionTable.insert s.methodVersions id v }
    refine ⟨sends, hsends, fun ms => ?_⟩
    rw [hmem]
    simp [hdel]

namespace Store

def saveMethod (s : Store) (id : Nat) (v : MethodVersion) (sends : List SendRow) : Store :=
  { s with
    methodVersions := VersionTable.edit s.methodVersions id RETENTION_LIMIT v, methodSends := sends }

theorem Valid.not_referenced_next (h : s.Valid indexed sentSelectors) :
    ¬ s.Referenced (nextId s.methodVersions) := by
  intro href
  obtain ⟨r, hr, hid⟩ := mem_map.mp (h.refs _ href)
  have := lt_nextId hr
  omega

/-- Rows added for the version that is written next: where the index is kept, those of its source. -/
structure NextSends (indexed : Prop) (sentSelectors : String → List String) (s : Store) (v : MethodVersion)
    (sends : List SendRow) : Prop where
  named : ∀ ms ∈ sends, ms ∈ s.methodSends ∨ ms.methodVersionId = nextId s.methodVersions
  rows : indexed → ∀ ms, ms ∈ sends ↔ ms ∈ s.methodSends ∨
    ms.methodVersionId = nextId s.methodVersions ∧ v.deleted = false ∧ ms.selector ∈ sentSelectors v.source

variable {v : MethodVersion} {sends : List SendRow}

theorem NextSends.of_iff (hsends : ∀ ms, ms ∈ sends ↔ ms ∈ s.methodSends ∨
      ms.methodVersionId = nextId s.methodVersions ∧ v.deleted = false ∧
        ms.selector ∈ sentSelectors v.source) : NextSends indexed sentSelectors s v sends :=
  ⟨fun ms hms => ((hsends ms).mp hms).imp_right And.left, fun _ => hsends⟩

theorem NextSends.referenced (hs : NextSends indexed sentSelectors s v sends) {versionId : Nat}
    (href : { s with methodSends := sends }.Referenced versionId) :
    s.Referenced versionId ∨ versionId = nextId s.methodVersions := by
  rcases href with hb | ⟨ms, hms, rfl⟩ | hsig
  · exact .inl (.inl hb)
  · rcases hs.named ms hms with hms | hnext
    · exact .inl (.inr (.inl ⟨ms, hms, rfl⟩))
    · exact .inr hnext
  · exact .inl (.inr (.inr hsig))

theorem Valid.sends_insert (h : s.Valid indexed sentSelectors) (hs : NextSends indexed sentSelectors s v sends) {id : Nat}
    {r : Row MethodVersion} (hi : indexed) (hr : r ∈ VersionTable.insert s.methodVersions id v) (x : String) :
    ⟨r.id, x⟩ ∈ sends ↔ r.content.deleted = false ∧ x ∈ sentSelectors r.content.source := by
  refine (hs.rows hi ⟨r.id, x⟩).trans ?_
  rcases VersionTable.mem_insert hr with hr | rfl
  · have hlt := lt_nextId hr
    have hne : r.id ≠ nextId s.methodVersions := Nat.ne_of_lt hlt
    simp only [hne, false_and, or_false]
    exact h.sends hi r hr x
  · have hnew : ⟨nextId s.methodVersions, x⟩ ∉ s.methodSends := fun hx =>
      h.not_referenced_next (.inr (.inl ⟨_, hx, rfl⟩))
    simp only [hnew, false_or, true_and]

theorem Valid.saveMethod (h : s.Valid indexed sentSelectors) {key : MethodKey} {id : Nat}
    (hid : s.methodIdOf key = some id) (hdrop : s.Droppable key) (hs : NextSends indexed sentSelectors s v sends) :
    (s.saveMethod id v sends).Valid indexed sentSelectors := by
  obtain ⟨m, hm, _, _, _, hmid⟩ := h.methodIdOf_eq_some.mp hid
  refine { h with
    methodVersions := h.methodVersions.edit .., methodOwned := fun r hr => ?_, methodKept := fun d hd => ?_
    refs := fun v' href => ?_, sends := fun hi r hr => h.sends_insert hs hi (mem_of_mem_filter hr) }
  · rcases VersionTable.mem_insert (mem_of_mem_filter hr) with hr | rfl
    · exact h.methodOwned r hr
    · exact mem_map.mpr ⟨m, hm, hmid⟩
  · show history (VersionTable.edit ..) _ ≠ []
    rw [history_edit h.methodVersions]
    split
    next => exact newest_ne_nil (by decide) (by simp)
    next => exact h.methodKept d hd
  · -- A version that is named survives the prune.
    rcases hs.referenced href with href | rfl
    · obtain ⟨r, hr, hrid⟩ := mem_map.mp (h.refs v' href)
      refine mem_map.mpr ⟨r, (VersionTable.mem_edit (by decide)).mpr (.inr ⟨hr, fun haged => ?_⟩), hrid⟩
      exact hdrop id hid r hr haged.1 haged.2 (hrid ▸ href)
    · exact mem_map.mpr ⟨_, (VersionTable.mem_edit (by decide)).mpr (.inl rfl), rfl⟩

theorem Valid.abs_saveMethod (h : s.Valid indexed sentSelectors) {key : MethodKey} {id : Nat}
    (hid : s.methodIdOf key = some id) (v : MethodVersion) (sends : List SendRow) :
    (s.saveMethod id v sends).abs = s.abs.editMethod key v := by
  have hmethods : (s.saveMethod id v sends).methodHistory =
      Function.update s.methodHistory key (newest RETENTION_LIMIT (s.methodHistory key ++ [v])) := by
    funext other
    have hsame : (s.saveMethod id v sends).methodIdOf other = s.methodIdOf other := rfl
    by_cases he : other = key
    · rw [he, update_self]
      unfold methodHistory
      rw [← he, hsame, he, hid]
      exact (history_edit h.methodVersions ..).trans (if_pos rfl)
    · rw [update_of_ne he]
      unfold methodHistory
      rw [hsame]
      split
      next => rfl
      next id' hid' =>
        have hne : id' ≠ id := fun hii => he (h.methodIdOf_inj (hii ▸ hid') hid)
        exact (history_edit h.methodVersions ..).trans (if_neg hne)
  unfold abs Histories.editMethod
  rw [hmethods]
  rfl

end Store

variable {key : MethodKey}

theorem saveMethod_spec (h : s.Valid indexed sentSelectors) {id : Nat}
    (hid : s.methodIdOf key = some id) (hdrop : s.Droppable key) (v : MethodVersion) :
    ∃ s₁ t, insertMethodVersion sentSelectors id v s = (.ok (), s₁) ∧
      pruneMethodVersions id s₁ = (.ok (), t) ∧ t.Valid indexed sentSelectors ∧ t.abs = s.abs.editMethod key v := by
  obtain ⟨sends, hinsert, hsends⟩ := @insertMethodVersion_spec sentSelectors id v s
  have hs : Store.NextSends indexed sentSelectors s v sends := .of_iff hsends
  refine ⟨_, s.saveMethod id v sends, hinsert, ?_, h.saveMethod hid hdrop hs, h.abs_saveMethod hid v sends⟩
  suffices hdelete : ∃ n, deleteMethodVersions (fun t r => Aged t id RETENTION_LIMIT r)
      { s with methodVersions := VersionTable.insert s.methodVersions id v, methodSends := sends } =
        (.ok n, s.saveMethod id v sends) by
    obtain ⟨n, hdelete⟩ := hdelete
    exact bind_ok hdelete
  refine ⟨_, if_neg ?_⟩
  rintro ⟨r, hr, href⟩
  obtain ⟨hr, haged⟩ := mem_filter.mp hr
  obtain ⟨howner, hle⟩ := of_decide_eq_true haged
  rw [maxNumber_insert] at hle
  rcases VersionTable.mem_insert hr with hr | rfl
  · have hlt := lt_nextId hr
    exact hdrop id hid r hr howner hle ((hs.referenced href).resolve_right (Nat.ne_of_lt hlt))
  · have hself : maxNumber s.methodVersions id + 1 + RETENTION_LIMIT ≤
        maxNumber s.methodVersions id + 1 := hle
    unfold RETENTION_LIMIT at hself
    omega

open Store

section

variable (h : s.Valid indexed sentSelectors)

include h

theorem amendMethod_refined {m : Db Bool} {f : MethodVersion → Option MethodVersion}
    (hdrop : ∀ v w, (s.abs.methods key).getLast? = some v → f v = some w → s.Droppable key)
    (hnone : s.methodIdOf key = none → m s = (.ok false, s))
    (hsome : ∀ id v, s.methodIdOf key = some id → s.latestMethodVersion id = some v →
      m s = match f v with
        | none => (.ok false, s)
        | some w => (insertMethodVersion sentSelectors id w >>= fun _ =>
            pruneMethodVersions id >>= fun _ => pure true) s) :
    Refined indexed sentSelectors (s.abs.amendMethod key f) true (m.done s) := by
  unfold Histories.amendMethod
  rcases hid : s.methodIdOf key with _ | id
  · rw [abs_methods_of_none hid]
    exact Refined.of_ok (hnone hid) h rfl
  · obtain ⟨v, hv, hlast⟩ := h.latestMethod_eq hid
    have hm := hsome id v hid hv
    rw [hlast, bind_some]
    rcases hf : f v with _ | w
    · rw [hf] at hm
      exact Refined.of_ok hm h rfl
    · rw [hf] at hm
      obtain ⟨s₁, t, hinsert, hprune, hvalid, habs⟩ := saveMethod_spec h hid (hdrop v w hlast hf) w
      apply Refined.of_ok (a := true) (hm.trans _) hvalid habs
      dsimp only
      rw [bind_ok hinsert, bind_ok hprune]
      rfl

theorem setMethodSource_refined (hdrop : s.Droppable key) (newSource : String) :
    Refined indexed sentSelectors (s.abs.apply (.setMethodSource key newSource)) true
      ((setMethodSource sentSelectors key newSource).done s) := by
  apply amendMethod_refined h fun _ _ _ _ => hdrop
  · intro hid
    unfold setMethodSource
    rw [select_bind, hid]
    rfl
  · intro id v hid hv
    unfold setMethodSource
    rw [select_bind, hid]
    exact queryRow_bind hv

theorem removeMethod_refined (hdrop : ∀ v, (s.abs.methods key).getLast? = some v → v.deleted = false → s.Droppable key) :
    Refined indexed sentSelectors (s.abs.apply (.removeMethod key)) true
      ((removeMethod sentSelectors key).done s) := by
  apply amendMethod_refined h
  · intro v w hlast hf
    apply hdrop v hlast
    split at hf
    next => cases hf
    next hdel => exact Bool.eq_false_iff.mpr hdel
  · intro hid
    unfold removeMethod
    rw [select_bind, hid]
    rfl
  · intro id v hid hv
    unfold removeMethod
    rw [select_bind, hid]
    dsimp only
    rw [queryRow_bind hv]
    split
    next => rfl
    next => rfl

theorem undoMethod_refined (hdrop : s.Droppable key) :
    Refined indexed sentSelectors (s.abs.apply (.undoMethod key)) true
      ((undoMethod sentSelectors key).done s) := by
  show Refined indexed sentSelectors (match Histories.before (s.abs.methods key) with
    | none => s.abs
    | some v => s.abs.editMethod key v) true _
  rcases hid : s.methodIdOf key with _ | id
  · rw [abs_methods_of_none hid]
    apply Refined.of_ok (a := false) (t := s) _ h rfl
    unfold undoMethod
    rw [select_bind, hid]
    rfl
  · rw [abs_methods_of_some hid, before_eq]
    have hprevious : (VersionTable.descending s.methodVersions id)[1]?.map Row.content =
        (history s.methodVersions id).reverse[1]? := by
      rw [VersionTable.descending_eq h.methodVersions, ← getElem?_map, map_reverse]
      rfl
    rw [← hprevious]
    rcases hp : (VersionTable.descending s.methodVersions id)[1]? with _ | previous
    · apply Refined.of_ok (a := false) (t := s) _ h rfl
      unfold undoMethod
      rw [select_bind, hid]
      dsimp only
      rw [select_bind, hp]
      rfl
    · obtain ⟨s₁, t, hinsert, hprune, hvalid, habs⟩ := saveMethod_spec h hid hdrop previous.content
      apply Refined.of_ok (a := true) _ hvalid habs
      unfold undoMethod
      rw [select_bind, hid]
      dsimp only
      rw [select_bind, hp]
      dsimp only
      rw [bind_ok hinsert, bind_ok hprune]
      rfl

end

namespace Store

def freshMethodId (s : Store) : Nat := (s.methods.map MethodRow.methodId).foldr max 0 + 1

theorem freshMethodId_not_mem (s : Store) : s.freshMethodId ∉ s.methods.map MethodRow.methodId := by
  intro h
  have := VersionTable.foldr_max_ge h
  unfold freshMethodId at this
  omega

def createMethod (s : Store) (classId : Nat) (key : MethodKey) (v : MethodVersion) (sends : List SendRow) : Store :=
  { s with
    methods := s.methods ++ [⟨s.freshMethodId, classId, key.selector, key.side⟩]
    methodVersions := VersionTable.insert s.methodVersions s.freshMethodId v
    methodSends := sends }

variable {key : MethodKey} {classId : Nat}

section

variable (h : s.Valid indexed sentSelectors) (hclass : s.classIdOf key.className = some classId) (hid : s.methodIdOf key = none)

include h hclass hid

variable (v : MethodVersion) (sends : List SendRow)

theorem Valid.methodIdOf_createMethod (other : MethodKey) : (s.createMethod classId key v sends).methodIdOf other =
      if other = key then some s.freshMethodId else s.methodIdOf other := by
  unfold methodIdOf at *
  have hsame : (s.createMethod classId key v sends).classIdOf other.className = s.classIdOf other.className := rfl
  rw [hsame]
  split
  next he =>
    rw [he]
    rw [hclass, bind_eq_bind, bind_some, map_eq_none_iff] at hid
    rw [hclass, bind_eq_bind, bind_some]
    unfold createMethod
    rw [find?_append, hid]
    simp
  next hne =>
    rcases hother : s.classIdOf other.className with _ | c
    · rfl
    · rw [bind_eq_bind, bind_some, bind_some]
      unfold createMethod
      rw [find?_append]
      have hnew : ¬ (classId = c ∧ key.side = other.side ∧ key.selector = other.selector) := by
        rintro ⟨rfl, hside, hsel⟩
        have hname := h.classIdOf_inj hclass hother
        apply hne
        cases key
        cases other
        simp_all
      simp [hnew]

theorem Valid.createMethod {sends : List SendRow} (hs : NextSends indexed sentSelectors s v sends) :
    (s.createMethod classId key v sends).Valid indexed sentSelectors := by
  have hids : (s.createMethod classId key v sends).methods.map MethodRow.methodId =
      s.methods.map MethodRow.methodId ++ [s.freshMethodId] := map_append
  have hkeys : (s.createMethod classId key v sends).methods.map (fun m => (m.classId, m.side, m.selector)) =
      s.methods.map (fun m => (m.classId, m.side, m.selector)) ++ [(classId, key.side, key.selector)] :=
    map_append
  have hfreshKey : (classId, key.side, key.selector) ∉ s.methods.map fun m => (m.classId, m.side, m.selector) := by
    intro hmem
    obtain ⟨m, hm, he⟩ := mem_map.mp hmem
    obtain ⟨hmc, hmside, hmsel⟩ : m.classId = classId ∧ m.side = key.side ∧ m.selector = key.selector := by
      simpa using he
    have hsome := h.methodIdOf_eq_some.mpr ⟨m, hm, by rw [hclass, hmc], hmside, hmsel, rfl⟩
    rw [hid] at hsome
    cases hsome
  refine { h with
    methodIds := ?_, methodKeys := ?_, methodClass := fun m hm => ?_, methodVersions := h.methodVersions.insert _ _
    methodOwned := fun r hr => ?_, methodKept := fun m hm => ?_, refs := fun v' href => ?_, sends := fun hi r hr => h.sends_insert hs hi hr }
  · rw [hids, ← concat_eq_append]
    exact h.methodIds.concat s.freshMethodId_not_mem
  · rw [hkeys, ← concat_eq_append]
    exact h.methodKeys.concat hfreshKey
  · rcases mem_append.mp hm with hm | hm
    · exact h.methodClass m hm
    · rw [mem_singleton.mp hm]
      obtain ⟨c, hc, _, hcid⟩ := (classIdOf_eq_some h.classNames).mp hclass
      exact mem_map.mpr ⟨c, hc, hcid⟩
  · rw [hids]
    rcases VersionTable.mem_insert hr with hr | rfl
    · exact mem_append_left _ (h.methodOwned r hr)
    · exact mem_append_right _ (mem_singleton_self _)
  · show history (VersionTable.insert ..) _ ≠ []
    rw [history_insert]
    split
    next => simp
    next hne =>
      rcases mem_append.mp hm with hm | hm
      · exact h.methodKept m hm
      · rw [mem_singleton.mp hm] at hne
        exact absurd rfl hne
  · have hids' : (VersionTable.insert s.methodVersions s.freshMethodId v).map Row.id =
        s.methodVersions.map Row.id ++ [nextId s.methodVersions] := map_append
    show v' ∈ (VersionTable.insert s.methodVersions s.freshMethodId v).map Row.id
    rw [hids']
    rcases hs.referenced href with href | hnext
    · exact mem_append_left _ (h.refs v' href)
    · exact mem_append_right _ (mem_singleton.mpr hnext)

theorem Valid.abs_createMethod : (s.createMethod classId key v sends).abs =
      { s.abs with methods := Function.update s.abs.methods key [v] } := by
  have hfree : history s.methodVersions s.freshMethodId = [] :=
    VersionTable.history_of_not_owned fun r hr ho => s.freshMethodId_not_mem (ho ▸ h.methodOwned r hr)
  have hmethods : (s.createMethod classId key v sends).methodHistory =
      Function.update s.methodHistory key [v] := by
    funext other
    unfold methodHistory
    rw [h.methodIdOf_createMethod hclass hid]
    by_cases he : other = key
    · rw [if_pos he, he, update_self]
      refine (history_insert ..).trans ?_
      rw [if_pos rfl, hfree]
      rfl
    · rw [if_neg he, update_of_ne he]
      split
      next => rfl
      next id' hid' =>
        obtain ⟨m, hm, _, _, _, hmid⟩ := h.methodIdOf_eq_some.mp hid'
        have hne : id' ≠ s.freshMethodId := by
          intro hfresh
          apply s.freshMethodId_not_mem
          rw [← hfresh, ← hmid]
          exact mem_map_of_mem hm
        exact (history_insert ..).trans (if_neg hne)
  unfold abs
  rw [hmethods]
  rfl

end

end Store

theorem insertMethodRow_fresh (h : s.Valid indexed sentSelectors) {classId : Nat}
    (hclass : s.classIdOf key.className = some classId) (hid : s.methodIdOf key = none) :
    insertMethodRow classId key.selector key.side s = (.ok s.freshMethodId,
      { s with methods := s.methods ++ [⟨s.freshMethodId, classId, key.selector, key.side⟩] }) := by
  unfold insertMethodRow
  rw [if_neg]
  · rfl
  · rw [List.any_eq_true]
    intro ⟨m, hm, htaken⟩
    obtain ⟨hmc, hsel, hside⟩ := of_decide_eq_true htaken
    have hsome := h.methodIdOf_eq_some.mpr ⟨m, hm, by rw [hclass, hmc], hside, hsel, rfl⟩
    rw [hid] at hsome
    cases hsome

theorem insertMethodRow_taken (h : s.Valid indexed sentSelectors) {classId id : Nat}
    (hclass : s.classIdOf key.className = some classId) (hid : s.methodIdOf key = some id) :
    insertMethodRow classId key.selector key.side s = (.error .unique, s) := by
  obtain ⟨m, hm, hmc, hside, hsel, _⟩ := h.methodIdOf_eq_some.mp hid
  rw [hclass] at hmc
  unfold insertMethodRow
  rw [if_pos]
  rw [List.any_eq_true]
  exact ⟨m, hm, decide_eq_true ⟨(Option.some.inj hmc).symm, hsel, hside⟩⟩

theorem pruneMethodVersions_young {id : Nat}
    (hyoung : ∀ r ∈ t.methodVersions, ¬ Aged t.methodVersions id RETENTION_LIMIT r) :
    pruneMethodVersions id t = (.ok (), t) := by
  have hgone : t.methodVersions.filter
      (fun r => Aged t.methodVersions id RETENTION_LIMIT r) = [] := by
    rw [filter_eq_nil_iff]
    intro r hr
    simpa using hyoung r hr
  have hkept : t.methodVersions.filter
      (fun r => ¬ Aged t.methodVersions id RETENTION_LIMIT r) = t.methodVersions := by
    rw [filter_eq_self]
    intro r hr
    simpa using hyoung r hr
  have hdelete : deleteMethodVersions (fun t r => Aged t id RETENTION_LIMIT r) t = (.ok 0, t) := by
    unfold deleteMethodVersions
    rw [hgone, hkept, if_neg (by simp)]
    rfl
  unfold pruneMethodVersions
  rw [bind_ok hdelete]
  rfl

theorem createOrReopenMethod_refined (h : s.Valid indexed sentSelectors) (hdrop : s.Droppable key) (category source : String) :
    Refined indexed sentSelectors (s.abs.apply (.createOrReopenMethod key category source)) true
      ((createOrReopenMethod sentSelectors key category source).done s) := by
  unfold Histories.apply
  dsimp only
  rcases hclass : s.classIdOf key.className with _ | classId
  · have hnil : s.abs.classes key.className = [] := abs_classes_of_none hclass
    rw [if_pos hnil]
    apply Refined.of_ok (a := none) (t := s) _ h rfl
    unfold createOrReopenMethod
    rw [select_bind, hclass]
    rfl
  · have hne : s.abs.classes key.className ≠ [] := by
      rw [abs_classes_of_some hclass]
      exact h.classKept_of_classIdOf hclass
    rw [if_neg hne]
    rcases hid : s.methodIdOf key with _ | id
    · obtain ⟨sends, hinsert, hsends⟩ := @insertMethodVersion_spec sentSelectors
        s.freshMethodId ⟨category, source, false⟩
        { s with methods := s.methods ++ [⟨s.freshMethodId, classId, key.selector, key.side⟩] }
      have howned : ∀ r ∈ s.methodVersions, r.owner ≠ s.freshMethodId := fun r hr ho =>
        s.freshMethodId_not_mem (ho ▸ h.methodOwned r hr)
      have hprune : pruneMethodVersions s.freshMethodId (s.createMethod classId key ⟨category, source, false⟩ sends) = (.ok (), _) :=
        pruneMethodVersions_young fun r _ haged => by
          have hle : r.number + 100 ≤ _ := haged.2
          unfold Store.createMethod at hle
          rw [maxNumber_insert, VersionTable.maxNumber_of_not_owned howned] at hle
          omega
      apply Refined.of_ok (a := some s.freshMethodId) _ (h.createMethod hclass hid _ (.of_iff hsends))
      · rw [h.abs_createMethod hclass hid]
        unfold Histories.editMethod
        rw [abs_methods_of_none hid]
        rfl
      · unfold createOrReopenMethod
        rw [select_bind, hclass]
        dsimp only
        rw [select_bind, hid]
        dsimp only
        rw [bind_ok (insertMethodRow_fresh h hclass hid), bind_ok hinsert]
        exact bind_ok hprune
    · obtain ⟨s₁, t, hinsert, hprune, hvalid, habs⟩ := saveMethod_spec h hid hdrop ⟨category, source, false⟩
      apply Refined.of_ok (a := some id) _ hvalid habs
      unfold createOrReopenMethod
      rw [select_bind, hclass]
      dsimp only
      rw [select_bind, hid]
      dsimp only
      rw [bind_ok (pure_apply id s), bind_ok hinsert, bind_ok hprune]
      rfl

theorem addMethod_refined (h : s.Valid indexed sentSelectors) {source : String}
    (hsilent : indexed → s.abs.classes key.className ≠ [] → s.abs.methods key = [] → sentSelectors source = [])
    (category : String) :
    Refined indexed sentSelectors (s.abs.apply (.addMethod key category source))
      (s.abs.accepts (.addMethod key category source)) ((addMethod key category source).done s) := by
  unfold Histories.apply Histories.accepts
  dsimp only
  rcases hclass : s.classIdOf key.className with _ | classId
  · have hnil : s.abs.classes key.className = [] := abs_classes_of_none hclass
    rw [if_neg (fun hboth => hboth.1 hnil), decide_eq_true (.inl hnil)]
    apply Refined.of_ok (a := none) (t := s) _ h rfl
    unfold addMethod
    rw [select_bind, hclass]
    rfl
  · have hne : s.abs.classes key.className ≠ [] := by
      rw [abs_classes_of_some hclass]
      exact h.classKept_of_classIdOf hclass
    rcases hid : s.methodIdOf key with _ | id
    · have hnil : s.abs.methods key = [] := abs_methods_of_none hid
      rw [if_pos ⟨hne, hnil⟩, decide_eq_true (.inr hnil)]
      have howned : ∀ r ∈ s.methodVersions, r.owner ≠ s.freshMethodId := fun r hr ho =>
        s.freshMethodId_not_mem (ho ▸ h.methodOwned r hr)
      have hs : NextSends indexed sentSelectors s ⟨category, source, false⟩ s.methodSends := by
        refine ⟨fun ms => .inl, fun hi ms => ?_⟩
        rw [hsilent hi hne hnil]
        simp
      apply Refined.of_ok (a := some s.freshMethodId) _
        (h.createMethod hclass hid _ hs) (h.abs_createMethod hclass hid _ _)
      unfold addMethod
      rw [select_bind, hclass]
      dsimp only
      rw [bind_ok (insertMethodRow_fresh h hclass hid)]
      unfold createMethod
      rw [← VersionTable.insert_first howned]
      rfl
    · have hne' : s.abs.methods key ≠ [] := by
        rw [abs_methods_of_some hid]
        exact h.methodKept_of_methodIdOf hid
      rw [if_neg (fun hboth => hne' hboth.2), decide_eq_false (fun hor => hor.elim hne hne')]
      apply Refined.of_error (e := .unique) _ h rfl
      unfold addMethod
      rw [select_bind, hclass]
      exact bind_error (insertMethodRow_taken h hclass hid)

theorem captureTypeSignature_refined (h : s.Valid indexed sentSelectors) (key : MethodKey)
    (retType : Option String) (argTypes tempTypes : String) :
    Refined indexed sentSelectors (s.abs.apply (.captureTypeSignature key retType argTypes tempTypes)) true
      ((captureTypeSignature key retType argTypes tempTypes).done s) := by
  rcases hid : s.latestMethodVersionId key with _ | versionId
  · apply Refined.of_ok (a := ()) (t := s) _ h rfl
    unfold captureTypeSignature
    rw [select_bind, hid]
    rfl
  · obtain ⟨methodId, _, hlatest⟩ := bind_eq_some_iff.mp hid
    obtain ⟨r, hr, hrid⟩ := map_eq_some_iff.mp hlatest
    have hmem : r ∈ s.methodVersions := mem_of_mem_filter (mem_of_find?_eq_some hr)
    have hvalid : ({ s with
        methodSignatures := s.methodSignatures.filter (fun sig => sig.methodVersionId ≠ versionId) ++
          [⟨versionId, retType, argTypes, tempTypes⟩] } : Store).Valid indexed sentSelectors := by
      refine { h with refs := fun v' href => ?_ }
      rcases href with hb | hms | ⟨sig, hsig, hv'⟩
      · exact h.refs v' (.inl hb)
      · exact h.refs v' (.inr (.inl hms))
      · rcases mem_append.mp hsig with hold | hnew
        · exact h.refs v' (.inr (.inr ⟨sig, mem_of_mem_filter hold, hv'⟩))
        · rw [mem_singleton.mp hnew] at hv'
          exact mem_map.mpr ⟨r, hmem, hrid.trans hv'⟩
    apply Refined.of_ok (a := ()) _ hvalid rfl
    unfold captureTypeSignature
    rw [select_bind, hid]
    exact if_pos ⟨r, hmem, hrid⟩

namespace Store

def DoomedId (s : Store) (keep versionId : Nat) : Bool :=
  s.methodVersions.any fun r => r.id = versionId ∧ Doomed s.methodVersions keep r

theorem Valid.doomedId_iff (h : s.Valid indexed sentSelectors) {keep : Nat} {r : Row MethodVersion}
    (hr : r ∈ s.methodVersions) : s.DoomedId keep r.id = true ↔ Doomed s.methodVersions keep r := by
  unfold DoomedId
  rw [List.any_eq_true]
  constructor
  · intro ⟨v, hv, hboth⟩
    obtain ⟨hid, hdoomed⟩ := of_decide_eq_true hboth
    rw [h.methodVersions.id_inj hv hr hid] at hdoomed
    exact hdoomed
  · intro hdoomed
    exact ⟨r, hr, decide_eq_true ⟨rfl, hdoomed⟩⟩

def withoutDoomed (s : Store) (keep : Nat) : Store :=
  { s with
    classVersions := s.classVersions.filter fun r => ¬ Doomed s.classVersions keep r
    methodVersions := s.methodVersions.filter fun r => ¬ Doomed s.methodVersions keep r
    methodBytecode := s.methodBytecode.filter fun v => ¬ s.DoomedId keep v
    methodSends := s.methodSends.filter fun ms => ¬ s.DoomedId keep ms.methodVersionId
    methodSignatures := s.methodSignatures.filter fun sig => ¬ s.DoomedId keep sig.methodVersionId }

theorem referenced_withoutDoomed {keep v : Nat} (href : (s.withoutDoomed keep).Referenced v) :
    s.Referenced v ∧ s.DoomedId keep v = false := by
  rcases href with hb | ⟨ms, hms, rfl⟩ | ⟨sig, hsig, rfl⟩
  · obtain ⟨hb, hkeep⟩ := mem_filter.mp hb
    exact ⟨.inl hb, by simpa using hkeep⟩
  · obtain ⟨hms, hkeep⟩ := mem_filter.mp hms
    exact ⟨.inr (.inl ⟨ms, hms, rfl⟩), by simpa using hkeep⟩
  · obtain ⟨hsig, hkeep⟩ := mem_filter.mp hsig
    exact ⟨.inr (.inr ⟨sig, hsig, rfl⟩), by simpa using hkeep⟩

theorem Valid.withoutDoomed (h : s.Valid indexed sentSelectors) {keep : Nat} (hkeep : 0 < keep) :
    (s.withoutDoomed keep).Valid indexed sentSelectors := by
  refine { h with
    classVersions := h.classVersions.pruneAll keep, classOwned := fun r hr => h.classOwned r (mem_of_mem_filter hr)
    classKept := fun c hc => ?_, methodVersions := h.methodVersions.pruneAll keep
    methodOwned := fun r hr => h.methodOwned r (mem_of_mem_filter hr), methodKept := fun m hm => ?_
    refs := fun v href => ?_, sends := fun hi r hr x => ?_ }
  · show history (s.classVersions.filter _) _ ≠ []
    rw [history_pruneAll h.classVersions]
    exact newest_ne_nil hkeep (h.classKept c hc)
  · show history (s.methodVersions.filter _) _ ≠ []
    rw [history_pruneAll h.methodVersions]
    exact newest_ne_nil hkeep (h.methodKept m hm)
  · obtain ⟨hold, hnot⟩ := referenced_withoutDoomed href
    obtain ⟨r, hr, hid⟩ := mem_map.mp (h.refs v hold)
    refine mem_map.mpr ⟨r, mem_filter.mpr ⟨hr, decide_eq_true fun hdoomed => ?_⟩, hid⟩
    rw [← hid, (h.doomedId_iff hr).mpr hdoomed] at hnot
    cases hnot
  · obtain ⟨hr, hkept⟩ := mem_filter.mp hr
    have hnot : s.DoomedId keep r.id = false := by
      rw [Bool.eq_false_iff]
      intro hdoomed
      exact of_decide_eq_true hkept ((h.doomedId_iff hr).mp hdoomed)
    show ⟨r.id, x⟩ ∈ s.methodSends.filter _ ↔ _
    rw [mem_filter, ← h.sends hi r hr x]
    simp [hnot]

theorem Valid.abs_withoutDoomed (h : s.Valid indexed sentSelectors) (keep : Nat) : (s.withoutDoomed keep).abs =
      { s.abs with
        classes := fun name => newest keep (s.abs.classes name)
        methods := fun key => newest keep (s.abs.methods key) } := by
  have hclasses : (s.withoutDoomed keep).classHistory = fun name => newest keep (s.classHistory name) := by
    funext name
    have hsame : (s.withoutDoomed keep).classIdOf name = s.classIdOf name := rfl
    unfold classHistory
    rw [hsame]
    split
    next => exact (VersionTable.newest_nil keep).symm
    next id _ => exact history_pruneAll h.classVersions keep id
  have hmethods : (s.withoutDoomed keep).methodHistory = fun key => newest keep (s.methodHistory key) := by
    funext key
    have hsame : (s.withoutDoomed keep).methodIdOf key = s.methodIdOf key := rfl
    unfold methodHistory
    rw [hsame]
    split
    next => exact (VersionTable.newest_nil keep).symm
    next id _ => exact history_pruneAll h.methodVersions keep id
  unfold abs
  rw [hclasses, hmethods]
  rfl

end Store

theorem pruneHistory_refined (h : s.Valid indexed sentSelectors) (keep : Int) :
    Refined indexed sentSelectors (s.abs.apply (.pruneHistory keep)) true ((pruneHistory keep).done s) := by
  have hkeep : 0 < (max keep 1).toNat := by omega
  have hdelete : deleteMethodVersions (fun t r => Doomed t (max keep 1).toNat r)
      { s.withoutDoomed (max keep 1).toNat with
        methodVersions := s.methodVersions, classVersions := s.classVersions } =
      (.ok (s.methodVersions.filter fun r => Doomed s.methodVersions (max keep 1).toNat r).length,
        { s.withoutDoomed (max keep 1).toNat with classVersions := s.classVersions }) := by
    apply if_neg
    rintro ⟨r, hr, href⟩
    obtain ⟨hr, hdoomed⟩ := mem_filter.mp hr
    have hnot : s.DoomedId (max keep 1).toNat r.id = false := (referenced_withoutDoomed href).2
    rw [(h.doomedId_iff hr).mpr (of_decide_eq_true hdoomed)] at hnot
    cases hnot
  have hrun : ∃ n, pruneHistory keep s = (.ok n, s.withoutDoomed (max keep 1).toNat) := by
    refine ⟨(s.methodVersions.filter fun r => Doomed s.methodVersions (max keep 1).toNat r).length +
      (s.classVersions.filter fun r => Doomed s.classVersions (max keep 1).toNat r).length, ?_⟩
    unfold pruneHistory
    rw [update_bind, update_bind, update_bind]
    exact bind_ok hdelete
  obtain ⟨n, hrun⟩ := hrun
  exact Refined.of_ok hrun (h.withoutDoomed hkeep) (h.abs_withoutDoomed _)

theorem backfill_spec (pending : List (Row MethodVersion)) (s : Store) :
    ∃ sends, pending.forM (fun r => insertSends r.id (sentSelectors r.content.source)) s =
        (.ok (), { s with methodSends := sends }) ∧
      ∀ ms, ms ∈ sends ↔ ms ∈ s.methodSends ∨
        ∃ r ∈ pending, ms.methodVersionId = r.id ∧ ms.selector ∈ sentSelectors r.content.source := by
  induction pending generalizing s with
  | nil => exact ⟨s.methodSends, rfl, fun ms => by simp⟩
  | cons r rest ih =>
    obtain ⟨first, hfirst, hmem⟩ := insertSends_spec r.id (sentSelectors r.content.source) s
    obtain ⟨sends, hrest, hall⟩ := ih { s with methodSends := first }
    refine ⟨sends, ?_, fun ms => ?_⟩
    · show (insertSends r.id (sentSelectors r.content.source) >>= fun _ => rest.forM _) s = _
      rw [bind_ok hfirst]
      exact hrest
    · rw [hall, hmem]
      simp only [mem_cons, exists_eq_or_imp]
      exact or_assoc

theorem backfillMethodSends_refined (h : s.Valid indexed sentSelectors) :
    Refined indexed sentSelectors (s.abs.apply .backfillMethodSends) true (backfillMethodSends sentSelectors s) := by
  unfold backfillMethodSends
  rw [select_bind]
  obtain ⟨sends, hrun, hmem⟩ := @backfill_spec sentSelectors (s.methodVersions.filter fun r =>
    r.content.deleted = false ∧ r.id ∉ s.methodSends.map SendRow.methodVersionId) s
  rw [hrun]
  refine ⟨{ h with refs := fun v href => ?_, sends := fun hi r hr x => ?_ }, rfl, rfl⟩
  · rcases href with hb | ⟨ms, hms, rfl⟩ | hsig
    · exact h.refs v (.inl hb)
    · rcases (hmem ms).mp hms with hms | ⟨r, hr, hid, -⟩
      · exact h.refs _ (.inr (.inl ⟨ms, hms, rfl⟩))
      · exact mem_map.mpr ⟨r, (mem_filter.mp hr).1, hid.symm⟩
    · exact h.refs v (.inr (.inr hsig))
  · rw [hmem, h.sends hi r hr x]
    refine or_iff_left ?_
    -- a version that sends something has its rows already
    rintro ⟨r', hr', -, hx⟩
    obtain ⟨hr', hboth⟩ := mem_filter.mp hr'
    obtain ⟨hlive, hnone⟩ := of_decide_eq_true hboth
    exact hnone (mem_map.mpr ⟨_, (h.sends hi r' hr' x).mpr ⟨hlive, hx⟩, rfl⟩)

end WinArmVm.ImageStore
