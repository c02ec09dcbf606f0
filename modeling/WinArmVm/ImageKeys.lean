import WinArmVm.ImageHistory

namespace WinArmVm.ImageStore

open List

variable {sentSelectors : String → List String} {s t : Store}

/-- What every edit keeps: class versions belong to classes and are numbered without a gap, and no two
methods have one key. -/
structure Store.Keyed (s : Store) : Prop where
  classOwned : ∀ r ∈ s.classVersions, r.owner ∈ s.classes.map ClassRow.classId
  classVersions : VersionTable.Ordered s.classVersions
  methodKeys : (s.methods.map fun m => (m.classId, m.side, m.selector)).Nodup

variable {α : Type} {name : String} {id : Nat}

theorem Store.classIdOf_mem (h : s.classIdOf name = some id) : id ∈ s.classes.map ClassRow.classId := by
  obtain ⟨c, hc, rfl⟩ := Option.map_eq_some_iff.mp h
  exact mem_map_of_mem (mem_of_find?_eq_some hc)

namespace Store.Keyed

theorem congr (h : s.Keyed) (hc : t.classes = s.classes) (hv : t.classVersions = s.classVersions)
    (hm : t.methods = s.methods) : t.Keyed := by
  refine ⟨?_, ?_, ?_⟩
  · rw [hc, hv]
    exact h.classOwned
  · rw [hv]
    exact h.classVersions
  · rw [hm]
    exact h.methodKeys

theorem saveClass (h : s.Keyed) {name : String} {id : Nat} (hid : s.classIdOf name = some id) (v : ClassVersion) :
    (s.saveClass id v).Keyed := by
  refine ⟨fun r hr => ?_, h.classVersions.edit .., h.methodKeys⟩
  rcases VersionTable.mem_insert (mem_of_mem_filter hr) with hr | rfl
  · exact h.classOwned r hr
  · exact Store.classIdOf_mem hid

end Store.Keyed

def Keeps {α : Type} (m : Db α) : Prop := ∀ s : Store, s.Keyed → (m s).2.Keyed

namespace Keeps

variable {α β : Type}

theorem pure (a : α) : Keeps (pure a) := fun _ h => h

theorem bind {m : Db α} {f : α → Db β} (hm : Keeps m) (hf : ∀ a, Keeps (f a)) : Keeps (m >>= f) := by
  intro s hs
  have h := hm s hs
  cases hr : m s with
  | mk r t =>
    rw [hr] at h
    cases r with
    | ok a =>
      simp only [Bind.bind, hr]
      exact hf a t h
    | error e =>
      simp only [Bind.bind, hr]
      exact h

theorem select (g : Store → α) : Keeps (select g) := fun _ h => h

theorem queryRow (g : Store → Option α) : Keeps (queryRow g) := by
  intro s h
  unfold ImageStore.queryRow
  split
  next => exact h
  next => exact h

theorem update {g : Store → Store} (hc : ∀ s, (g s).classes = s.classes)
    (hv : ∀ s, (g s).classVersions = s.classVersions) (hm : ∀ s, (g s).methods = s.methods) : Keeps (update g) :=
  fun s h => h.congr (hc s) (hv s) (hm s)

theorem insertSends (id : Nat) (selectors : List String) : Keeps (insertSends id selectors) := by
  induction selectors with
  | nil => exact .pure _
  | cons x xs ih =>
    refine .bind (.update ?_ ?_ ?_) fun _ => ih
    · intro s
      split
      next => rfl
      next => rfl
    · intro s
      split
      next => rfl
      next => rfl
    · intro s
      split
      next => rfl
      next => rfl

theorem insertMethodVersion (id : Nat) (v : MethodVersion) : Keeps (insertMethodVersion sentSelectors id v) := by
  refine .bind (.select _) fun _ => .bind (.update (fun _ => rfl) (fun _ => rfl) fun _ => rfl) fun _ => ?_
  split
  next => exact .pure _
  next => exact insertSends _ _

theorem deleteMethodVersions (p : List (VersionTable.Row MethodVersion) → VersionTable.Row MethodVersion → Prop)
    [∀ t r, Decidable (p t r)] : Keeps (deleteMethodVersions p) := by
  intro s h
  unfold ImageStore.deleteMethodVersions
  dsimp only
  split
  next => exact h
  next => exact h.congr rfl rfl rfl

theorem pruneMethodVersions (id : Nat) : Keeps (pruneMethodVersions id) :=
  .bind (deleteMethodVersions _) fun _ => .pure _

theorem insertMethodRow (classId : Nat) (selector : String) (side : Side) :
    Keeps (insertMethodRow classId selector side) := by
  intro s h
  unfold ImageStore.insertMethodRow
  split
  next => exact h
  next hfresh =>
    refine ⟨h.classOwned, h.classVersions, ?_⟩
    rw [map_append, nodup_append]
    refine ⟨h.methodKeys, nodup_singleton _, ?_⟩
    intro a ha b hb hab
    cases mem_singleton.mp hb
    obtain ⟨m, hm, rfl⟩ := mem_map.mp ha
    obtain ⟨h₁, h₂⟩ := Prod.mk.inj hab
    obtain ⟨h₂, h₃⟩ := Prod.mk.inj h₂
    exact hfresh (any_eq_true.mpr ⟨m, hm, decide_eq_true ⟨h₁, h₃, h₂⟩⟩)

end Keeps

theorem Store.Keyed.of_class (h : s.Keyed)
    (ht : t = s ∨ ∃ name id v, s.classIdOf name = some id ∧ t = s.saveClass id v) : t.Keyed := by
  rcases ht with rfl | ⟨name, id, v, hid, rfl⟩
  · exact h
  · exact h.saveClass hid v

theorem queryRow_none {g : Store → Option α} (h : g s = none) : queryRow g s = (.error .noRows, s) := by
  unfold queryRow
  rw [h]

theorem Keeps.of_classId {b : α} {f : Nat → Db α}
    (hf : ∀ (s : Store) id, (f id s).2 = s ∨ ∃ v, (f id s).2 = s.saveClass id v) :
    Keeps (ImageStore.select (fun s => s.classIdOf name) >>= fun o =>
      match o with
      | none => Pure.pure b
      | some id => f id) := by
  intro s h
  rw [select_bind]
  cases hid : s.classIdOf name with
  | none => exact h
  | some id =>
    apply h.of_class
    rcases hf s id with he | ⟨v, he⟩
    · exact .inl he
    · exact .inr ⟨name, id, v, hid, he⟩

theorem saves_latest {f : ClassVersion → Db α}
    (hf : ∀ (s : Store) v, (f v s).2 = s ∨ ∃ w, (f v s).2 = s.saveClass id w) (s : Store) :
    ((queryRow (fun s => s.latestClassVersion id) >>= f) s).2 = s ∨
      ∃ w, ((queryRow (fun s => s.latestClassVersion id) >>= f) s).2 = s.saveClass id w := by
  cases hv : s.latestClassVersion id with
  | none =>
    rw [bind_error (queryRow_none hv)]
    exact .inl rfl
  | some v =>
    rw [queryRow_bind hv]
    exact hf s v

theorem addClass_keeps (name : String) (superclass : Option String) (category comment instanceVars classVars : String)
    (loadOrder : Int) : Keeps (addClass name superclass category comment instanceVars classVars loadOrder) := by
  intro s h
  unfold addClass
  cases hrow : insertClassRow name loadOrder s with
  | mk r t =>
    unfold insertClassRow at hrow
    split at hrow
    next =>
      cases hrow
      rw [bind_error (by unfold insertClassRow; rw [if_pos ‹_›])]
      exact h
    next hfresh =>
      obtain ⟨rfl, rfl⟩ := Prod.mk.inj hrow
      have hrow : insertClassRow name loadOrder s = (.ok s.freshClassId,
          { s with classes := s.classes ++ [⟨s.freshClassId, name, loadOrder⟩] }) := by
        unfold insertClassRow
        rw [if_neg hfresh]
        rfl
      rw [bind_ok hrow]
      have hnew : ∀ r ∈ s.classVersions, r.owner ≠ s.freshClassId := fun r hr he =>
        s.freshClassId_not_mem (he ▸ h.classOwned r hr)
      refine ⟨?_, ?_, h.methodKeys⟩
      · intro r hr
        show r.owner ∈ (s.classes ++ [_]).map ClassRow.classId
        rw [map_append]
        rcases mem_append.mp hr with hr | hr
        · exact mem_append_left _ (h.classOwned r hr)
        · cases mem_singleton.mp hr
          exact mem_append_right _ (mem_singleton_self _)
      · show VersionTable.Ordered (s.classVersions ++ [⟨VersionTable.nextId s.classVersions, s.freshClassId, 1, _⟩])
        rw [VersionTable.insert_first hnew]
        exact h.classVersions.insert _ _

theorem exec_keeps (e : Edit) : Keeps (e.exec sentSelectors) := by
  have hdone {α : Type} {m : Db α} (hm : Keeps m) : Keeps m.done := fun s h => hm s h
  cases e with
  | addClass name superclass category comment instanceVars classVars loadOrder =>
    exact hdone (addClass_keeps name superclass category comment instanceVars classVars loadOrder)
  | createOrReopenClass name superclass category comment instanceVars =>
    refine hdone (fun s h => ?_)
    unfold createOrReopenClass
    rw [select_bind]
    cases hid : s.classIdOf name with
    | none => exact Keeps.bind (.select _) (fun _ => .bind (addClass_keeps _ _ _ _ _ _ _) fun _ => .pure _) s h
    | some id =>
      apply h.of_class
      refine (saves_latest (fun s v => ?_) s).imp_right fun ⟨w, he⟩ => ⟨name, id, w, hid, he⟩
      by_cases hdel : v.deleted = true
      · rw [if_pos hdel]
        exact .inr ⟨_, rfl⟩
      · rw [if_neg hdel]
        exact .inl rfl
  | setClassComment className newComment =>
    exact hdone (.of_classId fun s id => saves_latest (fun s v => .inr ⟨_, rfl⟩) s)
  | setClassDefinition className newSuperclass newInstanceVars =>
    exact hdone (.of_classId fun s id => saves_latest (fun s v => .inr ⟨_, rfl⟩) s)
  | reimportClassShell className instanceVars classVars =>
    refine hdone (.of_classId fun s id => saves_latest (fun s v => ?_) s)
    by_cases hsame : unionSpaceSeparated v.instanceVars instanceVars = v.instanceVars ∧
        unionSpaceSeparated v.classVars classVars = v.classVars
    · rw [if_pos hsame]
      exact .inl rfl
    · rw [if_neg hsame]
      exact .inr ⟨_, rfl⟩
  | removeClass className =>
    refine hdone (.of_classId fun s id => saves_latest (fun s v => ?_) s)
    by_cases hdel : v.deleted = true
    · rw [if_pos hdel]
      exact .inl rfl
    · rw [if_neg hdel]
      exact .inr ⟨_, rfl⟩
  | undoClass className =>
    refine hdone (.of_classId fun s id => ?_)
    rw [select_bind]
    cases (VersionTable.descending s.classVersions id)[1]? with
    | none => exact .inl rfl
    | some previous => exact .inr ⟨_, rfl⟩
  | addMethod key category source =>
    refine hdone (.bind (.select _) fun o => ?_)
    cases o with
    | none => exact .pure _
    | some classId =>
      exact .bind (.insertMethodRow _ _ _) fun _ => .bind (.update (fun _ => rfl) (fun _ => rfl) fun _ => rfl) fun _ =>
        .pure _
  | createOrReopenMethod key category source =>
    refine hdone (.bind (.select _) fun o => ?_)
    cases o with
    | none => exact .pure _
    | some classId =>
      refine .bind (.select _) fun id => ?_
      cases id with
      | none =>
        exact .bind (.insertMethodRow _ _ _) fun _ => .bind (.insertMethodVersion _ _) fun _ =>
          .bind (.pruneMethodVersions _) fun _ => .pure _
      | some id =>
        exact .bind (.pure _) fun _ => .bind (.insertMethodVersion _ _) fun _ =>
          .bind (.pruneMethodVersions _) fun _ => .pure _
  | setMethodSource key newSource =>
    refine hdone (.bind (.select _) fun o => ?_)
    cases o with
    | none => exact .pure _
    | some id =>
      exact .bind (.queryRow _) fun _ => .bind (.insertMethodVersion _ _) fun _ =>
        .bind (.pruneMethodVersions _) fun _ => .pure _
  | removeMethod key =>
    refine hdone (.bind (.select _) fun o => ?_)
    cases o with
    | none => exact .pure _
    | some id =>
      refine .bind (.queryRow _) fun v => ?_
      split
      next => exact .pure _
      next =>
        exact .bind (.insertMethodVersion _ _) fun _ => .bind (.pruneMethodVersions _) fun _ => .pure _
  | undoMethod key =>
    refine hdone (.bind (.select _) fun o => ?_)
    cases o with
    | none => exact .pure _
    | some id =>
      refine .bind (.select _) fun previous => ?_
      cases previous with
      | none => exact .pure _
      | some previous =>
        exact .bind (.insertMethodVersion _ _) fun _ => .bind (.pruneMethodVersions _) fun _ => .pure _
  | captureTypeSignature key retType argTypes tempTypes =>
    refine hdone (.bind (.select _) fun o => ?_)
    cases o with
    | none => exact .pure _
    | some id =>
      intro s h
      show (setMethodSignature _ s).2.Keyed
      unfold setMethodSignature
      split
      next => exact h.congr rfl rfl rfl
      next => exact h
  | pruneHistory keep =>
    refine hdone (.bind (.update (fun _ => rfl) (fun _ => rfl) fun _ => rfl) fun _ =>
      .bind (.update (fun _ => rfl) (fun _ => rfl) fun _ => rfl) fun _ =>
        .bind (.update (fun _ => rfl) (fun _ => rfl) fun _ => rfl) fun _ =>
          .bind (.deleteMethodVersions _) fun _ => .bind (.select _) fun _ => .bind (fun s h => ?_) fun _ => .pure _)
    exact ⟨fun r hr => h.classOwned r (mem_of_mem_filter hr), h.classVersions.pruneAll _, h.methodKeys⟩
  | backfillMethodSends =>
    refine .bind (.select _) fun pending => ?_
    induction pending with
    | nil => exact .pure _
    | cons r rest ih => exact .bind (.insertSends _ _) fun _ => ih

theorem run_keyed (edits : List Edit) : (run sentSelectors edits .empty).Keyed := by
  have h : ∀ s : Store, s.Keyed → (run sentSelectors edits s).Keyed := by
    induction edits with
    | nil => exact fun _ h => h
    | cons e rest ih => exact fun s h => ih _ (exec_keeps e s h)
  exact h _ ⟨fun r hr => (nomatch hr), VersionTable.Ordered.nil, nodup_nil⟩

end WinArmVm.ImageStore
