import WinArmVm.ClassText
import WinArmVm.ImageKeys

namespace WinArmVm.ImageStore

open List Option

open Mst (ParsedClass ParsedMethod parseMstSource)
open WinArmVm.Types (CharClass)

variable {u : CharClass} {sentSelectors : String → List String} {s : Store} {name : String} {c : FullClass}

def SaveState.total (st : SaveState) : Nat := st.changed + st.added + st.removed

theorem foldl_total {α : Type} {f : SaveState → α → SaveState} {Same : α → Prop}
    (hsame : ∀ st a, Same a → f st a = st) (hdiff : ∀ st a, ¬ Same a → (f st a).total = st.total + 1) (l : List α) :
    ∀ st, st.total ≤ (l.foldl f st).total ∧ ((l.foldl f st).total = st.total → ∀ a ∈ l, Same a) ∧
      ((∀ a ∈ l, Same a) → l.foldl f st = st) := by
  induction l with
  | nil => exact fun st => ⟨Nat.le_refl _, fun _ _ ha => (nomatch ha), fun _ => rfl⟩
  | cons a rest ih =>
    intro st
    obtain ⟨hle, hall, hkeep⟩ := ih (f st a)
    by_cases ha : Same a
    · rw [foldl_cons, hsame st a ha] at *
      refine ⟨hle, fun ht b hb => ?_, fun h => hkeep fun b hb => h b (mem_cons_of_mem _ hb)⟩
      rcases mem_cons.mp hb with rfl | hb
      · exact ha
      · exact hall ht b hb
    · have hone := hdiff st a ha
      rw [foldl_cons]
      exact ⟨by omega, fun ht => by omega, fun h => absurd (h a mem_cons_self) ha⟩

def Unedited (rows : List FullMethod) (m : ParsedMethod) : Prop :=
  storedSource rows (String.ofList m.selector) (sideOf m) = some (String.ofList m.source)

def StillThere (methods : List ParsedMethod) (r : FullMethod) : Prop :=
  ∃ m ∈ methods, String.ofList m.selector = r.selector ∧ sideOf m = r.side

variable (st : SaveState)

variable {methods : List ParsedMethod} {rows : List FullMethod} {m : ParsedMethod} {r : FullMethod}

theorem saveOne_unedited (h : Unedited rows m) : saveOne sentSelectors name rows st m = st := by
  unfold saveOne
  dsimp only
  rw [h]
  exact if_pos rfl

theorem saveOne_edited (h : ¬ Unedited rows m) : (saveOne sentSelectors name rows st m).total = st.total + 1 := by
  unfold saveOne SaveState.total
  dsimp only
  split
  next old hold =>
    rw [if_neg fun he => h (hold.trans (congrArg some he))]
    dsimp only
    omega
  next =>
    dsimp only
    omega

theorem removeGone_there (h : StillThere methods r) : removeGone sentSelectors name methods st r = st := by
  unfold removeGone
  obtain ⟨m, hm, hkey⟩ := h
  exact if_pos (any_eq_true.mpr ⟨m, hm, decide_eq_true hkey⟩)

theorem removeGone_gone (h : ¬ StillThere methods r) :
    (removeGone sentSelectors name methods st r).total = st.total + 1 := by
  unfold removeGone SaveState.total
  rw [if_neg]
  · dsimp only
    omega
  · intro ha
    obtain ⟨m, hm, hkey⟩ := any_eq_true.mp ha
    exact h ⟨m, hm, of_decide_eq_true hkey⟩

theorem classNamed_version (hc : s.classNamed name = some c) : ∃ id v, s.classIdOf name = some id ∧
    s.latestClassVersion id = some v ∧ v.deleted = false ∧ c.name = name ∧ c.superclass = v.superclassName ∧
    c.instanceVars = v.instanceVars ∧ c.classVars = v.classVars := by
  unfold Store.classNamed at hc
  obtain ⟨row, hrow, hc⟩ := bind_eq_some_iff.mp hc
  obtain ⟨v, hv, hc⟩ := bind_eq_some_iff.mp hc
  obtain ⟨hdel, hc⟩ := ite_none_left_eq_some.mp hc
  cases hc
  have hname : row.name = name := by simpa using find?_some hrow
  refine ⟨row.classId, v, ?_, hv, Bool.eq_false_iff.mpr hdel, hname, rfl, rfl, rfl⟩
  unfold Store.classIdOf
  rw [hrow]
  rfl

theorem createOrReopenClass_live (hc : s.classNamed name = some c) (superclass : Option String)
    (category comment instanceVars : String) :
    (createOrReopenClass name superclass category comment instanceVars s).2 = s := by
  obtain ⟨id, v, hid, hv, hdel, _⟩ := classNamed_version hc
  unfold createOrReopenClass
  rw [select_bind, hid]
  dsimp only
  rw [queryRow_bind hv, if_neg (by rw [hdel]; exact Bool.false_ne_true)]
  rfl

theorem setClassDefinition_live (hk : s.Keyed) (hc : s.classNamed name = some c) (superclass : Option String)
    (instanceVars : String) : ∃ t, (setClassDefinition name superclass instanceVars s).2 = t ∧
      t.classes = s.classes ∧ t.methods = s.methods ∧ t.methodVersions = s.methodVersions ∧
      t.classNamed name = some { c with superclass := superclass, instanceVars := instanceVars } := by
  obtain ⟨id, v, hid, hv, hdel, hname, hsuper, hivars, hcvars⟩ := classNamed_version hc
  have hrun : (setClassDefinition name superclass instanceVars s).2 =
      s.saveClass id { v with superclassName := superclass, instanceVars := instanceVars, deleted := false } := by
    unfold setClassDefinition
    rw [select_bind, hid]
    dsimp only
    rw [queryRow_bind hv]
    rfl
  refine ⟨_, hrun, rfl, rfl, rfl, ?_⟩
  have hlatest (w : ClassVersion) : (s.saveClass id w).latestClassVersion id = some w := by
    rw [Store.latestClassVersion_eq (hk.saveClass hid w).classVersions]
    unfold Store.saveClass
    rw [VersionTable.history_edit hk.classVersions, if_pos rfl]
    unfold VersionTable.newest
    rw [getLast?_drop, if_neg, getLast?_concat]
    rw [length_append, length_singleton]
    unfold RETENTION_LIMIT
    omega
  unfold Store.classNamed at hc ⊢
  obtain ⟨row, hrow, hc⟩ := bind_eq_some_iff.mp hc
  have hrowid : row.classId = id := by
    unfold Store.classIdOf at hid
    rw [hrow] at hid
    exact some.inj hid
  have hrow' : (s.saveClass id { v with superclassName := superclass, instanceVars := instanceVars, deleted := false }).classes.find?
      (·.name = name) = some row := hrow
  rw [hrow', bind_eq_bind, bind_some, hrowid, hlatest, bind_eq_bind, bind_some]
  rw [hrowid, hv, bind_eq_bind, bind_some, hdel] at hc
  cases hc
  rfl

theorem allMethodsOf_congr {t : Store} (hc : t.classes = s.classes) (hm : t.methods = s.methods)
    (hv : t.methodVersions = s.methodVersions) (name : String) : t.allMethodsOf name = s.allMethodsOf name := by
  have hfull : t.fullMethod = s.fullMethod := by
    funext m
    unfold Store.fullMethod Store.latestMethodVersion
    rw [hv]
  have hid : t.classIdOf name = s.classIdOf name := by
    unfold Store.classIdOf
    rw [hc]
  unfold Store.allMethodsOf
  rw [hm, hfull, hid]

def classText (c : FullClass) (rows : List FullMethod) : List Char :=
  classBlock (c.superclass.getD "Object").toList c.name.toList c.instanceVars.toList c.classVars.toList
    ((rows.map FullMethod.source).map String.toList) true

theorem classSource_eq (hc : s.classNamed name = some c) :
    s.classSource name = some (String.ofList (classText c (s.allMethodsOf name))) := by
  unfold Store.classSource
  rw [hc]
  rfl

structure Rereads (c : FullClass) (rows : List FullMethod) (p : ParsedClass) : Prop where
  name : String.ofList p.name = c.name
  superclass : p.superclass.map String.ofList = c.superclass
  instanceVars : String.ofList p.instanceVars = c.instanceVars
  unedited : ∀ m ∈ p.methods, Unedited rows m
  stillThere : ∀ r ∈ rows, StillThere p.methods r

theorem saveUnchanged_iff_rereads (hk : s.Keyed) (hc : s.classNamed name = some c) :
    SaveUnchanged sentSelectors u s name ↔ ∃ p, (parseMstSource u (classText c (s.allMethodsOf name))).head? = some p ∧
      Rereads c (s.allMethodsOf name) p := by
  obtain ⟨_, _, _, _, _, hname, _⟩ := classNamed_version hc
  constructor
  · rintro ⟨text, s', htext, hsave, hmethods, hversions, hheader⟩
    cases ((classSource_eq hc).symm.trans htext)
    unfold persistEditorClass at hsave
    rw [String.toList_ofList] at hsave
    split at hsave
    next => cases hsave
    next p hp =>
      dsimp only at hsave
      generalize hrows : (setClassDefinition (String.ofList p.name) (p.superclass.map String.ofList)
        (String.ofList p.instanceVars) (createOrReopenClass (String.ofList p.name) (p.superclass.map String.ofList) "" ""
          (String.ofList p.instanceVars) s).2).2 = t at hsave
      generalize hst : p.methods.foldl (saveOne sentSelectors (String.ofList p.name) (t.allMethodsOf (String.ofList p.name)))
        ⟨t, 0, 0, 0⟩ = st at hsave
      generalize hst' : (t.allMethodsOf (String.ofList p.name)).foldl
        (removeGone sentSelectors (String.ofList p.name) p.methods) st = st' at hsave
      split at hsave
      next hzero =>
        obtain ⟨hsum, rfl⟩ := Prod.mk.inj hsave
        have hpname : String.ofList p.name = name := SaveSummary.noChanges.inj hsum
        rw [hpname] at hrows hst hst'
        rw [createOrReopenClass_live hc] at hrows
        obtain ⟨t', ht', hclasses, hmeths, hvers, hnew⟩ := setClassDefinition_live hk hc (p.superclass.map String.ofList)
          (String.ofList p.instanceVars)
        have htt : t' = t := ht'.symm.trans hrows
        subst htt
        have hall := allMethodsOf_congr hclasses hmeths hvers name
        rw [hall] at hst hst'
        have hfirst := foldl_total (f := saveOne sentSelectors name (s.allMethodsOf name))
          (fun st m => saveOne_unedited st) (fun st m => saveOne_edited st) p.methods ⟨t', 0, 0, 0⟩
        have hsecond := foldl_total (f := removeGone sentSelectors name p.methods) (fun st r => removeGone_there st)
          (fun st r => removeGone_gone st) (s.allMethodsOf name) st
        rw [hst] at hfirst
        rw [hst'] at hsecond
        have htotal' : st'.total = 0 := hzero
        have hstart : (⟨t', 0, 0, 0⟩ : SaveState).total = 0 := rfl
        have htotal : st.total = 0 := by omega
        have hkept := hsecond.2.2 (hsecond.2.1 (htotal'.trans htotal.symm))
        have hkept' := hfirst.2.2 (hfirst.2.1 (htotal.trans hstart.symm))
        rw [hkept, hkept'] at hheader
        rw [hnew, hc] at hheader
        obtain ⟨hs, hv⟩ := Prod.mk.inj (some.inj hheader)
        exact ⟨p, hp, hpname.trans hname.symm, hs, (Prod.mk.inj hv).1, hfirst.2.1 (htotal.trans hstart.symm),
          hsecond.2.1 (htotal'.trans htotal.symm)⟩
      next => cases hsave
  · rintro ⟨p, hp, hr⟩
    obtain ⟨t, ht, hclasses, hmeths, hvers, hnew⟩ := setClassDefinition_live hk hc (p.superclass.map String.ofList)
      (String.ofList p.instanceVars)
    have hall := allMethodsOf_congr hclasses hmeths hvers name
    have hpname := hr.name.trans hname
    refine ⟨_, t, classSource_eq hc, ?_, hmeths, hvers, ?_⟩
    · unfold persistEditorClass
      rw [String.toList_ofList, hp]
      dsimp only
      rw [hpname, createOrReopenClass_live hc, ht, hall]
      have hfirst := (foldl_total (f := saveOne sentSelectors name (s.allMethodsOf name))
        (fun st m => saveOne_unedited st) (fun st m => saveOne_edited st) p.methods ⟨t, 0, 0, 0⟩).2.2 hr.unedited
      rw [hfirst]
      have hsecond := (foldl_total (f := removeGone sentSelectors name p.methods) (fun st r => removeGone_there st)
        (fun st r => removeGone_gone st) (s.allMethodsOf name) ⟨t, 0, 0, 0⟩).2.2 hr.stillThere
      rw [hsecond]
      rfl
    · rw [hnew, hc, hr.superclass, hr.instanceVars]

end WinArmVm.ImageStore
