import WinArmVm.ClassCount
import WinArmVm.ClassSave

namespace WinArmVm.ImageStore

open List Option

open Mst (ParsedClass ParsedMethod parseMstSource WholeMethod classOpening classBody methodLines)
open WinArmVm.Types (CharClass IsName)

variable {u : CharClass} {sentSelectors : String → List String} {s : Store} {name : String} {c : FullClass}

def parsedOf (r : FullMethod) : ParsedMethod := ⟨r.selector.toList, decide (r.side = .Class), r.source.toList⟩

/-- A class with a superclass, whose names are names, whose instance variables stand one blank apart, and of
whose methods every source is one method on its own. -/
structure Rereadable (u : CharClass) (c : FullClass) (rows : List FullMethod) : Prop where
  superclass : ∃ superclass, c.superclass = some superclass ∧ IsName u superclass.toList ∧ superclass ≠ "nil"
  name : IsName u c.name.toList
  instanceVars : ∃ vs, (∀ v ∈ vs, IsName u v) ∧ c.instanceVars.toList = [' '].intercalate vs
  methods : ∀ r ∈ rows, WholeMethod u c.name.toList (parsedOf r)

theorem sideOf_parsedOf (r : FullMethod) : sideOf (parsedOf r) = r.side := by
  unfold sideOf parsedOf
  cases r.side with
  | Instance => rfl
  | Class => rfl

variable {rows : List FullMethod} {r : FullMethod}

theorem parsedOf_eq {m : ParsedMethod} (hselector : String.ofList m.selector = r.selector)
    (hside : sideOf m = r.side) (hsource : r.source = String.ofList m.source) : m = parsedOf r := by
  obtain ⟨selector, isClassSide, source⟩ := m
  unfold parsedOf
  rw [← hselector, ← hside, hsource, String.toList_ofList, String.toList_ofList]
  unfold sideOf
  cases isClassSide with
  | false => rfl
  | true => rfl

def keyOf (r : FullMethod) : String × Side := (r.selector, r.side)

theorem storedSource_row (hn : (rows.map keyOf).Nodup) (hr : r ∈ rows) :
    storedSource rows r.selector r.side = some r.source := by
  unfold storedSource
  cases hf : rows.reverse.find? fun r' => r'.selector = r.selector ∧ r'.side = r.side with
  | none =>
    have hnone := find?_eq_none.mp hf r (mem_reverse.mpr hr)
    exact absurd (decide_eq_true ⟨rfl, rfl⟩) hnone
  | some r' =>
    have hmem := mem_reverse.mp (mem_of_find?_eq_some hf)
    have hkey : r'.selector = r.selector ∧ r'.side = r.side := by simpa using find?_some hf
    have hsame := inj_on_of_nodup_map hn hmem hr (Prod.ext hkey.1 hkey.2)
    rw [hsame]
    rfl

theorem parsedOf_nodup (hn : (rows.map keyOf).Nodup) : (rows.map parsedOf).Nodup := by
  refine List.Nodup.map_on (fun a ha b hb hab => inj_on_of_nodup_map hn ha hb ?_) (List.Nodup.of_map _ hn)
  have hselector : a.selector.toList = b.selector.toList := congrArg ParsedMethod.selector hab
  have hside := congrArg sideOf hab
  rw [sideOf_parsedOf, sideOf_parsedOf] at hside
  exact Prod.ext (String.toList_inj.mp hselector) hside

theorem fullMethod_key {m : MethodRow} (h : s.fullMethod m = some r) : r.selector = m.selector ∧ r.side = m.side := by
  unfold Store.fullMethod at h
  split at h
  next =>
    split at h
    next => cases h
    next =>
      cases h
      exact ⟨rfl, rfl⟩
  next => cases h

theorem allMethodsOf_keys (hk : s.Keyed) (name : String) : ((s.allMethodsOf name).map keyOf).Nodup := by
  have hrows : (s.methods.filter fun m => s.classIdOf name = some m.classId).Pairwise fun a b =>
      (a.selector, a.side) ≠ (b.selector, b.side) := by
    have hkeys := pairwise_map.mp hk.methodKeys
    have hsame : (s.methods.filter fun m => s.classIdOf name = some m.classId).Pairwise fun a b =>
        a.classId = b.classId := by
      refine pairwise_of_forall_mem_list fun a ha b hb => ?_
      have ha := of_decide_eq_true (mem_filter.mp ha).2
      have hb := of_decide_eq_true (mem_filter.mp hb).2
      exact some.inj (ha.symm.trans hb)
    refine (hkeys.sublist filter_sublist).imp₂ (fun a b hne hid he => hne ?_) hsame
    obtain ⟨h₁, h₂⟩ := Prod.mk.inj he
    rw [hid, h₁, h₂]
  have hsorted : ((s.methods.filter fun m => s.classIdOf name = some m.classId).insertionSort
      fun a b => a.methodId ≤ b.methodId).Pairwise fun a b => (a.selector, a.side) ≠ (b.selector, b.side) :=
    ((perm_insertionSort _ _).pairwise_iff fun h => h.symm).mpr hrows
  unfold Store.allMethodsOf List.Nodup
  rw [pairwise_map, pairwise_filterMap]
  refine hsorted.imp fun hne a ha b hb he => hne ?_
  obtain ⟨ha₁, ha₂⟩ := fullMethod_key ha
  obtain ⟨hb₁, hb₂⟩ := fullMethod_key hb
  obtain ⟨h₁, h₂⟩ := Prod.mk.inj he
  rw [← ha₁, ← ha₂, ← hb₁, ← hb₂, h₁, h₂]

theorem classBlock_eq (superclass name instanceVars classVars : List Char) (sources : List (List Char)) :
    classBlock superclass name instanceVars classVars sources true =
      classOpening superclass name (classBody instanceVars classVars (methodLines sources ++ "]\n".toList)) := by
  have hhead : " subclass: ".toList = ' ' :: ("subclass:".toList ++ [' ']) := by decide
  have hopen : " [\n".toList = [' ', '[', '\n'] := by decide
  have hvars : ∀ v p m : List Char, superclass ++ " subclass: ".toList ++ name ++ " [\n".toList ++ (v ++ p) ++ m ++
      "]\n".toList = classOpening superclass name ('\n' :: (v ++ (p ++ (m ++ "]\n".toList)))) := by
    intro v p m
    unfold classOpening
    rw [hhead, hopen]
    simp only [append_assoc, cons_append, nil_append]
  exact hvars ..

theorem classText_eq (c : FullClass) (rows : List FullMethod) : classText c rows =
    classOpening (c.superclass.getD "Object").toList c.name.toList (classBody c.instanceVars.toList c.classVars.toList
      (methodLines ((rows.map parsedOf).map ParsedMethod.source) ++ "]\n".toList)) := by
  have hsources : (rows.map parsedOf).map ParsedMethod.source = (rows.map FullMethod.source).map String.toList := by
    rw [List.map_map, List.map_map]
    rfl
  rw [hsources]
  exact classBlock_eq ..

theorem Rereadable.rereads (h : Rereadable u c rows) (hn : (rows.map keyOf).Nodup)
    (hcv : '>' ∉ c.classVars.toList) : ∃ p, (parseMstSource u (classText c rows)).head? = some p ∧ Rereads c rows p := by
  obtain ⟨superclass, hsuper, hsname, hnil⟩ := h.superclass
  obtain ⟨vs, hvs, hivars⟩ := h.instanceVars
  have hwhole : ∀ m ∈ rows.map parsedOf, WholeMethod u c.name.toList m := by
    intro m hm
    obtain ⟨r, hr, rfl⟩ := mem_map.mp hm
    exact h.methods r hr
  obtain ⟨cv, hbody⟩ := Mst.readBody_header c.name.toList vs hvs hcv
    (methodLines ((rows.map parsedOf).map ParsedMethod.source) ++ "]\n".toList)
  rw [Mst.readBody_methods _ hwhole] at hbody
  have hparse := Mst.parse_text hsname h.name (classBody c.instanceVars.toList c.classVars.toList
    (methodLines ((rows.map parsedOf).map ParsedMethod.source) ++ "]\n".toList))
  rw [hivars, hbody] at hparse
  refine ⟨_, by rw [classText_eq, hsuper, hivars]; exact hparse, ?_⟩
  have hnil' : superclass.toList ≠ "nil".toList := fun he => hnil (String.toList_inj.mp he)
  refine ⟨String.ofList_toList, ?_, ?_, ?_, ?_⟩
  · unfold Mst.parsedClass
    rw [if_neg hnil', hsuper, map_some, String.ofList_toList]
  · show String.ofList ([' '].intercalate vs) = _
    rw [← hivars, String.ofList_toList]
  · intro m hm
    obtain ⟨r, hr, rfl⟩ := mem_map.mp hm
    unfold Unedited
    rw [sideOf_parsedOf]
    show storedSource rows (String.ofList r.selector.toList) r.side = some (String.ofList r.source.toList)
    rw [String.ofList_toList, String.ofList_toList, storedSource_row hn hr]
  · intro r hr
    exact ⟨parsedOf r, mem_map_of_mem hr, String.ofList_toList, sideOf_parsedOf r⟩

theorem Rereads.rereadable {p : ParsedClass} (h : Rereads c rows p)
    (hp : (parseMstSource u (classText c rows)).head? = some p) (hn : (rows.map keyOf).Nodup)
    (hcv : '>' ∉ c.classVars.toList) : Rereadable u c rows := by
  have hnamed := Mst.parse_named _ p (mem_of_head? hp)
  have hname : p.name = c.name.toList := by rw [← h.name, String.toList_ofList]
  obtain ⟨vs, hvs, hivars⟩ := hnamed.instanceVars
  have hivars' : c.instanceVars.toList = [' '].intercalate vs := by rw [← h.instanceVars, String.toList_ofList, hivars]
  have hcname : IsName u c.name.toList := hname ▸ hnamed.name
  cases hs : p.superclass with
  | none =>
    have hsuper := h.superclass
    rw [hs] at hsuper
    rw [classText_eq, ← hsuper] at hp
    have hfirst := some.inj (hp.symm.trans (Mst.parse_text Mst.isName_Object hcname _))
    rw [hfirst] at hs
    cases hs
  | some superclass =>
    obtain ⟨hsname, hnil⟩ := hnamed.superclass superclass hs
    have hsuper := h.superclass
    rw [hs, map_some] at hsuper
    refine ⟨⟨_, hsuper.symm, by rw [String.toList_ofList]; exact hsname, fun he => hnil ?_⟩, hcname, ⟨vs, hvs, hivars'⟩, ?_⟩
    · rw [← he, String.toList_ofList]
    rw [classText_eq, ← hsuper, getD_some, String.toList_ofList, hivars'] at hp
    have hfirst := some.inj (hp.symm.trans (Mst.parse_text hsname hcname _))
    obtain ⟨cv, hbody⟩ := Mst.readBody_header c.name.toList vs hvs hcv
      (methodLines ((rows.map parsedOf).map ParsedMethod.source) ++ "]\n".toList)
    rw [hbody] at hfirst
    have hmethods := congrArg ParsedClass.methods hfirst
    have hmem : ∀ m ∈ rows.map parsedOf, m ∈ p.methods := by
      intro m hm
      obtain ⟨r, hr, rfl⟩ := mem_map.mp hm
      obtain ⟨m, hm, hselector, hside⟩ := h.stillThere r hr
      have hsource := h.unedited m hm
      unfold Unedited at hsource
      rw [hselector, hside, storedSource_row hn hr] at hsource
      exact parsedOf_eq hselector hside (some.inj hsource) ▸ hm
    rw [hmethods] at hmem
    have hall := Mst.whole_of_sources (parsedOf_nodup hn) hmem rfl
    exact fun r hr => hall _ (mem_map_of_mem hr)

theorem saveUnchanged_iff_rereadable (hk : s.Keyed) (hc : s.classNamed name = some c) (hcv : '>' ∉ c.classVars.toList) :
    SaveUnchanged sentSelectors u s name ↔ Rereadable u c (s.allMethodsOf name) := by
  rw [saveUnchanged_iff_rereads hk hc]
  constructor
  · rintro ⟨p, hp, hr⟩
    exact hr.rereadable hp (allMethodsOf_keys hk name) hcv
  · exact fun h => h.rereads (allMethodsOf_keys hk name) hcv

/-- Opening a live class of any image and saving its text changes nothing exactly if the class can be read again. -/
theorem save_unchanged_iff (sentSelectors : String → List String) (u : CharClass) (edits : List Edit) {name : String}
    {c : FullClass} (hc : (run sentSelectors edits .empty).classNamed name = some c) (hcv : '>' ∉ c.classVars.toList) :
    SaveUnchanged sentSelectors u (run sentSelectors edits .empty) name ↔
      Rereadable u c ((run sentSelectors edits .empty).allMethodsOf name) :=
  saveUnchanged_iff_rereadable (run_keyed edits) hc hcv

def pointEdits : List Edit := [.addClass "Point" (some "Object") "" "" "x" "Origin" 0,
    .addMethod ⟨"Point", .Instance, "x"⟩ "accessing" "x [ ^x ]"]

def pointClass : FullClass := ⟨"Point", some "Object", "", "", "x", "Origin", 0⟩

theorem save_unchanged_point : '>' ∉ pointClass.classVars.toList ∧
    (SaveUnchanged (fun _ => []) Types.asciiClass (run (fun _ => []) pointEdits .empty) "Point" ↔
      Rereadable Types.asciiClass pointClass ((run (fun _ => []) pointEdits .empty).allMethodsOf "Point")) :=
  ⟨by decide, save_unchanged_iff _ _ pointEdits rfl (by decide)⟩

/-- A root class is saved below `Object`. -/
theorem root_save_changes : ¬ SaveUnchanged (fun _ => []) Types.asciiClass
    (run (fun _ => []) [.addClass "Object" none "" "" "" "" 0] .empty) "Object" := by
  have hc : (run (fun _ => []) [.addClass "Object" none "" "" "" "" 0] .empty).classNamed "Object" =
    some ⟨"Object", none, "", "", "", "", 0⟩ := rfl
  rw [saveUnchanged_iff_rereadable (run_keyed _) hc (by decide)]
  intro h
  obtain ⟨superclass, hsuper, _⟩ := h.superclass
  cases hsuper

end WinArmVm.ImageStore
