import WinArmVm.ClassDef
import Mathlib.Data.List.Forall2

namespace WinArmVm.Frontend

open List Option Function

variable {Code : Type}

structure KlassInfo.Grows (k k' : KlassInfo Code) : Prop where
  superclass : k'.superclass = k.superclass
  instVarNames : k'.instVarNames = k.instVarNames
  classVars : k.classVars <+: k'.classVars

structure KlassInfo.SameShape (k k' : KlassInfo Code) : Prop where
  superclass : k'.superclass = k.superclass
  name : k'.name = k.name
  format : k'.format = k.format
  untagged : k'.untagged = k.untagged
  nis : k'.nis = k.nis
  instVarNames : k'.instVarNames = k.instVarNames
  classVars : k'.classVars = k.classVars

theorem KlassInfo.Grows.refl (k : KlassInfo Code) : k.Grows k := ⟨rfl, rfl, List.prefix_refl _⟩

variable {k k' k'' : KlassInfo Code} {α : Type} {R : α → α → Prop}

theorem KlassInfo.Grows.trans (h : k.Grows k') (h' : k'.Grows k'') : k.Grows k'' :=
  ⟨h'.superclass.trans h.superclass, h'.instVarNames.trans h.instVarNames, h.classVars.trans h'.classVars⟩

theorem KlassInfo.SameShape.refl (k : KlassInfo Code) : k.SameShape k := ⟨rfl, rfl, rfl, rfl, rfl, rfl, rfl⟩

theorem KlassInfo.SameShape.trans (h : k.SameShape k') (h' : k'.SameShape k'') : k.SameShape k'' :=
  ⟨h'.superclass.trans h.superclass, h'.name.trans h.name, h'.format.trans h.format,
    h'.untagged.trans h.untagged, h'.nis.trans h.nis, h'.instVarNames.trans h.instVarNames,
    h'.classVars.trans h.classVars⟩

theorem KlassInfo.SameShape.symm {k k' : KlassInfo Code} (h : k.SameShape k') : k'.SameShape k :=
  ⟨h.superclass.symm, h.name.symm, h.format.symm, h.untagged.symm, h.nis.symm, h.instVarNames.symm, h.classVars.symm⟩

theorem forall₂_getElem? {l l' : List α} (h : List.Forall₂ R l l') (i : Nat) :
    (l[i]? = none ∧ l'[i]? = none) ∨ ∃ a b, l[i]? = some a ∧ l'[i]? = some b ∧ R a b := by
  induction h generalizing i with
  | nil => exact .inl ⟨rfl, rfl⟩
  | cons hr _ ih =>
    cases i with
    | zero => exact .inr ⟨_, _, rfl, rfl, hr⟩
    | succ i => exact ih i

theorem forall₂_trans (ht : ∀ a b c, R a b → R b c → R a c) {l l' l'' : List α}
    (h : List.Forall₂ R l l') (h' : List.Forall₂ R l' l'') : List.Forall₂ R l l'' := by
  induction h generalizing l'' with
  | nil =>
    cases h'
    exact List.Forall₂.nil
  | cons hr _ ih =>
    cases h' with
    | cons hr' h' => exact List.Forall₂.cons (ht _ _ _ hr hr') (ih h')

theorem forall₂_modify (hr : ∀ a, R a a) {f : α → α} (hf : ∀ a, R a (f a))
    (l : List α) (i : Nat) : List.Forall₂ R l (l.modify i f) := by
  induction l generalizing i with
  | nil =>
    rw [modify_nil]
    exact List.Forall₂.nil
  | cons a l ih =>
    cases i with
    | zero => exact List.Forall₂.cons (hf a) (forall₂_same.mpr fun x _ => hr x)
    | succ i => exact List.Forall₂.cons (hr a) (ih i)

namespace World

variable {w w' w'' : World Code} {id s : Nat} {name : String} {b : Bound} {node : ClassDefNode}

section Chain

variable {R : KlassInfo Code → KlassInfo Code → Prop}

theorem chainFrom_rel (hR : ∀ k k', R k k' → k'.superclass = k.superclass)
    (h : List.Forall₂ R w.klasses w'.klasses) (fuel id : Nat) :
    List.Forall₂ R (w.chainFrom fuel id) (w'.chainFrom fuel id) := by
  induction fuel generalizing id with
  | zero => exact List.Forall₂.nil
  | succ fuel ih =>
    unfold chainFrom
    rcases forall₂_getElem? h id with ⟨h₁, h₂⟩ | ⟨k, k', h₁, h₂, hk⟩
    · simp only [h₁, h₂]
      exact List.Forall₂.nil
    · have hlen := h.length_eq
      simp only [h₁, h₂, hR k k' hk]
      unfold asKlass
      cases k.superclass with
      | nil => exact List.Forall₂.cons hk List.Forall₂.nil
      | other n => exact List.Forall₂.cons hk List.Forall₂.nil
      | klass s =>
        by_cases hs : s < w.klasses.length
        · have hs' : s < w'.klasses.length := by omega
          simp only [dif_pos hs, dif_pos hs']
          exact List.Forall₂.cons hk (ih s)
        · have hs' : ¬ s < w'.klasses.length := by omega
          simp only [dif_neg hs, dif_neg hs']
          exact List.Forall₂.cons hk List.Forall₂.nil

theorem chain_map {β : Type} {f : KlassInfo Code → β}
    (hR : ∀ k k', R k k' → k'.superclass = k.superclass) (hf : ∀ k k', R k k' → f k' = f k)
    (h : List.Forall₂ R w.klasses w'.klasses) (id : Nat) : (w'.chain id).map f = (w.chain id).map f := by
  have hc := chainFrom_rel hR h (id + 1) id
  unfold chain
  generalize w.chainFrom (id + 1) id = l at hc ⊢
  generalize w'.chainFrom (id + 1) id = l' at hc ⊢
  induction hc with
  | nil => rfl
  | cons hr _ ih => rw [map_cons, map_cons, hf _ _ hr, ih]

theorem chain_head {k : KlassInfo Code} (hk : w.klasses[id]? = some k) : ∃ rest, w.chain id = k :: rest := by
  unfold chain chainFrom
  simp only [hk]
  split
  next => exact ⟨[], rfl⟩
  next => exact ⟨_, rfl⟩

end Chain

theorem findClassVar_congr (h : List.Forall₂ KlassInfo.SameShape w.klasses w'.klasses) (id : Nat) :
    w'.findClassVar id = w.findClassVar id := by
  have hclass := chain_map (f := KlassInfo.classVars) (fun _ _ hk => hk.superclass) (fun _ _ hk => hk.classVars) h id
  funext name
  unfold findClassVar
  rw [← comp_def (fun l : List ClassVar => (l.find? fun v => v.name == name).map ClassVar.assoc)
    KlassInfo.classVars, ← findSome?_map, ← findSome?_map, hclass]

theorem names_congr (h : List.Forall₂ KlassInfo.SameShape w.klasses w'.klasses)
    (hg : w'.globals = w.globals) (id : Nat) (classSide : Bool) : w'.names id classSide = w.names id classSide := by
  have hinst := chain_map (f := KlassInfo.instVarNames) (fun _ _ hk => hk.superclass) (fun _ _ hk => hk.instVarNames) h id
  have hflat : w'.flattenInstVars id = w.flattenInstVars id := by
    unfold flattenInstVars
    rw [flatMap_def, flatMap_def, map_reverse, map_reverse, hinst]
  unfold names globalLookup
  rw [hflat, findClassVar_congr h id, hg]

theorem findClassVar_mono (h : List.Forall₂ KlassInfo.Grows w.klasses w'.klasses)
    (hs : (w.findClassVar id name).isSome = true) : (w'.findClassVar id name).isSome = true := by
  have hc := chainFrom_rel (fun _ _ hk => hk.superclass) h (id + 1) id
  unfold findClassVar chain at hs ⊢
  generalize w.chainFrom (id + 1) id = l at hc hs
  generalize w'.chainFrom (id + 1) id = l' at hc ⊢
  induction hc with
  | nil => exact hs
  | @cons k k' _ _ hk _ ih =>
    rw [findSome?_cons] at hs ⊢
    cases hf : k'.classVars.find? fun v => v.name == name with
    | some v => rfl
    | none =>
      have hnone : k.classVars.find? (fun v => v.name == name) = none := by
        apply find?_eq_none.mpr
        exact fun v hv => find?_eq_none.mp hf v (hk.classVars.subset hv)
      rw [hnone] at hs
      exact ih hs

theorem appendClassVar_grows (w : World Code) (id : Nat) (name : String) :
    List.Forall₂ KlassInfo.Grows w.klasses (w.appendClassVar id name).klasses ∧
      (w.appendClassVar id name).globals = w.globals := by
  unfold appendClassVar
  split
  next => exact ⟨forall₂_same.mpr fun k _ => KlassInfo.Grows.refl k, rfl⟩
  next =>
    have hf : ∀ k : KlassInfo Code, k.Grows { k with classVars := k.classVars ++ [⟨name, w.values.length⟩] } :=
      fun k => ⟨rfl, rfl, prefix_append _ _⟩
    exact ⟨forall₂_modify KlassInfo.Grows.refl hf w.klasses id, rfl⟩

theorem appendClassVar_found (hid : id < w.klasses.length) (name : String) :
    ((w.appendClassVar id name).findClassVar id name).isSome = true := by
  unfold appendClassVar
  split
  next a ha => rw [ha]; rfl
  next =>
    have hk : w.klasses[id]? = some w.klasses[id] := getElem?_eq_getElem hid
    generalize w.klasses[id] = k at hk
    have hk' : (({ w with values := w.values ++ [Bound.nil] } : World Code).updateKlass id fun k =>
        { k with classVars := k.classVars ++ [ClassVar.mk name w.values.length] }).klasses[id]? =
        some { k with classVars := k.classVars ++ [ClassVar.mk name w.values.length] } := by
      unfold updateKlass
      simp only [getElem?_modify_eq, hk, Option.map_eq_map, map_some]
    obtain ⟨rest, hchain⟩ := chain_head hk'
    have hfind : ((k.classVars ++ [ClassVar.mk name w.values.length]).find? fun v => v.name == name).isSome = true := by
      apply find?_isSome.mpr
      exact ⟨⟨name, _⟩, mem_append.mpr (.inr (mem_singleton.mpr rfl)), by simp⟩
    obtain ⟨v, hv⟩ := isSome_iff_exists.mp hfind
    dsimp only
    unfold findClassVar
    rw [hchain]
    simp only [findSome?_cons, hv, map_some, isSome_some]

theorem appendClassVars_spec (id : Nat) (l : List String) (w : World Code) (hid : id < w.klasses.length) :
    List.Forall₂ KlassInfo.Grows w.klasses (w.appendClassVars id l).klasses ∧
      (w.appendClassVars id l).globals = w.globals ∧
      ∀ name ∈ l, ((w.appendClassVars id l).findClassVar id name).isSome = true := by
  induction l generalizing w with
  | nil => exact ⟨forall₂_same.mpr fun k _ => KlassInfo.Grows.refl k, rfl, fun _ h => by cases h⟩
  | cons n l ih =>
    obtain ⟨hgrows, hglobals⟩ := w.appendClassVar_grows id n
    have hlen := hgrows.length_eq
    obtain ⟨hgrows', hglobals', hfound⟩ := ih (w.appendClassVar id n) (by omega)
    have htrans := forall₂_trans (R := KlassInfo.Grows) (fun _ _ _ h h' => h.trans h') hgrows hgrows'
    refine ⟨htrans, hglobals'.trans hglobals, fun name hname => ?_⟩
    rcases mem_cons.mp hname with rfl | hname
    · exact findClassVar_mono hgrows' (appendClassVar_found hid _)
    · exact hfound name hname

theorem appendClassVars_same (id : Nat) (l : List String) (w : World Code)
    (h : ∀ name ∈ l, (w.findClassVar id name).isSome = true) : w.appendClassVars id l = w := by
  induction l with
  | nil => rfl
  | cons n l ih =>
    have hn : w.appendClassVar id n = w := by
      obtain ⟨a, ha⟩ := isSome_iff_exists.mp (h n mem_cons_self)
      unfold appendClassVar
      rw [ha]
    unfold appendClassVars
    rw [foldl_cons, hn]
    exact ih fun name hname => h name (mem_cons_of_mem n hname)

structure Declared (w : World Code) (node : ClassDefNode) (id : Nat) : Prop where
  bound : w.globalLookup node.name = some (.klass id)
  lt : id < w.klasses.length
  superclass : ∀ k, w.klasses[id]? = some k → w.resolveSuperTarget node = .ok k.superclass
  instVars : ∀ k, w.klasses[id]? = some k → node.instVars ≠ [] → k.instVarNames = node.instVars
  classVars : ∀ name ∈ node.classVars, (w.findClassVar id name).isSome = true

theorem storeFirst_same {l : List (String × Bound)} (h : (l.find? fun g => g.1 == name) = some (name, b)) :
    storeFirst name b l = l := by
  induction l with
  | nil => rfl
  | cons g l ih =>
    unfold storeFirst
    rw [find?_cons] at h
    split at h
    next hg =>
      rw [if_pos hg, some.inj h]
    next hg =>
      rw [if_neg (by simpa using hg), ih h]

theorem globalLookup_find (h : w.globalLookup name = some b) :
    (w.globals.find? fun g => g.1 == name) = some (name, b) := by
  obtain ⟨⟨n, b'⟩, hf, hb⟩ := map_eq_some_iff.mp h
  have hn : n = name := by simpa using find?_some hf
  rw [hf, hn, ← hb]

theorem globalBind_same (h : w.globalLookup name = some b) : w.globalBind name b = w := by
  unfold globalBind
  rw [h]
  rw [storeFirst_same (globalLookup_find h)]

namespace Declared

theorem openClass (h : w.Declared node id) (hnone : node.indexable = none) : w.openClass node = .ok (id, w) := by
  have hlt := h.lt
  have hk : w.klasses[id]? = some w.klasses[id] := getElem?_eq_getElem h.lt
  have hsuper := h.superclass _ hk
  have hinst := h.instVars _ hk
  have hsame := appendClassVars_same id node.classVars w h.classVars
  have hklass : w.asKlass (.klass id) = some ⟨id, h.lt⟩ := dif_pos h.lt
  have hreopen : w.reopenKlass ⟨id, h.lt⟩ w.klasses[id].superclass node = .ok w := by
    have hvars : ¬ (node.instVars ≠ [] ∧ w.klasses[id].instVarNames ≠ node.instVars) :=
      fun hv => hv.2 (hinst hv.1)
    unfold reopenKlass
    simp only [ne_eq, Fin.getElem_fin, not_true_eq_false, if_false, hnone, isSome_none, Bool.false_eq_true, hsame]
    exact if_neg hvars
  unfold World.openClass
  simp only [h.bound, hklass, hsuper]
  exact congrArg (fun r => r >>= fun w' => Except.ok (id, w')) hreopen

theorem reopen_fails (h : w.Declared node id) (hsome : node.indexable.isSome = true) :
    ∃ e, w.openClass node = .error e := by
  have hlt := h.lt
  have hk : w.klasses[id]? = some w.klasses[id] := getElem?_eq_getElem h.lt
  have hklass : w.asKlass (.klass id) = some ⟨id, h.lt⟩ := dif_pos h.lt
  refine ⟨error node.span ("cannot change shape of existing class " ++ node.name), ?_⟩
  unfold World.openClass
  simp only [h.bound, hklass, h.superclass _ hk]
  have hreopen : w.reopenKlass ⟨id, h.lt⟩ w.klasses[id].superclass node =
      .error (error node.span ("cannot change shape of existing class " ++ node.name)) := by
    unfold reopenKlass
    simp only [ne_eq, Fin.getElem_fin, not_true_eq_false, if_false, hsome, if_true]
  exact congrArg (fun r => r >>= fun w' => Except.ok (id, w')) hreopen

theorem congr (h : w.Declared node id) (hs : List.Forall₂ KlassInfo.SameShape w.klasses w'.klasses)
    (hg : w'.globals = w.globals) : w'.Declared node id := by
  have hnames := names_congr hs hg id false
  have hfind : w'.findClassVar id = w.findClassVar id := congrArg Names.classVar hnames
  have hlookup : w'.globalLookup = w.globalLookup := by
    unfold globalLookup
    rw [hg]
  have htarget : w'.resolveSuperTarget node = w.resolveSuperTarget node := by
    unfold resolveSuperTarget
    rw [hlookup]
  have hback : ∀ k', w'.klasses[id]? = some k' → ∃ k, w.klasses[id]? = some k ∧ k.SameShape k' := by
    intro k' hk'
    rcases forall₂_getElem? hs id with ⟨_, h₂⟩ | ⟨a, b, h₁, h₂, hab⟩
    · rw [h₂] at hk'
      cases hk'
    · rw [h₂] at hk'
      cases hk'
      exact ⟨a, h₁, hab⟩
  refine ⟨by rw [hlookup]; exact h.bound, by rw [← hs.length_eq]; exact h.lt, fun k' hk' => ?_,
    fun k' hk' hne => ?_, fun name hname => ?_⟩
  · obtain ⟨k, hk, hkk⟩ := hback k' hk'
    rw [htarget, h.superclass k hk, hkk.superclass]
  · obtain ⟨k, hk, hkk⟩ := hback k' hk'
    rw [hkk.instVarNames, h.instVars k hk hne]
  · rw [hfind]
    exact h.classVars name hname

end Declared

theorem asKlass_eq {k : Fin w.klasses.length} (h : w.asKlass b = some k) : b = .klass k.val := by
  cases b with
  | nil => cases h
  | other n => cases h
  | klass n =>
    unfold asKlass at h
    dsimp only at h
    split at h
    next hn =>
      cases some.inj h
      rfl
    next => cases h

theorem globalBind_new (h : w.globalLookup name = none) :
    (w.globalBind name b).globals = w.globals ++ [(name, b)] ∧ (w.globalBind name b).klasses = w.klasses := by
  unfold globalBind
  rw [h]
  exact ⟨rfl, rfl⟩

theorem globalLookup_append (hg : w'.globals = w.globals ++ [(name, b)]) (hnew : w.globalLookup name = none) :
    w'.globalLookup name = some b ∧ ∀ n b', w.globalLookup n = some b' → w'.globalLookup n = some b' := by
  unfold globalLookup at hnew ⊢
  rw [hg]
  refine ⟨?_, fun n b' hn => ?_⟩
  · rw [find?_append, map_eq_none_iff.mp hnew]
    simp
  · obtain ⟨g, hf, hb⟩ := map_eq_some_iff.mp hn
    rw [find?_append, hf]
    exact congrArg some hb

/-- The class in the opened world: its superclass and instance variables are the definition's,
its class variables are found. -/
structure Opened (w : World Code) (node : ClassDefNode) (super : Bound) (id : Nat) : Prop where
  lt : id < w.klasses.length
  superclass : ∀ k, w.klasses[id]? = some k → k.superclass = super
  instVars : ∀ k, w.klasses[id]? = some k → node.instVars ≠ [] → k.instVarNames = node.instVars
  classVars : ∀ name ∈ node.classVars, (w.findClassVar id name).isSome = true

theorem appendClassVars_opened {k : KlassInfo Code} (hk : w.klasses[id]? = some k)
    (hinst : node.instVars ≠ [] → k.instVarNames = node.instVars) :
    (w.appendClassVars id node.classVars).Opened node k.superclass id ∧
      (w.appendClassVars id node.classVars).globals = w.globals := by
  have hlt : id < w.klasses.length := (List.getElem?_eq_some_iff.mp hk).1
  obtain ⟨hgrows, hglobals, hfound⟩ := appendClassVars_spec id node.classVars w hlt
  have hinfo : ∀ k', (w.appendClassVars id node.classVars).klasses[id]? = some k' → k.Grows k' := by
    intro k' hk'
    rcases forall₂_getElem? hgrows id with ⟨_, h₂⟩ | ⟨a, b, h₁, h₂, hab⟩
    · rw [h₂] at hk'
      cases hk'
    · rw [h₂] at hk'
      rw [hk] at h₁
      cases hk'
      cases h₁
      exact hab
  have hlen := hgrows.length_eq
  refine ⟨⟨by omega, fun k' hk' => (hinfo k' hk').superclass, fun k' hk' hne => ?_, hfound⟩, hglobals⟩
  rw [(hinfo k' hk').instVarNames, hinst hne]

theorem createKlass_opened (super : Fin w.klasses.length) (node : ClassDefNode) :
    (w.createKlass super node).2.Opened node (.klass super.val) (w.createKlass super node).1 ∧
      (w.createKlass super node).2.globals = w.globals := by
  unfold createKlass
  dsimp only
  generalize hinfo : KlassInfo.mk (Bound.klass super.val) node.name _ _ _ node.instVars [] _ _ = k
  have hsuper : k.superclass = .klass super.val := by rw [← hinfo]
  have hvars : k.instVarNames = node.instVars := by rw [← hinfo]
  have hk : ({ w with klasses := w.klasses ++ [k] } : World Code).klasses[w.klasses.length]? = some k := by
    simp
  have h := appendClassVars_opened hk (fun _ => hvars)
  rw [hsuper] at h
  exact h

theorem resolveSuperTarget_mono (h : ∀ n b', w.globalLookup n = some b' → w'.globalLookup n = some b')
    (hb : w.resolveSuperTarget node = .ok b) : w'.resolveSuperTarget node = .ok b := by
  unfold resolveSuperTarget at hb ⊢
  split at hb
  next hnil =>
    rw [if_pos hnil]
    exact hb
  next hnil =>
    rw [if_neg hnil]
    split at hb
    next b' hb' =>
      rw [h _ _ hb']
      exact hb
    next => cases hb

theorem except_bind_ok {ε α β : Type} {x : Except ε α} {f : α → Except ε β} {r : β} (h : (x >>= f) = .ok r) :
    ∃ a, x = .ok a ∧ f a = .ok r := by
  cases x with
  | error e => cases h
  | ok a => exact ⟨a, rfl, h⟩

theorem openClass_declared {wo : World Code} (h : w.openClass node = .ok (id, wo)) :
    (wo.globalBind node.name (.klass id)).Declared node id := by
  unfold openClass at h
  split at h
  next hnew =>
    cases htarget : w.resolveSuperTarget node with
    | error e =>
      rw [htarget] at h
      cases h
    | ok target =>
      rw [htarget] at h
      simp only [Bind.bind, Except.bind] at h
      split at h
      next => cases h
      next super hsuper =>
        obtain ⟨hopened, hglobals⟩ := createKlass_opened super node
        rw [Except.ok.inj h] at hopened hglobals
        have htarget' := asKlass_eq hsuper
        have hnew' : wo.globalLookup node.name = none := by
          unfold globalLookup at hnew ⊢
          rw [hglobals]
          exact hnew
        obtain ⟨hg, hklasses⟩ := globalBind_new (b := .klass id) hnew'
        obtain ⟨hbound, hold⟩ := globalLookup_append hg hnew'
        have hfind : (wo.globalBind node.name (.klass id)).findClassVar id = wo.findClassVar id :=
          findClassVar_congr (by
            rw [hklasses]
            exact forall₂_same.mpr fun k _ => KlassInfo.SameShape.refl k) id
        refine ⟨hbound, by rw [hklasses]; exact hopened.lt, fun k hk => ?_, fun k hk hne => ?_, fun name hname => ?_⟩
        · rw [hklasses] at hk
          rw [hopened.superclass k hk, ← htarget']
          exact resolveSuperTarget_mono (fun n b' hn => hold n b' (by
            unfold globalLookup at hn ⊢
            rw [hglobals]
            exact hn)) htarget
        · rw [hklasses] at hk
          exact hopened.instVars k hk hne
        · rw [hfind]
          exact hopened.classVars name hname
  next b hb =>
    split at h
    next => cases h
    next existing hexisting =>
      have hb' := asKlass_eq hexisting
      cases htarget : w.resolveSuperTarget node with
      | error e =>
        rw [htarget] at h
        cases h
      | ok target =>
        rw [htarget] at h
        obtain ⟨_, ht, h⟩ := except_bind_ok h
        cases Except.ok.inj ht
        obtain ⟨wr, hreopen, h⟩ := except_bind_ok h
        obtain ⟨rfl, rfl⟩ := Prod.mk.inj (Except.ok.inj h)
        unfold reopenKlass at hreopen
        dsimp only at hreopen
        split at hreopen
        next => cases hreopen
        next hsuper =>
          split at hreopen
          next => cases hreopen
          next =>
            split at hreopen
            next => cases hreopen
            next hinst =>
              have hsuper : w.klasses[existing].superclass = target := not_not.mp hsuper
              have hk : w.klasses[existing.val]? = some w.klasses[existing] := getElem?_eq_getElem existing.isLt
              have hvars : node.instVars ≠ [] → w.klasses[existing].instVarNames = node.instVars :=
                fun hne => not_not.mp fun hv => hinst ⟨hne, hv⟩
              obtain ⟨hopened, hglobals⟩ := appendClassVars_opened hk hvars
              rw [Except.ok.inj hreopen, hsuper] at hopened
              rw [Except.ok.inj hreopen] at hglobals
              have hbound : wr.globalLookup node.name = some (.klass existing.val) := by
                unfold globalLookup at hb ⊢
                rw [hglobals, hb, hb']
              rw [globalBind_same hbound]
              refine ⟨hbound, hopened.lt, fun k hk => ?_, hopened.instVars, hopened.classVars⟩
              rw [hopened.superclass k hk]
              exact resolveSuperTarget_mono (fun n b' hn => by
                unfold globalLookup at hn ⊢
                rw [hglobals]
                exact hn) htarget

structure SameHeader (node node' : ClassDefNode) : Prop where
  superclass : node'.superclass = node.superclass
  name : node'.name = node.name
  indexable : node'.indexable = node.indexable
  instVars : node'.instVars = node.instVars
  classVars : node'.classVars = node.classVars

theorem openClass_header {node' : ClassDefNode} {r : Nat × World Code} (h : SameHeader node node')
    (hr : w.openClass node' = .ok r) : w.openClass node = .ok r := by
  obtain ⟨h₁, h₂, h₃, h₄, h₅⟩ := h
  have htarget : ∀ t, w.resolveSuperTarget node' = .ok t → w.resolveSuperTarget node = .ok t := by
    intro t ht
    unfold resolveSuperTarget at ht ⊢
    rw [h₁] at ht
    split at ht
    next hnil =>
      rw [if_pos hnil]
      exact ht
    next hnil =>
      rw [if_neg hnil]
      split at ht
      next b hb => exact ht
      next => cases ht
  have hreopen : ∀ id t wr, w.reopenKlass id t node' = .ok wr → w.reopenKlass id t node = .ok wr := by
    intro id t wr hw
    unfold reopenKlass at hw ⊢
    dsimp only at hw ⊢
    rw [h₃, h₄, h₅] at hw
    split at hw
    next => cases hw
    next hsuper =>
      rw [if_neg hsuper]
      split at hw
      next => cases hw
      next hnone =>
        rw [if_neg hnone]
        split at hw
        next => cases hw
        next hinst =>
          rw [if_neg hinst]
          exact hw
  have hcreate : ∀ super, w.createKlass super node' = w.createKlass super node := by
    intro super
    unfold createKlass
    rw [h₂, h₃, h₄, h₅]
  unfold openClass at hr ⊢
  rw [h₂] at hr
  split at hr
  next =>
    obtain ⟨t, ht, hr⟩ := except_bind_ok hr
    rw [htarget t ht]
    split at hr
    next => cases hr
    next super hsuper =>
      rw [hcreate] at hr
      simp only [bind, Except.bind, hsuper]
      exact hr
  next =>
    split at hr
    next => cases hr
    next =>
      obtain ⟨t, ht, hr⟩ := except_bind_ok hr
      obtain ⟨wr, hw, hr⟩ := except_bind_ok hr
      rw [htarget t ht]
      simp only [bind, Except.bind, hreopen _ t wr hw]
      exact hr

/-- The code a list of methods gives a selector of a side: that of the last such method before
the first that does not compile. -/
def lastCode (compile : MethodNode → Except CompileError Code) : List MethodNode → Bool → String → Option Code
  | [], _, _ => none
  | method :: rest, classSide, selector =>
    match compile method with
    | .error _ => none
    | .ok code => (lastCode compile rest classSide selector).or
        (if classSide = method.classSide ∧ selector = method.patternSelector then some code else none)

def withCode (f : Bool → String → Option Code) (k : KlassInfo Code) : KlassInfo Code :=
  { k with
    methods := fun selector => (f false selector).or (k.methods selector)
    classMethods := fun selector => (f true selector).or (k.classMethods selector) }

theorem withCode_sameShape (f : Bool → String → Option Code) (k : KlassInfo Code) : k.SameShape (withCode f k) :=
  ⟨rfl, rfl, rfl, rfl, rfl, rfl, rfl⟩

theorem withCode_none (k : KlassInfo Code) : withCode (fun _ _ => none) k = k := by
  unfold withCode
  simp only [none_or]

theorem withCode_withCode (f g : Bool → String → Option Code) (k : KlassInfo Code) :
    withCode f (withCode g k) = withCode (fun classSide selector => (f classSide selector).or (g classSide selector)) k := by
  unfold withCode
  simp only [Option.or_assoc]

theorem updateKlass_sameShape (w : World Code) (id : Nat) (f : Bool → String → Option Code) :
    List.Forall₂ KlassInfo.SameShape w.klasses (w.updateKlass id (withCode f)).klasses :=
  forall₂_modify KlassInfo.SameShape.refl (withCode_sameShape f) w.klasses id

theorem updateKlass_updateKlass (w : World Code) (id : Nat) (f g : Bool → String → Option Code) :
    (w.updateKlass id (withCode g)).updateKlass id (withCode f) =
      w.updateKlass id (withCode fun classSide selector => (f classSide selector).or (g classSide selector)) := by
  have hcomp : withCode f ∘ withCode g =
      withCode fun classSide selector => (f classSide selector).or (g classSide selector) :=
    funext fun k => withCode_withCode f g k
  unfold updateKlass
  rw [modify_modify_eq, hcomp]

theorem update_eq_or (methods : String → Option Code) (selector : String) (code : Code) :
    Function.update methods selector (some code) =
      fun name => (if name = selector then some code else none).or (methods name) := by
  funext name
  by_cases hname : name = selector
  · rw [hname, update_self, if_pos rfl, some_or]
  · rw [update_of_ne hname, if_neg hname, none_or]

theorem installMethod_eq (w : World Code) (id : Nat) (classSide : Bool) (selector : String) (code : Code) :
    w.installMethod id classSide selector code = w.updateKlass id (withCode fun side name =>
      if side = classSide ∧ name = selector then some code else none) := by
  unfold installMethod
  congr 1
  funext k
  unfold withCode
  cases classSide with
  | true => simp only [if_true, update_eq_or, Bool.false_eq_true, false_and, if_false, none_or, true_and]
  | false => simp only [Bool.false_eq_true, if_false, update_eq_or, true_and, Bool.true_eq_false, false_and, none_or]

section Install

variable (compileMethod : Compiler Code)

def compileIn (w : World Code) (id : Nat) (method : MethodNode) : Except CompileError Code :=
  compileMethod (w.names id method.classSide) method

theorem compileIn_congr (h : List.Forall₂ KlassInfo.SameShape w.klasses w'.klasses)
    (hg : w'.globals = w.globals) (id : Nat) : compileIn compileMethod w' id = compileIn compileMethod w id := by
  funext method
  unfold compileIn
  rw [names_congr h hg]

def compileAll (w : World Code) (id : Nat) : List MethodNode → Except CompileError Unit
  | [] => .ok ()
  | method :: rest =>
    match compileIn compileMethod w id method with
    | .error e => .error e
    | .ok _ => compileAll w id rest

theorem compileAll_congr (h : compileIn compileMethod w' id = compileIn compileMethod w id) (ms : List MethodNode) :
    compileAll compileMethod w' id ms = compileAll compileMethod w id ms := by
  induction ms with
  | nil => rfl
  | cons method rest ih =>
    unfold compileAll
    rw [h, ih]

theorem updateKlass_none (w : World Code) (id : Nat) : w.updateKlass id (withCode fun _ _ => none) = w := by
  have hid : (withCode fun _ _ => none : KlassInfo Code → KlassInfo Code) = fun k => k := funext withCode_none
  unfold updateKlass
  rw [hid]
  exact congrArg (fun l => { w with klasses := l }) (modify_id id w.klasses)

theorem installMethods_spec (id : Nat) (ms : List MethodNode) (w : World Code) : installMethods compileMethod id ms w =
      (compileAll compileMethod w id ms,
        w.updateKlass id (withCode (lastCode (compileIn compileMethod w id) ms))) := by
  induction ms generalizing w with
  | nil =>
    have hlast : lastCode (compileIn compileMethod w id) [] = fun _ _ => none := rfl
    rw [hlast, updateKlass_none]
    rfl
  | cons method rest ih =>
    unfold installMethods compileAll
    cases hc : compileIn compileMethod w id method with
    | error e =>
      have hlast : lastCode (compileIn compileMethod w id) (method :: rest) = fun _ _ => none := by
        funext side name
        rw [lastCode, hc]
      have hc' : compileMethod (w.names id method.classSide) method = .error e := hc
      rw [hc', hlast, updateKlass_none]
    | ok code =>
      have hshape := w.updateKlass_sameShape id fun side name =>
        if side = method.classSide ∧ name = method.patternSelector then some code else none
      rw [← installMethod_eq] at hshape
      have hcompile := compileIn_congr compileMethod hshape rfl id
      have hall : compileAll compileMethod (w.installMethod id method.classSide method.patternSelector code) id rest =
          compileAll compileMethod w id rest := compileAll_congr compileMethod hcompile rest
      have hlast : lastCode (compileIn compileMethod w id) (method :: rest) = fun side name =>
          (lastCode (compileIn compileMethod w id) rest side name).or
            (if side = method.classSide ∧ name = method.patternSelector then some code else none) := by
        funext side name
        rw [lastCode, hc]
      have hc' : compileMethod (w.names id method.classSide) method = .ok code := hc
      rw [hc']
      dsimp only
      rw [ih, hcompile, hlast, ← updateKlass_updateKlass, ← installMethod_eq, hall]

variable {ms : List MethodNode} {compile : MethodNode → Except CompileError Code} {selector : String} {classSide : Bool}

theorem lastCode_isSome {m : MethodNode} (hm : m ∈ ms) (hok : ∀ m ∈ ms, ∃ code, compile m = .ok code) :
    (lastCode compile ms m.classSide m.patternSelector).isSome = true := by
  induction ms with
  | nil => cases hm
  | cons method rest ih =>
    obtain ⟨code, hc⟩ := hok method mem_cons_self
    unfold lastCode
    rw [hc]
    rw [isSome_or]
    rcases mem_cons.mp hm with rfl | hm
    · simp
    · rw [ih hm fun m hm => hok m (mem_cons_of_mem _ hm), Bool.true_or]

theorem lastCode_mem (h : (lastCode compile ms classSide selector).isSome = true) :
    ∃ m ∈ ms, m.classSide = classSide ∧ m.patternSelector = selector := by
  induction ms with
  | nil => cases h
  | cons method rest ih =>
    unfold lastCode at h
    split at h
    next => cases h
    next =>
      rw [isSome_or] at h
      rcases (Bool.or_eq_true _ _).mp h with h | h
      · obtain ⟨m, hm, hs⟩ := ih h
        exact ⟨m, mem_cons_of_mem _ hm, hs⟩
      · split at h
        next hs => exact ⟨method, mem_cons_self, hs.1.symm, hs.2.symm⟩
        next => cases h

theorem compileAll_ok (h : compileAll compileMethod w id ms = .ok ()) :
    ∀ m ∈ ms, ∃ code, compileIn compileMethod w id m = .ok code := by
  induction ms with
  | nil => exact fun m hm => by cases hm
  | cons method rest ih =>
    unfold compileAll at h
    split at h
    next => cases h
    next code hc =>
      intro m hm
      rcases mem_cons.mp hm with rfl | hm
      · exact ⟨code, hc⟩
      · exact ih h m hm

def codeOf (w : World Code) (id : Nat) (classSide : Bool) (selector : String) : Option Code :=
  w.klasses[id]?.bind fun k => if classSide then k.classMethods selector else k.methods selector

theorem codeOf_covered (w : World Code) (id : Nat) {f g : Bool → String → Option Code}
    (h : (f classSide selector).isSome = true) :
    (w.updateKlass id (withCode fun side name => (f side name).or (g side name))).codeOf id classSide selector =
      (w.updateKlass id (withCode f)).codeOf id classSide selector := by
  obtain ⟨code, hcode⟩ := isSome_iff_exists.mp h
  unfold codeOf updateKlass
  simp only [getElem?_modify_eq]
  cases w.klasses[id]? with
  | none => rfl
  | some k => cases classSide <;> simp [withCode, hcode]

def Repeatable (w₀ : World Code) (node : ClassDefNode) : Prop :=
  ∀ values, installClassDef compileMethod { w₀ with values := values } node =
    (.ok (), { w₀ with values := values })

/-- After an attempt with the same header that stopped at a method, the definition gives what it
would have given at first, `w₀`. Only under other selectors than its own the attempt may have
left methods. -/
def Retried (w w₀ : World Code) (node : ClassDefNode) : Prop :=
  ∀ failed id wo e w₁, SameHeader node failed → w.openClass failed = .ok (id, wo) →
    installClassDef compileMethod w failed = (.error e, w₁) →
    ∃ w₂, installClassDef compileMethod w₁ node = (.ok (), w₂) ∧ w₂.globals = w₀.globals ∧ w₂.values = w₀.values ∧
      List.Forall₂ KlassInfo.SameShape w₀.klasses w₂.klasses ∧
      (∀ i, i ≠ id → w₂.klasses[i]? = w₀.klasses[i]?) ∧
      (∀ m ∈ node.methods, w₂.codeOf id m.classSide m.patternSelector = w₀.codeOf id m.classSide m.patternSelector) ∧
      ((∀ m ∈ failed.methods, ∃ m' ∈ node.methods, m'.classSide = m.classSide ∧
        m'.patternSelector = m.patternSelector) → w₂ = w₀)

theorem installClassDef_eq {wo : World Code} (h : w.openClass node = .ok (id, wo)) :
    installClassDef compileMethod w node =
      (compileAll compileMethod (wo.globalBind node.name (.klass id)) id node.methods,
        (wo.globalBind node.name (.klass id)).updateKlass id
          (withCode (lastCode (compileIn compileMethod (wo.globalBind node.name (.klass id)) id) node.methods))) := by
  unfold installClassDef
  rw [h]
  exact installMethods_spec compileMethod id node.methods _

theorem Declared.installClassDef_eq (h : w.Declared node id) (hnone : node.indexable = none) :
    installClassDef compileMethod w node = (compileAll compileMethod w id node.methods,
      w.updateKlass id (withCode (lastCode (compileIn compileMethod w id) node.methods))) := by
  have hopen := World.installClassDef_eq compileMethod (h.openClass hnone)
  rw [globalBind_same h.bound] at hopen
  exact hopen

theorem repeatable (h : w.Declared node id) (hnone : node.indexable = none)
    (hok : compileAll compileMethod w id node.methods = .ok ()) :
    Repeatable compileMethod
      (w.updateKlass id (withCode (lastCode (compileIn compileMethod w id) node.methods))) node := by
  intro values
  have hshape := w.updateKlass_sameShape id (lastCode (compileIn compileMethod w id) node.methods)
  generalize hw₀ : w.updateKlass id (withCode (lastCode (compileIn compileMethod w id) node.methods)) = w₀ at hshape
  have hglobals : w₀.globals = w.globals := by rw [← hw₀]; rfl
  have hshape' : List.Forall₂ KlassInfo.SameShape w.klasses ({ w₀ with values := values } : World Code).klasses := hshape
  have hdecl : ({ w₀ with values := values } : World Code).Declared node id := h.congr hshape hglobals
  have hcompile : compileIn compileMethod { w₀ with values := values } id = compileIn compileMethod w id :=
    compileIn_congr compileMethod hshape' hglobals id
  rw [hdecl.installClassDef_eq compileMethod hnone, compileAll_congr compileMethod hcompile, hok, hcompile]
  have hvalues : ({ w₀ with values := values } : World Code).updateKlass id
      (withCode (lastCode (compileIn compileMethod w id) node.methods)) =
      { w₀.updateKlass id (withCode (lastCode (compileIn compileMethod w id) node.methods)) with values := values } := rfl
  have htwice : w₀.updateKlass id (withCode (lastCode (compileIn compileMethod w id) node.methods)) = w₀ := by
    rw [← hw₀, updateKlass_updateKlass]
    simp only [Option.or_self]
  rw [hvalues, htwice]

theorem retried (h : w.openClass node = .ok (id, w')) (hnone : node.indexable = none)
    (hok : compileAll compileMethod (w'.globalBind node.name (.klass id)) id node.methods = .ok ()) :
    Retried compileMethod w ((w'.globalBind node.name (.klass id)).updateKlass id
      (withCode (lastCode (compileIn compileMethod (w'.globalBind node.name (.klass id)) id) node.methods))) node := by
  intro failed id' wo e w₁ hheader hfailed hinstall
  have hopen := openClass_header hheader hfailed
  rw [h] at hopen
  obtain ⟨rfl, rfl⟩ := Prod.mk.inj (Except.ok.inj hopen)
  rw [World.installClassDef_eq compileMethod hfailed, hheader.name] at hinstall
  have hdecl := openClass_declared h
  generalize w'.globalBind node.name (.klass id) = wb at hok hinstall hdecl ⊢
  have hw₁ := (Prod.mk.inj hinstall).2
  have hshape := wb.updateKlass_sameShape id (lastCode (compileIn compileMethod wb id) failed.methods)
  rw [hw₁] at hshape
  have hglobals : w₁.globals = wb.globals := by rw [← hw₁]; rfl
  have hcompile := compileIn_congr compileMethod hshape hglobals id
  have hretry := (hdecl.congr hshape hglobals).installClassDef_eq compileMethod hnone
  rw [compileAll_congr compileMethod hcompile, hok, hcompile, ← hw₁, updateKlass_updateKlass] at hretry
  rw [hw₁] at hretry
  refine ⟨_, hretry, rfl, rfl, ?_, fun i hi => ?_, fun m hm => ?_, fun hcovered => ?_⟩
  · have hforward := wb.updateKlass_sameShape id (lastCode (compileIn compileMethod wb id) node.methods)
    have hback : List.Forall₂ KlassInfo.SameShape (wb.updateKlass id
        (withCode (lastCode (compileIn compileMethod wb id) node.methods))).klasses wb.klasses :=
      hforward.flip.imp fun _ _ hk => KlassInfo.SameShape.symm hk
    exact forall₂_trans (fun _ _ _ h h' => h.trans h') hback (wb.updateKlass_sameShape id _)
  · unfold updateKlass
    simp only [getElem?_modify_ne _ _ (Ne.symm hi)]
  · have hsome := lastCode_isSome hm (compileAll_ok compileMethod hok)
    exact codeOf_covered wb id hsome
  · have hor : ∀ classSide selector, (lastCode (compileIn compileMethod wb id) node.methods classSide selector).or
          (lastCode (compileIn compileMethod wb id) failed.methods classSide selector) =
        lastCode (compileIn compileMethod wb id) node.methods classSide selector := by
      intro classSide selector
      cases hleft : lastCode (compileIn compileMethod wb id) failed.methods classSide selector with
      | none => rw [or_none]
      | some code =>
        obtain ⟨m, hm, hs, hn⟩ := lastCode_mem (isSome_of_eq_some hleft)
        obtain ⟨m', hm', hs', hn'⟩ := hcovered m hm
        have hsome := lastCode_isSome hm' (compileAll_ok compileMethod hok)
        rw [hs'.trans hs, hn'.trans hn] at hsome
        exact or_of_isSome hsome
    simp only [hor]

/-- A definition that has been installed can be installed again, and after a failed attempt,
exactly when it has no `<indexable:>`. -/
theorem install_again_iff {w₀ : World Code} (h : installClassDef compileMethod w node = (.ok (), w₀)) :
    (Repeatable compileMethod w₀ node ∧ Retried compileMethod w w₀ node) ↔ node.indexable = none := by
  cases hopen : w.openClass node with
  | error e =>
    unfold installClassDef at h
    rw [hopen] at h
    cases (Prod.mk.inj h).1
  | ok opened =>
    obtain ⟨id, wo⟩ := opened
    have hinstall := installClassDef_eq compileMethod hopen
    rw [h] at hinstall
    obtain ⟨hok, rfl⟩ := Prod.mk.inj hinstall
    have hdecl := openClass_declared hopen
    constructor
    · rintro ⟨hrepeat, -⟩
      by_contra hsome
      have hshape := (wo.globalBind node.name (.klass id)).updateKlass_sameShape id
        (lastCode (compileIn compileMethod (wo.globalBind node.name (.klass id)) id) node.methods)
      obtain ⟨e, he⟩ := (hdecl.congr hshape rfl).reopen_fails (isSome_iff_ne_none.mpr hsome)
      have hagain := hrepeat (wo.globalBind node.name (.klass id)).values
      have herror : (installClassDef compileMethod ((wo.globalBind node.name (.klass id)).updateKlass id
          (withCode (lastCode (compileIn compileMethod (wo.globalBind node.name (.klass id)) id) node.methods)))
          node).1 = .error e := by
        unfold installClassDef
        rw [he]
      have hok' := congrArg Prod.fst hagain
      cases herror.symm.trans hok'
    · intro hnone
      exact ⟨repeatable compileMethod hdecl hnone hok.symm, retried compileMethod hopen hnone hok.symm⟩

end Install

def objectWorld : World Unit where
  klasses := [⟨.nil, "Object", .slots, false, 1, [], [], fun _ => none, fun _ => none⟩]
  globals := [("Object", .klass 0)]
  values := []

def noSpan : Span := ⟨1, 1⟩

/-- `x` answers a class variable. -/
def countMethod : MethodNode where
  patternSelector := "count"
  params := []
  primitive := none
  ffi := none
  temps := []
  body := [.var "Count" noSpan]
  classSide := false
  span := noSpan
  typeSig := ⟨[], none, []⟩

def countDef (indexable : Option Indexable) : ClassDefNode where
  superclass := "Object"
  name := "Counter"
  indexable := indexable
  instVars := ["n"]
  instVarTypes := [none]
  classVars := ["Count"]
  methods := [countMethod]
  span := noSpan

def countCompiler : Compiler Unit := fun names method =>
  if (names.classVar "Count").isSome then .ok () else .error (error method.span "undeclared variable 'Count'")

theorem install_again_count :
    (Repeatable countCompiler (installClassDef countCompiler objectWorld (countDef none)).2 (countDef none) ∧
      Retried countCompiler objectWorld (installClassDef countCompiler objectWorld (countDef none)).2 (countDef none)) ↔
      (countDef none).indexable = none :=
  install_again_iff countCompiler (Prod.ext rfl rfl)

/-- A definition with `<indexable:>` is refused the second time. -/
theorem install_again_indexable : (installClassDef countCompiler objectWorld (countDef (some .bytes))).1 = .ok () ∧
      (installClassDef countCompiler (installClassDef countCompiler objectWorld (countDef (some .bytes))).2
        (countDef (some .bytes))).1 = .error (error noSpan "cannot change shape of existing class Counter") :=
  ⟨rfl, rfl⟩

end World

end WinArmVm.Frontend
