import WinArmVm.CompiledSend
import WinArmVm.InlineCacheRuns

namespace WinArmVm

open Option

/-- The record of an nmethod without its sites, which only dispatch rewrites. -/
def Nmethod.unlinked (nm : Nmethod) : Nmethod := { nm with icSites := [] }

theorem Nmethod.unlinked_eq {nm nm' : Nmethod} (h : nm'.unlinked = nm.unlinked) :
    nm'.keyKlass = nm.keyKlass ∧ nm'.keySelector = nm.keySelector ∧
      nm'.blockMethod = nm.blockMethod ∧ nm'.method = nm.method ∧ nm'.state = nm.state := by
  unfold Nmethod.unlinked at h
  simp only [Nmethod.mk.injEq] at h
  obtain ⟨hk, hsel, _, hb, hm, hst, _⟩ := h
  exact ⟨hk, hsel, hb, hm, hst⟩

namespace VmState

/-- Slot `id` holds code of a method keyed `(k, selector)`, live or retired. -/
def KeyedTo (vm : VmState) (id : NmethodId) (k : KlassOop) (selector : SymbolOop) : Prop :=
  ∃ nm, vm.codeTable.slots id = some nm ∧ nm.blockMethod = none ∧ nm.keyKlass = k ∧ nm.keySelector = selector

/-- What a site of `selector` may be linked to for the klass `k`. -/
def Linked (vm : VmState) (k : KlassOop) (selector : SymbolOop) (target : CodeTarget) : Prop :=
  (vm.lookupUncached k selector).isSome ∧
  match target with
  | .resolve => True
  | .entry id => vm.KeyedTo id k selector
  | .verifiedEntry id => vm.KeyedTo id k selector
  | .c2i m => vm.image.selector m = selector
  | .valueDispatch _ => True

def StateLinked (vm : VmState) (selector : SymbolOop) (superKlass : Option KlassOop) : CompiledIcState → Prop
  | .unresolved => True
  | .mono k target => (superKlass = none ∨ superKlass = some k) ∧ vm.Linked k selector target
  | .pic pairs => superKlass = none ∧ ∀ p ∈ pairs, vm.Linked p.1 selector p.2
  | .mega => superKlass = none

def SiteLinked (vm : VmState) (site : IcSite) : Prop := vm.StateLinked site.selector site.superKlass site.state

structure Dispatchable (vm : VmState) : Prop where
  dicts : vm.DictsValid
  cache : vm.CacheCoherent
  table : vm.codeTable.Wf
  named : ∀ k sel m, vm.ownMethod sel k = some m → vm.image.selector m = sel ∧ vm.image.isBlock m = false
  code : ∀ id nm, vm.codeTable.slots id = some nm → nm.state = .alive → nm.blockMethod = none →
    vm.lookupUncached nm.keyKlass nm.keySelector = some nm.method
  compiled : ∀ id nm, vm.codeTable.slots id = some nm → vm.image.valueArgc nm.method = none
  sites : ∀ id nm, vm.codeTable.slots id = some nm → ∀ site ∈ nm.icSites, vm.SiteLinked site

structure Extends (vm vm' : VmState) : Prop where
  image : vm'.image = vm.image
  found : ∀ k sel, (vm.lookupUncached k sel).isSome → (vm'.lookupUncached k sel).isSome
  keyed : ∀ id k sel, vm.KeyedTo id k sel → vm'.KeyedTo id k sel

/-- A later state that differs in the lookup cache and in site states only. -/
structure Relinked (vm vm' : VmState) : Prop where
  image : vm'.image = vm.image
  methods : vm'.methods = vm.methods
  byKey : vm'.codeTable.byKey = vm.codeTable.byKey
  byBlock : vm'.codeTable.byBlock = vm.codeTable.byBlock
  code : ∀ id, (vm'.codeTable.slots id).map Nmethod.unlinked = (vm.codeTable.slots id).map Nmethod.unlinked
  site : ∀ caller idx, (vm'.siteAt caller idx).map (fun s => (s.selector, s.superKlass)) =
    (vm.siteAt caller idx).map fun s => (s.selector, s.superKlass)

variable {vm vm' : VmState} {sel : SymbolOop} {caller : NmethodId} {k : KlassOop} {m : MethodOop} {idx : Nat} {site : IcSite}

theorem Linked.extends {target : CodeTarget}
    (h : vm.Linked k sel target) (he : Extends vm vm') : vm'.Linked k sel target := by
  obtain ⟨hf, ht⟩ := h
  refine ⟨he.found k sel hf, ?_⟩
  cases target with
  | resolve => trivial
  | entry id => exact he.keyed id k sel ht
  | verifiedEntry id => exact he.keyed id k sel ht
  | c2i m =>
    have hm : vm.image.selector m = sel := ht
    rw [← he.image] at hm
    exact hm
  | valueDispatch argc => trivial

variable {state : CompiledIcState} {vm'' : VmState}

theorem StateLinked.extends {superKlass : Option KlassOop}
    (h : vm.StateLinked sel superKlass state) (he : Extends vm vm') :
    vm'.StateLinked sel superKlass state := by
  cases state with
  | unresolved => trivial
  | mono k target => exact ⟨h.1, h.2.extends he⟩
  | pic pairs => exact ⟨h.1, fun p hp => (h.2 p hp).extends he⟩
  | mega => exact h

theorem Extends.refl (vm : VmState) : Extends vm vm := ⟨rfl, fun _ _ h => h, fun _ _ _ h => h⟩

theorem Extends.trans (h : Extends vm vm') (h' : Extends vm' vm'') : Extends vm vm'' :=
  ⟨h'.image.trans h.image, fun k sel hf => h'.found k sel (h.found k sel hf),
    fun id k sel hk => h'.keyed id k sel (h.keyed id k sel hk)⟩

theorem Relinked.refl (vm : VmState) : Relinked vm vm := ⟨rfl, rfl, rfl, rfl, fun _ => rfl, fun _ _ => rfl⟩

theorem Relinked.trans (h : Relinked vm vm') (h' : Relinked vm' vm'') : Relinked vm vm'' :=
  ⟨h'.image.trans h.image, h'.methods.trans h.methods, h'.byKey.trans h.byKey,
    h'.byBlock.trans h.byBlock, fun id => (h'.code id).trans (h.code id),
    fun caller idx => (h'.site caller idx).trans (h.site caller idx)⟩

theorem relinked_withCache (vm : VmState) (cache : LookupCache) : Relinked vm (vm.withCache cache) :=
  ⟨rfl, rfl, rfl, rfl, fun _ => rfl, fun _ _ => rfl⟩

theorem setSite_slots (vm : VmState) (caller : NmethodId) (idx : Nat) (state : CompiledIcState)
    (id : NmethodId) : (vm.setSite caller idx state).codeTable.slots id =
      if id = caller then (vm.codeTable.slots caller).map fun nm =>
        { nm with icSites := nm.icSites.modify idx fun site => { site with state := state } }
      else vm.codeTable.slots id := CodeTable.modify_slots _ _ _ _

theorem setSite_siteAt (vm : VmState) (caller c : NmethodId) (idx i : Nat) (state : CompiledIcState) :
    (vm.setSite caller idx state).siteAt c i =
      if c = caller ∧ i = idx then (vm.siteAt c i).map fun site => { site with state := state }
      else vm.siteAt c i := by
  unfold siteAt CodeTable.get
  rw [setSite_slots]
  by_cases hc : c = caller
  · subst c
    rw [if_pos rfl]
    cases vm.codeTable.slots caller with
    | none => simp
    | some nm =>
      by_cases hi : i = idx
      · subst i
        simp
      · have hne : ¬ idx = i := fun e => hi e.symm
        simp [hi, hne]
  · simp [hc]

theorem relinked_setSite (vm : VmState) (caller : NmethodId) (idx : Nat) (state : CompiledIcState) :
    Relinked vm (vm.setSite caller idx state) := by
  refine ⟨rfl, rfl, rfl, rfl, fun id => ?_, fun c i => ?_⟩
  · rw [setSite_slots]
    split
    next he =>
      subst id
      rw [map_map]
      rfl
    next => rfl
  · rw [setSite_siteAt]
    split
    next => rw [map_map]; rfl
    next => rfl

section

variable (h : Relinked vm vm')

include h

theorem Relinked.lookupUncached : vm'.lookupUncached = vm.lookupUncached := lookupUncached_congr h.image h.methods

omit h in
theorem Relinked.slot (h : Relinked vm vm') {id : NmethodId} {nm : Nmethod}
    (hs : vm.codeTable.slots id = some nm) : ∃ nm', vm'.codeTable.slots id = some nm' ∧
      nm'.unlinked = nm.unlinked := by
  have hc := h.code id
  rw [hs] at hc
  obtain ⟨nm', hs', he⟩ := map_eq_some_iff.mp hc
  exact ⟨nm', hs', he⟩

theorem Relinked.symm : Relinked vm' vm :=
  ⟨h.image.symm, h.methods.symm, h.byKey.symm, h.byBlock.symm, fun id => (h.code id).symm,
    fun caller idx => (h.site caller idx).symm⟩

theorem Relinked.keyedTo {id : NmethodId} (hk : vm.KeyedTo id k sel) : vm'.KeyedTo id k sel := by
  obtain ⟨nm, hs, hb, hkk, hks⟩ := hk
  obtain ⟨nm', hs', he⟩ := h.slot hs
  obtain ⟨hk', hsel', hb', _, _⟩ := Nmethod.unlinked_eq he
  exact ⟨nm', hs', hb'.trans hb, hk'.trans hkk, hsel'.trans hks⟩

theorem Relinked.extends : Extends vm vm' :=
  ⟨h.image, fun k sel hf => by rw [h.lookupUncached]; exact hf, fun _ _ _ hk => h.keyedTo hk⟩

theorem Relinked.landTarget (k : KlassOop) (target : CodeTarget) :
    vm'.landTarget k target = vm.landTarget k target := by
  have hslot : ∀ id (f : Nmethod → Landing), (∀ nm, f nm = f nm.unlinked) →
      (vm'.codeTable.get id).map f = (vm.codeTable.get id).map f := by
    intro id f hf
    have hc := congrArg (Option.map f) (h.code id)
    rw [map_map, map_map] at hc
    have hfun : f ∘ Nmethod.unlinked = f := by
      funext nm
      exact (hf nm).symm
    rw [hfun] at hc
    exact hc
  cases target with
  | resolve => rfl
  | entry id => exact hslot id _ fun _ => rfl
  | verifiedEntry id => exact hslot id _ fun _ => rfl
  | c2i m => rfl
  | valueDispatch argc => rfl

theorem Relinked.lookupBlock (b : MethodOop) : vm'.codeTable.lookupBlock b = vm.codeTable.lookupBlock b := by
  unfold CodeTable.lookupBlock
  rw [h.byBlock]
  cases vm.codeTable.byBlock b with
  | none => rfl
  | some id =>
    simp only [bind_eq_bind, bind_some, CodeTable.get]
    cases hs : vm.codeTable.slots id with
    | none =>
      have hc := h.code id
      rw [hs, map_none, map_eq_none_iff] at hc
      rw [hc]
    | some nm =>
      obtain ⟨nm', hs', he⟩ := h.slot hs
      obtain ⟨_, _, _, _, hst⟩ := Nmethod.unlinked_eq he
      rw [hs', bind_some, bind_some, hst]

theorem Relinked.rtValueTarget (rcvr : Receiver) (argc : Nat) :
    vm'.rtValueTarget rcvr argc = vm.rtValueTarget rcvr argc := by
  unfold VmState.rtValueTarget
  rw [h.image]
  cases rcvr.block with
  | none => rfl
  | some blk =>
    simp only [bind_eq_bind, bind_some]
    rw [h.lookupBlock]

theorem Relinked.siteAt (hs : vm.siteAt caller idx = some site) : ∃ site', vm'.siteAt caller idx = some site' ∧
      site'.selector = site.selector ∧ site'.superKlass = site.superKlass := by
  have hc := h.site caller idx
  rw [hs] at hc
  obtain ⟨site', hs', he⟩ := map_eq_some_iff.mp hc
  obtain ⟨hsel, hsup⟩ := Prod.mk.inj he
  exact ⟨site', hs', hsel, hsup⟩

end

theorem siteAt_mem (hs : vm.siteAt caller idx = some site) :
    ∃ nm, vm.codeTable.slots caller = some nm ∧ site ∈ nm.icSites := by
  obtain ⟨nm, hn, hi⟩ := bind_eq_some_iff.mp hs
  exact ⟨nm, hn, List.mem_of_getElem? hi⟩

theorem Dispatchable.siteAt_linked (h : vm.Dispatchable)
    (hs : vm.siteAt caller idx = some site) : vm.SiteLinked site := by
  obtain ⟨nm, hn, hm⟩ := siteAt_mem hs
  exact h.sites caller nm hn site hm

theorem Dispatchable.lookup_named (h : vm.Dispatchable) (hm : vm.lookupUncached k sel = some m) :
    vm.image.selector m = sel ∧ vm.image.isBlock m = false := by
  obtain ⟨c, hc⟩ := Forest.exists_of_firstOn hm
  exact h.named c sel m hc

theorem Dispatchable.withCache (h : vm.Dispatchable) {cache : LookupCache}
    (hc : cache.Agrees vm.lookupUncached) : (vm.withCache cache).Dispatchable :=
  ⟨h.dicts, hc, h.table, h.named, h.code, h.compiled, h.sites⟩

theorem Dispatchable.onlyCache (h : vm.Dispatchable) (hstep : OnlyCache vm vm') : vm'.Dispatchable := by
  obtain ⟨cache, hc, rfl⟩ := hstep
  exact h.withCache hc

theorem OnlyCache.relinked (h : OnlyCache vm vm') : Relinked vm vm' := by
  obtain ⟨cache, _, rfl⟩ := h
  exact relinked_withCache vm cache

theorem Dispatchable.setSite (h : vm.Dispatchable)
 (hok : ∀ site, vm.siteAt caller idx = some site → vm.StateLinked site.selector site.superKlass state) :
    (vm.setSite caller idx state).Dispatchable := by
  have hre := relinked_setSite vm caller idx state
  refine ⟨h.dicts, h.cache, ?_, h.named, fun id nm hs ha hb => ?_, fun id nm hs => ?_,
    fun id nm hs site hm => ?_⟩
  · exact h.table.modify caller (fun _ => rfl) (fun _ => rfl) (fun _ => rfl) (fun _ => rfl)
  · obtain ⟨nm', hs', he⟩ := hre.symm.slot hs
    obtain ⟨hkk, hks, hbl, hme, hst⟩ := Nmethod.unlinked_eq he
    have hcode := h.code id nm' hs' (hst.trans ha) (hbl.trans hb)
    rw [hkk, hks, hme] at hcode
    exact hcode
  · obtain ⟨nm', hs', he⟩ := hre.symm.slot hs
    obtain ⟨_, _, _, hme, _⟩ := Nmethod.unlinked_eq he
    have hprim := h.compiled id nm' hs'
    rw [hme] at hprim
    exact hprim
  · rw [setSite_slots] at hs
    split at hs
    next he =>
      subst id
      obtain ⟨old, hold, rfl⟩ := map_eq_some_iff.mp hs
      obtain ⟨i, hi⟩ := List.mem_iff_getElem?.mp hm
      rw [List.getElem?_modify] at hi
      obtain ⟨site₀, h₀, rfl⟩ := map_eq_some_iff.mp hi
      have hlinked := h.sites caller old hold site₀ (List.mem_of_getElem? h₀)
      split
      next hidx =>
        subst i
        have hat : vm.siteAt caller idx = some site₀ := by
          unfold siteAt CodeTable.get
          rw [hold]
          exact h₀
        exact (hok site₀ hat).extends hre.extends
      next => exact StateLinked.extends hlinked hre.extends
    next => exact StateLinked.extends (h.sites id nm hs site hm) hre.extends

theorem Dispatchable.resolveTargetEntry_cases (h : vm.Dispatchable)
     (hm : vm.lookupUncached k sel = some m) (verified : Bool) :
    (∃ argc, vm.image.valueArgc m = some argc ∧ vm.resolveTargetEntry k sel m verified = .valueDispatch argc) ∨
    (vm.image.valueArgc m = none ∧ vm.resolveTargetEntry k sel m verified = .c2i m) ∨
    vm.image.valueArgc m = none ∧ ∃ id nm, vm.codeTable.slots id = some nm ∧ nm.state = .alive ∧
      nm.blockMethod = none ∧ nm.keyKlass = k ∧ nm.keySelector = sel ∧ nm.method = m ∧
      vm.resolveTargetEntry k sel m verified = if verified then .verifiedEntry id else .entry id := by
  unfold resolveTargetEntry
  cases hv : vm.image.valueArgc m with
  | some argc => exact .inl ⟨argc, rfl, rfl⟩
  | none =>
    refine .inr ?_
    cases hl : vm.codeTable.lookup k sel with
    | none => exact .inl ⟨rfl, rfl⟩
    | some id =>
      dsimp only
      split
      next =>
        obtain ⟨nm, hs, hk, hsel, ha, hb⟩ := h.table.keyed k sel id hl
        have hcode := h.code id nm hs ha hb
        rw [hk, hsel, hm] at hcode
        exact .inr ⟨rfl, id, nm, hs, ha, hb, hk, hsel, (some.inj hcode).symm, rfl⟩
      next => exact .inl ⟨rfl, rfl⟩

theorem Dispatchable.resolveTargetEntry_linked (h : vm.Dispatchable)
     (hm : vm.lookupUncached k sel = some m) (verified : Bool) :
    vm.Linked k sel (vm.resolveTargetEntry k sel m verified) := by
  have hf : (vm.lookupUncached k sel).isSome := by
    rw [hm]
    rfl
  refine ⟨hf, ?_⟩
  rcases h.resolveTargetEntry_cases hm verified with ⟨argc, _, he⟩ | ⟨_, he⟩ |
    ⟨_, id, nm, hs, _, hb, hk, hsel, _, he⟩
  · rw [he]
    trivial
  · rw [he]
    exact (h.lookup_named hm).1
  · have hkey : vm.KeyedTo id k sel := ⟨nm, hs, hb, hk, hsel⟩
    rw [he]
    cases verified with
    | true => exact hkey
    | false => exact hkey

theorem resolveSuperTargetEntry_cases (vm : VmState) (sk : KlassOop) (sel : SymbolOop) (m : MethodOop) :
    vm.resolveSuperTargetEntry sk sel m = .c2i m ∨
      vm.resolveSuperTargetEntry sk sel m = vm.resolveTargetEntry sk sel m true := by
  unfold resolveSuperTargetEntry
  split
  next => exact .inl rfl
  next => exact .inr rfl

theorem Dispatchable.resolveSuperTargetEntry_linked (h : vm.Dispatchable) {sk : KlassOop}
     (hm : vm.lookupUncached sk sel = some m) :
    vm.Linked sk sel (vm.resolveSuperTargetEntry sk sel m) := by
  rcases vm.resolveSuperTargetEntry_cases sk sel m with he | he
  · rw [he]
    exact ⟨by rw [hm]; rfl, (h.lookup_named hm).1⟩
  · rw [he]
    exact h.resolveTargetEntry_linked hm true

end VmState

end WinArmVm
