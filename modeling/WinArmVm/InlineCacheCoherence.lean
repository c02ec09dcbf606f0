import WinArmVm.CompileSpec
import WinArmVm.SendGeneric

namespace WinArmVm.VmState

/-- Where `L(k)` starts: the holder's superclass for a super site. -/
def startKlass (vm : VmState) (caller : MethodOop) (isSuper : Bool) (k : KlassOop) : Option KlassOop :=
  if isSuper then (vm.holder caller).bind vm.image.klasses.parent else some k

def answer (vm : VmState) (caller : MethodOop) (icIdx : Nat) (k : KlassOop) : Option MethodOop :=
  (vm.startKlass caller (vm.image.superSite caller icIdx) k).bind fun start =>
    vm.lookupUncached start (vm.ics caller icIdx).selector

/-- The panic of a super send from a method that was never installed. -/
def NoHolder (vm : VmState) (caller : MethodOop) (icIdx : Nat) : Prop :=
  vm.image.superSite caller icIdx = true ∧ vm.holder caller = none

def ShapeCoherent (vm : VmState) (caller : MethodOop) (icIdx : Nat) : IcShape → Prop
  | .empty => True
  | .mono k m => vm.answer caller icIdx k = some m
  | .monoCompiled k _ =>
    vm.lookupUncached k (vm.ics caller icIdx).selector = vm.answer caller icIdx k
  | .poly pairs => pairs.Agrees (vm.answer caller icIdx)
  | .mega => True

/-- A state the site may be in: no epoch from the future, nothing stale under
the current epoch, and a compiled mono klass that still understands the selector. -/
structure SiteOk (vm : VmState) (caller : MethodOop) (icIdx : Nat) (ic : InterpreterIc) : Prop where
  selector : ic.selector = (vm.ics caller icIdx).selector
  epoch_le : ic.epoch ≤ vm.icEpoch
  coherent : ic.epoch = vm.icEpoch → vm.ShapeCoherent caller icIdx ic.shape
  understood : ∀ k id, ic.shape = .monoCompiled k id → (vm.lookupUncached k ic.selector).isSome

structure Coherent (vm : VmState) : Prop where
  dicts : vm.DictsValid
  cache : vm.CacheCoherent
  table : vm.codeTable.Wf
  named : ∀ k sel m, vm.ownMethod sel k = some m → vm.image.selector m = sel
  code : ∀ id nm, vm.codeTable.slots id = some nm → nm.state = .alive →
    vm.lookupUncached nm.keyKlass nm.keySelector = some nm.method
  sites : ∀ caller icIdx, vm.SiteOk caller icIdx (vm.ics caller icIdx)

variable {vm vm' : VmState}

theorem setIc_ics (vm : VmState) (caller c : MethodOop) (icIdx i : Nat) (ic : InterpreterIc) :
    (vm.setIc caller icIdx ic).ics c i =
      if c = caller ∧ i = icIdx then ic else vm.ics c i := by
  unfold setIc
  by_cases hc : c = caller
  · subst c
    by_cases hi : i = icIdx
    · simp [hi]
    · simp [hi]
  · simp [hc]

theorem setIc_self (vm : VmState) (caller : MethodOop) (icIdx : Nat) :
    vm.setIc caller icIdx (vm.ics caller icIdx) = vm := by
  simp [setIc]

theorem setIc_setIc (vm : VmState) (caller : MethodOop) (icIdx : Nat) (ic ic' : InterpreterIc) :
    (vm.setIc caller icIdx ic).setIc caller icIdx ic' = vm.setIc caller icIdx ic' := by
  simp [setIc]

theorem setIc_withCache (vm : VmState) (caller : MethodOop) (icIdx : Nat) (ic : InterpreterIc)
    (cache : LookupCache) : (vm.setIc caller icIdx ic).withCache cache =
      (vm.withCache cache).setIc caller icIdx ic := rfl

/-- Two states in which every send has the same answer: the same klasses,
dictionaries, holders and epoch, and at each site the same selector. -/
structure SameWorld (vm vm' : VmState) : Prop where
  image : vm'.image = vm.image
  methods : vm'.methods = vm.methods
  holder : vm'.holder = vm.holder
  icEpoch : vm'.icEpoch = vm.icEpoch
  selector : ∀ c i, (vm'.ics c i).selector = (vm.ics c i).selector

theorem SameWorld.refl (vm : VmState) : SameWorld vm vm := ⟨rfl, rfl, rfl, rfl, fun _ _ => rfl⟩

theorem SameWorld.symm (h : SameWorld vm vm') : SameWorld vm' vm :=
  ⟨h.image.symm, h.methods.symm, h.holder.symm, h.icEpoch.symm, fun c i => (h.selector c i).symm⟩

theorem SameWorld.trans {vm'' : VmState} (h : SameWorld vm vm') (h' : SameWorld vm' vm'') : SameWorld vm vm'' :=
  ⟨h'.image.trans h.image, h'.methods.trans h.methods, h'.holder.trans h.holder,
    h'.icEpoch.trans h.icEpoch, fun c i => (h'.selector c i).trans (h.selector c i)⟩

theorem sameWorld_withCache (vm : VmState) (cache : LookupCache) :
    SameWorld vm (vm.withCache cache) := ⟨rfl, rfl, rfl, rfl, fun _ _ => rfl⟩

variable {caller : MethodOop} {icIdx : Nat} {ic : InterpreterIc}

theorem sameWorld_setIc (hs : ic.selector = (vm.ics caller icIdx).selector) :
    SameWorld vm (vm.setIc caller icIdx ic) := by
  refine ⟨rfl, rfl, rfl, rfl, fun c i => ?_⟩
  rw [setIc_ics]
  split
  next hc =>
    rw [hc.1, hc.2]
    exact hs
  next => rfl

theorem SameWorld.lookupUncached (h : SameWorld vm vm') : vm'.lookupUncached = vm.lookupUncached :=
  lookupUncached_congr h.image h.methods

theorem SameWorld.answer (h : SameWorld vm vm') (caller : MethodOop) (icIdx : Nat) :
    vm'.answer caller icIdx = vm.answer caller icIdx := by
  funext k
  unfold VmState.answer startKlass
  rw [h.lookupUncached, h.image, h.holder, h.selector]

theorem SiteOk.congr (h : vm.SiteOk caller icIdx ic) (hw : SameWorld vm vm') : vm'.SiteOk caller icIdx ic := by
  have ha := hw.answer caller icIdx
  have hs := hw.selector caller icIdx
  have he := hw.icEpoch
  have hl := hw.lookupUncached
  have he := hw.icEpoch
  have hshape : vm'.ShapeCoherent caller icIdx = vm.ShapeCoherent caller icIdx := by
    funext shape
    unfold ShapeCoherent
    rw [ha, hl, hs]
  refine ⟨h.selector.trans hs.symm, he ▸ h.epoch_le, fun hc => ?_, ?_⟩
  · rw [hshape]
    exact h.coherent (hc.trans he)
  · rw [hl]
    exact h.understood

theorem Coherent.setIc (h : vm.Coherent) (hok : vm.SiteOk caller icIdx ic) : (vm.setIc caller icIdx ic).Coherent := by
  refine ⟨h.dicts, h.cache, h.table, h.named, h.code, fun c i => ?_⟩
  have hold : vm.SiteOk c i ((vm.setIc caller icIdx ic).ics c i) := by
    rw [setIc_ics]
    split
    next hc =>
      rw [hc.1, hc.2]
      exact hok
    next => exact h.sites c i
  exact hold.congr (sameWorld_setIc hok.selector)

variable {cache : LookupCache} {m : MethodOop} {k : KlassOop}

theorem SiteOk.withCache (h : vm.SiteOk caller icIdx ic) : (vm.withCache cache).SiteOk caller icIdx ic :=
  h.congr (sameWorld_withCache vm cache)

theorem Coherent.withCache (h : vm.Coherent) (hc : cache.Agrees vm.lookupUncached) : (vm.withCache cache).Coherent :=
  ⟨h.dicts, hc, h.table, h.named, h.code,
    fun caller icIdx => (h.sites caller icIdx).withCache⟩

theorem Coherent.lookup_named (h : vm.Coherent) {sel : SymbolOop}
    (hm : vm.lookupUncached k sel = some m) : vm.image.selector m = sel := by
  obtain ⟨c, hc⟩ := Forest.exists_of_firstOn hm
  exact h.named c sel m hc

theorem Coherent.answer_named (h : vm.Coherent) (hm : vm.answer caller icIdx k = some m) :
    vm.image.selector m = (vm.ics caller icIdx).selector := by
  obtain ⟨start, _, hl⟩ := Option.bind_eq_some_iff.mp hm
  exact h.lookup_named hl

theorem NoHolder.resolve (h : vm.NoHolder caller icIdx)
    (k : KlassOop) : vm.resolve caller (vm.ics caller icIdx).selector
      (vm.image.superSite caller icIdx) k = none := by
  unfold VmState.resolve
  rw [if_pos h.1, h.2]

theorem resolve_spec (h : vm.CacheCoherent) (hno : ¬ vm.NoHolder caller icIdx) (k : KlassOop) :
    ∃ cache : LookupCache, cache.Agrees vm.lookupUncached ∧
      vm.resolve caller (vm.ics caller icIdx).selector (vm.image.superSite caller icIdx) k =
        some (vm.answer caller icIdx k, vm.withCache cache) := by
  unfold resolve answer startKlass
  split
  next hsup =>
    cases hh : vm.holder caller with
    | none => exact absurd ⟨hsup, hh⟩ hno
    | some holder =>
      simp only [Option.bind_some]
      cases hp : vm.image.klasses.parent holder with
      | none => exact ⟨vm.lookupCache, h, rfl⟩
      | some s =>
        obtain ⟨cache, hc, hl⟩ := lookup_withCache h s (vm.ics caller icIdx).selector
        exact ⟨cache, hc, congrArg some hl⟩
  next =>
    obtain ⟨cache, hc, hl⟩ := lookup_withCache h k (vm.ics caller icIdx).selector
    exact ⟨cache, hc, congrArg some hl⟩

end WinArmVm.VmState
