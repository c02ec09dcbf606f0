import WinArmVm.InlineCacheRows

namespace WinArmVm

open Option

def Activation.method (a : Activation) (vm : VmState) : Option MethodOop :=
  match a with
  | .interpreted m => some m
  | .compiled id => (vm.codeTable.get id).map Nmethod.method

/-- The method a send activates; `none` is the doesNotUnderstand: path. -/
def SendOutcome.method (o : SendOutcome) (vm : VmState) : Option MethodOop :=
  match o with
  | .activated a => a.method vm
  | .notUnderstood _ => none

namespace VmState

variable {vm vm' : VmState}

structure Keeps (vm vm' : VmState) : Prop where
  coherent : vm'.Coherent
  world : SameWorld vm vm'

theorem Keeps.refl (h : vm.Coherent) : Keeps vm vm := ⟨h, SameWorld.refl vm⟩

theorem Keeps.trans {vm'' : VmState} (h : Keeps vm vm') (h' : Keeps vm' vm'') : Keeps vm vm'' :=
  ⟨h'.coherent, h.world.trans h'.world⟩

section

variable (h : vm.Coherent)

include h

theorem Coherent.keeps_withCache {cache : LookupCache}
    (hc : cache.Agrees vm.lookupUncached) : Keeps vm (vm.withCache cache) :=
  ⟨h.withCache hc, sameWorld_withCache vm cache⟩

theorem Coherent.keeps_setIc {caller : MethodOop} {icIdx : Nat}
    {ic : InterpreterIc} (hok : vm.SiteOk caller icIdx ic) : Keeps vm (vm.setIc caller icIdx ic) :=
  ⟨h.setIc hok, sameWorld_setIc hok.selector⟩

theorem Coherent.keeps_lookup (k : KlassOop) (sel : SymbolOop) : Keeps vm (vm.lookup k sel).2 := by
  obtain ⟨cache, hc, hl⟩ := lookup_withCache h.cache k sel
  rw [hl]
  exact h.keeps_withCache hc

theorem Coherent.keeps_counters (inv : MethodOop → Nat) (dis : MethodOop → Bool) (jit : Option Nat) :
    Keeps vm { vm with invocations := inv, compileDisabled := dis, jitThreshold := jit } := by
  have hw : SameWorld vm { vm with invocations := inv, compileDisabled := dis, jitThreshold := jit } :=
    ⟨rfl, rfl, rfl, rfl, fun _ _ => rfl⟩
  exact ⟨⟨h.dicts, h.cache, h.table, h.named, h.code, fun c i => (h.sites c i).congr hw⟩, hw⟩

theorem Coherent.keeps_table {table : CodeTable} (hwf : table.Wf)
    (hcode : ∀ id nm, table.slots id = some nm → nm.state = .alive →
      vm.lookupUncached nm.keyKlass nm.keySelector = some nm.method) :
    Keeps vm { vm with codeTable := table } := by
  have hw : SameWorld vm { vm with codeTable := table } := ⟨rfl, rfl, rfl, rfl, fun _ _ => rfl⟩
  exact ⟨⟨h.dicts, h.cache, hwf, h.named, hcode, fun c i => (h.sites c i).congr hw⟩, hw⟩

theorem Coherent.keeps_retire (id : NmethodId) : Keeps vm (vm.retire id) := by
  apply h.keeps_table (h.table.setNotEntrant id)
  intro x nm hs ha
  rw [CodeTable.setNotEntrant_slots] at hs
  split at hs
  next =>
    obtain ⟨old, _, rfl⟩ := map_eq_some_iff.mp hs
    cases ha
  next => exact h.code x nm hs ha

theorem Coherent.keeps_flush (id : NmethodId) : Keeps vm { vm with codeTable := vm.codeTable.flush id } := by
  apply h.keeps_table (h.table.flush id)
  intro x nm hs ha
  rw [CodeTable.flush_slots] at hs
  split at hs
  next => cases hs
  next => exact h.code x nm hs ha

end

variable {k : KlassOop} {m : MethodOop}

theorem Coherent.compileMethodVersioned_spec (h : vm.Coherent)
    (truth : vm.lookupUncached k (vm.image.selector m) = some m) (version : Nat) (outcome : CompileOutcome) :
    Keeps vm (vm.compileMethodVersioned k m version outcome).2 ∧
    ((vm.compileMethodVersioned k m version outcome).1 = none →
      (vm.compileMethodVersioned k m version outcome).2.codeTable = vm.codeTable) ∧
    ∀ id, (vm.compileMethodVersioned k m version outcome).1 = some id → vm.codeTable.slots id = none ∧
      ((vm.compileMethodVersioned k m version outcome).2.codeTable.get id).map Nmethod.method =
        some m := by
  rcases compileMethodVersioned_cases h.cache k m version outcome with
    ⟨hnone, cache, dis, jit, hc, he⟩ | ⟨code, sites, deps, cache, inv, hc, _, _, he⟩
  · rw [he, hnone]
    have hk := h.keeps_withCache hc
    exact ⟨hk.trans (hk.coherent.keeps_counters vm.invocations dis jit), fun _ => rfl,
      fun id hid => by cases hid⟩
  · rw [he]
    have hk := h.keeps_withCache hc
    have hk₂ := hk.trans (hk.coherent.keeps_counters inv vm.compileDisabled vm.jitThreshold)
    have hcode : ∀ x nm, (vm.codeTable.install (vm.nmethodFor k m version code sites deps)).2.slots x =
        some nm → nm.state = .alive →
        vm.lookupUncached nm.keyKlass nm.keySelector = some nm.method := by
      intro x nm hs ha
      rw [CodeTable.install_slots] at hs
      split at hs
      next =>
        cases hs
        exact truth
      next => exact h.code x nm hs ha
    refine ⟨hk₂.trans (hk₂.coherent.keeps_table (h.table.install rfl) hcode), ?_, fun id hid => ?_⟩
    · intro hid
      cases hid
    · cases hid
      refine ⟨h.table.freeSlot_none, ?_⟩
      change ((vm.codeTable.install _).2.slots vm.codeTable.freeSlot).map Nmethod.method = some m
      rw [CodeTable.install_slots, if_pos rfl]
      rfl

theorem existingNmethod_spec {sel : SymbolOop} {id : NmethodId} {nm : Nmethod}
    (h : vm.existingNmethod k sel = some (id, nm)) :
    vm.codeTable.lookup k sel = some id ∧ vm.codeTable.slots id = some nm ∧ nm.state = .alive := by
  obtain ⟨id', hl, h⟩ := bind_eq_some_iff.mp h
  obtain ⟨nm', hg, h⟩ := bind_eq_some_iff.mp h
  split at h
  next ha =>
    cases h
    exact ⟨hl, hg, ha⟩
  next => cases h

theorem Coherent.obtainCompiled_spec (h : vm.Coherent)
    (truth : vm.lookupUncached k (vm.image.selector m) = some m) (jit : JitOracle) :
    Keeps vm (vm.obtainCompiled k m jit).2 ∧
    ∀ id, (vm.obtainCompiled k m jit).1 = some id →
      ((vm.obtainCompiled k m jit).2.codeTable.get id).map Nmethod.method = some m := by
  unfold obtainCompiled
  split
  next id nm he =>
    obtain ⟨hl, hs, ha⟩ := existingNmethod_spec he
    obtain ⟨nm', hs', hk, hsel, _⟩ := h.table.keyed _ _ _ hl
    rw [hs] at hs'
    cases hs'
    have hm : nm.method = m := by
      have hcode := h.code id nm hs ha
      rw [hk, hsel, truth] at hcode
      exact (Option.some.inj hcode).symm
    split
    next =>
      have hspec := h.compileMethodVersioned_spec truth (nm.version + 1) jit.recompiled
      split
      next newId vm₁ hc =>
        rw [hc] at hspec
        obtain ⟨hkeep, _, hnew⟩ := hspec
        obtain ⟨hfree, hmeth⟩ := hnew newId rfl
        refine ⟨hkeep.trans (hkeep.coherent.keeps_retire id), fun x hx => ?_⟩
        cases hx
        have hne : newId ≠ id := by
          rintro rfl
          rw [hs] at hfree
          cases hfree
        change ((vm₁.codeTable.setNotEntrant id).slots newId).map Nmethod.method = some m
        rw [CodeTable.setNotEntrant_slots, if_neg hne]
        exact hmeth
      next vm₁ hc =>
        rw [hc] at hspec
        obtain ⟨hkeep, hsame, _⟩ := hspec
        refine ⟨hkeep, fun x hx => ?_⟩
        cases hx
        rw [hsame rfl]
        change (vm.codeTable.slots id).map Nmethod.method = some m
        rw [hs, map_some, hm]
    next =>
      refine ⟨Keeps.refl h, fun x hx => ?_⟩
      cases hx
      change (vm.codeTable.slots id).map Nmethod.method = some m
      rw [hs, map_some, hm]
  next =>
    have hspec := h.compileMethodVersioned_spec truth 0 jit.compiled
    exact ⟨hspec.1, fun id he => (hspec.2.2 id he).2⟩

theorem Coherent.keeps_seedIc (h : vm.Coherent) (truth : vm.lookupUncached k (vm.image.selector m) = some m)
    (site : Option (MethodOop × Nat))
    (hsite : ∀ caller icIdx, site = some (caller, icIdx) → vm.answer caller icIdx k = some m) (id : NmethodId) :
    Keeps vm (vm.seedIc k id site) ∧ (vm.seedIc k id site).codeTable = vm.codeTable := by
  unfold seedIc
  split
  next => exact ⟨Keeps.refl h, rfl⟩
  next caller icIdx =>
    split
    next => exact ⟨h.keeps_setIc (h.setMonoCompiled_ok (hsite caller icIdx rfl) truth id), rfl⟩
    next => exact ⟨Keeps.refl h, rfl⟩

theorem Coherent.activateMethod_spec (h : vm.Coherent) (m : MethodOop) (k : KlassOop)
    (site : Option (MethodOop × Nat)) (jit : JitOracle)
    (hsite : ∀ caller icIdx, site = some (caller, icIdx) → vm.answer caller icIdx k = some m) :
    Keeps vm (vm.activateMethod m k site jit).2 ∧
    (vm.activateMethod m k site jit).1.method (vm.activateMethod m k site jit).2 = some m := by
  have hb : Keeps vm (vm.bumpInvocation m).2 := h.keeps_counters _ vm.compileDisabled vm.jitThreshold
  unfold activateMethod
  dsimp only
  split
  next =>
    have hl := hb.coherent.cache.lookup_eq k (vm.image.selector m)
    have hk := hb.trans (hb.coherent.keeps_lookup k (vm.image.selector m))
    split
    next ht =>
      have htruth : (vm.bumpInvocation m).2.lookupUncached k (vm.image.selector m) = some m := hl.symm.trans ht
      have hw := hk.world
      have truth : ((vm.bumpInvocation m).2.lookup k (vm.image.selector m)).2.lookupUncached k
          (((vm.bumpInvocation m).2.lookup k (vm.image.selector m)).2.image.selector m) =
            some m := by
        rw [hw.image, hw.lookupUncached, ← hb.world.lookupUncached]
        exact htruth
      have hspec := hk.coherent.obtainCompiled_spec truth jit
      split
      next id vm₁ ho =>
        have ho' : ((vm.bumpInvocation m).2.lookup k (vm.image.selector m)).2.obtainCompiled k m jit =
          (some id, vm₁) := ho
        rw [ho'] at hspec
        obtain ⟨hkeep, hmeth⟩ := hspec
        have hall := hk.trans hkeep
        have truth₁ : vm₁.lookupUncached k (vm₁.image.selector m) = some m := by
          rw [hkeep.world.image, hkeep.world.lookupUncached]
          exact truth
        have hsite₁ : ∀ caller icIdx, site = some (caller, icIdx) →
            vm₁.answer caller icIdx k = some m := by
          intro caller icIdx he
          rw [hall.world.answer]
          exact hsite caller icIdx he
        obtain ⟨hseed, htab⟩ := hall.coherent.keeps_seedIc truth₁ site hsite₁ id
        refine ⟨hall.trans hseed, ?_⟩
        split
        next => rfl
        next =>
          change ((vm₁.seedIc k id site).codeTable.get id).map Nmethod.method = some m
          rw [htab]
          exact hmeth id rfl
      next vm₁ ho =>
        have ho' : ((vm.bumpInvocation m).2.lookup k (vm.image.selector m)).2.obtainCompiled k m jit = (none, vm₁) := ho
        rw [ho'] at hspec
        exact ⟨hk.trans hspec.1, rfl⟩
    next => exact ⟨hk, rfl⟩
  next => exact ⟨hb, rfl⟩

end VmState

end WinArmVm
