import WinArmVm.Activation

namespace WinArmVm.VmState

open List Option

variable {vm vm' : VmState} {k : KlassOop} {sel : SymbolOop} {nm : Nmethod} {caller : MethodOop} {t : CodeTable}
  {m : MethodOop} {icIdx : Nat}

theorem retired_slots {ids : List NmethodId} {x : NmethodId}
    (hs : (ids.foldl CodeTable.setNotEntrant t).slots x = some nm) (ha : nm.state = .alive) :
    t.slots x = some nm ∧ x ∉ ids := by
  induction ids generalizing t with
  | nil => exact ⟨hs, by simp⟩
  | cons id rest ih =>
    obtain ⟨hmid, hrest⟩ := ih hs
    rw [CodeTable.setNotEntrant_slots] at hmid
    split at hmid
    next =>
      obtain ⟨old, _, rfl⟩ := map_eq_some_iff.mp hmid
      cases ha
    next hne =>
      refine ⟨hmid, ?_⟩
      intro hx
      rcases mem_cons.mp hx with rfl | hx
      · exact hne rfl
      · exact hrest hx

theorem retired_wf (h : t.Wf) (ids : List NmethodId) : (ids.foldl CodeTable.setNotEntrant t).Wf := by
  induction ids generalizing t with
  | nil => exact h
  | cons id rest ih => exact ih (h.setNotEntrant id)

theorem mem_affectedByInstall (hwf : vm.codeTable.Wf) {holder : KlassOop}
    {id : NmethodId} (hs : vm.codeTable.slots id = some nm) (ha : nm.state = .alive)
    (hd : vm.dependsOn nm holder sel = true) : id ∈ vm.affectedByInstall holder sel := by
  have hlt : id.index < vm.codeTable.size := by
    by_contra hge
    have hnone := hwf.bounded id (by omega)
    rw [hs] at hnone
    cases hnone
  apply mem_filter.mpr
  refine ⟨mem_map.mpr ⟨id.index, mem_range.mpr hlt, rfl⟩, ?_⟩
  rw [CodeTable.get, hs, any_some, hd]
  simp [ha]

theorem lookup_undisturbed (hown : ∀ s x, vm'.ownMethod s x = if x = k ∧ s = sel then some m else vm.ownMethod s x)
    (himage : vm'.image = vm.image) (hd : vm.dependsOn nm k sel = false) :
    vm'.lookupUncached nm.keyKlass nm.keySelector = vm.lookupUncached nm.keyKlass nm.keySelector := by
  unfold lookupUncached
  rw [himage]
  apply Forest.firstOn_congr
  intro b hb
  rw [hown]
  split
  next hc =>
    unfold dependsOn superchainContains at hd
    rw [hc.1] at hb
    simp [hc.2, hb] at hd
  next => rfl

theorem Coherent.installMethod_coherent (h : vm.Coherent) (hname : vm.image.selector m = sel)
    (hi : vm.installMethod k sel m = some vm') : vm'.Coherent := by
  obtain ⟨vm₁, he, hdicts, hown⟩ := installMethod_spec h.dicts k sel m
  rw [hi] at he
  cases he
  have hcache := installMethod_flushes hi
  obtain ⟨dict, _, hi⟩ := bind_eq_some_iff.mp hi
  cases hi
  refine ⟨hdicts, ?_, retired_wf h.table _, ?_, ?_, ?_⟩
  · unfold CacheCoherent
    rw [hcache]
    exact LookupCache.new_agrees
  · intro x s m' hm
    rw [hown] at hm
    split at hm
    next hc =>
      cases hm
      exact hname.trans hc.2.symm
    next => exact h.named x s m' hm
  · intro id nm hs ha
    obtain ⟨hold, hnot⟩ := retired_slots hs ha
    have hd : vm.dependsOn nm k sel = false := by
      by_contra hd
      exact hnot (mem_affectedByInstall h.table hold ha (Bool.eq_true_of_not_eq_false hd))
    exact (lookup_undisturbed hown rfl hd).trans (h.code id nm hold ha)
  · -- every site now carries an older epoch, so only its selector and its compiled klass matter
    intro caller icIdx
    have hsite := h.sites caller icIdx
    have hle := hsite.epoch_le
    refine ⟨rfl, Nat.le_succ_of_le hle, fun he => ?_, fun x id hs => ?_⟩
    · have hnew : (vm.ics caller icIdx).epoch = vm.icEpoch + 1 := he
      omega
    · apply Forest.firstOn_isSome ?_ (hsite.understood x id hs)
      intro b hb
      rw [hown]
      split
      next => rfl
      next => exact hb

theorem boot_coherent (image : Image) (sites : MethodOop → Nat → SymbolOop × Nat)
    (jit : Option Nat) : (boot image sites jit).Coherent where
  dicts := fun _ _ h => by simp [boot] at h
  cache := LookupCache.new_agrees
  table := CodeTable.new_wf
  named := fun _ _ _ h => by simp [boot, ownMethod] at h
  code := fun _ _ h => by simp [boot, CodeTable.new] at h
  sites := fun _ _ => ⟨rfl, le_rfl, fun _ => trivial, fun _ _ h => by cases h⟩

theorem Coherent.dnu_spec (h : vm.Coherent) (k : KlassOop) (jit : JitOracle) :
    Keeps vm (vm.dnu k jit).2 ∧ (vm.dnu k jit).1.method (vm.dnu k jit).2 = none := by
  have hl := h.keeps_lookup k vm.image.selDoesNotUnderstand
  unfold dnu
  split
  next handler vm₁ he =>
    rw [he] at hl
    obtain ⟨hact, _⟩ := hl.coherent.activateMethod_spec handler k none jit (fun _ _ he => by cases he)
    exact ⟨hl.trans hact, rfl⟩
  next vm₁ he =>
    rw [he] at hl
    exact ⟨hl, rfl⟩

theorem Coherent.sendSlow_spec (h : vm.Coherent)
    (hno : ¬ vm.NoHolder caller icIdx) (hst : ¬ vm.StaleSplit caller icIdx k) (jit : JitOracle) :
    ∃ o vm', vm.sendSlow caller icIdx k (vm.image.superSite caller icIdx) jit = some (o, vm') ∧
      Keeps vm vm' ∧ o.method vm' = vm.answer caller icIdx k := by
  obtain ⟨cache, ic, hc, hok, hr⟩ := h.icTransition_delivers hno k hst
  have hkeep : Keeps vm ((vm.withCache cache).setIc caller icIdx ic) :=
    (h.keeps_withCache hc).trans ((h.withCache hc).keeps_setIc hok.withCache)
  unfold sendSlow
  rw [hr]
  cases ha : vm.answer caller icIdx k with
  | some m =>
    have hsite : ∀ c i, some (caller, icIdx) = some (c, i) →
        ((vm.withCache cache).setIc caller icIdx ic).answer c i k = some m := by
      intro c i he
      cases he
      rw [hkeep.world.answer]
      exact ha
    obtain ⟨hact, hm⟩ := hkeep.coherent.activateMethod_spec m k (some (caller, icIdx)) jit hsite
    exact ⟨_, _, rfl, hkeep.trans hact, hm⟩
  | none =>
    obtain ⟨hdnu, hm⟩ := hkeep.coherent.dnu_spec k jit
    exact ⟨_, _, rfl, hkeep.trans hdnu, hm⟩

theorem Coherent.sendGeneric_spec (h : vm.Coherent)
    (hno : ¬ vm.NoHolder caller icIdx) (hst : ¬ vm.StaleSplit caller icIdx k) (jit : JitOracle) :
    ∃ o vm', vm.sendGeneric caller icIdx k (vm.image.superSite caller icIdx) jit = some (o, vm') ∧
      Keeps vm vm' ∧ o.method vm' = vm.answer caller icIdx k := by
  have hslow := h.sendSlow_spec hno hst jit
  have hsite := h.sites caller icIdx
  unfold sendGeneric
  dsimp only
  split
  next hfast =>
    obtain ⟨hg, he⟩ := hfast
    have hc := hsite.coherent he
    split
    next k0 id hs =>
      have hk : k0 = k := by
        unfold InterpreterIc.guard at hg
        rw [hs] at hg
        exact Option.some.inj hg
      subst k0
      rw [hs] at hc
      have hc : vm.lookupUncached k (vm.ics caller icIdx).selector = vm.answer caller icIdx k := hc
      split
      next hv =>
        split
        next =>
          obtain ⟨m, hm⟩ := isSome_iff_exists.mp (hsite.understood k id hs)
          have hl := h.cache.lookup_eq k (vm.ics caller icIdx).selector
          have hkeep := h.keeps_lookup k (vm.ics caller icIdx).selector
          obtain ⟨hact, hmeth⟩ := hkeep.coherent.activateMethod_spec m k none jit (fun _ _ he => by cases he)
          have hmeth := hmeth.trans (hm.symm.trans hc)
          refine ⟨.activated ((vm.lookup k (vm.ics caller icIdx).selector).2.activateMethod m k
            none jit).1, _, ?_, hkeep.trans hact, hmeth⟩
          rw [hl, hm]
          rfl
        next =>
          refine ⟨_, _, rfl, Keeps.refl h, ?_⟩
          obtain ⟨nm, hn, hv⟩ := (any_eq_true _ _).mp hv
          simp only [Bool.and_eq_true, decide_eq_true_eq] at hv
          have hcode := h.code id nm hn hv.1.1
          rw [hv.1.2, hv.2, hc] at hcode
          change (vm.codeTable.get id).map Nmethod.method = vm.answer caller icIdx k
          rw [hn, hcode]
          rfl
      next => exact hslow
    next k0 m hs =>
      have hk : k0 = k := by
        unfold InterpreterIc.guard at hg
        rw [hs] at hg
        exact Option.some.inj hg
      subst k0
      rw [hs] at hc
      have hsite' : ∀ c i, some (caller, icIdx) = some (c, i) → vm.answer c i k = some m := by
        intro c i he
        cases he
        exact hc
      obtain ⟨hact, hmeth⟩ := h.activateMethod_spec m k (some (caller, icIdx)) jit hsite'
      exact ⟨_, _, rfl, hact, hmeth.trans hc.symm⟩
    next => exact hslow
  next => exact hslow

end WinArmVm.VmState
