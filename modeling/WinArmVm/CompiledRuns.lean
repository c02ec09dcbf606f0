import WinArmVm.CompiledSendSpec

namespace WinArmVm

open Option

theorem CodeTable.retired_slot (t : CodeTable) (ids : List NmethodId) (x : NmethodId) {nm : Nmethod}
    (hs : t.slots x = some nm) :
    ∃ state, (ids.foldl CodeTable.setNotEntrant t).slots x = some { nm with state := state } := by
  induction ids generalizing t nm with
  | nil => exact ⟨nm.state, hs⟩
  | cons id rest ih =>
    have hstep : ∃ state, (t.setNotEntrant id).slots x = some { nm with state := state } := by
      rw [setNotEntrant_slots]
      split
      next he =>
        subst x
        rw [hs]
        exact ⟨.notEntrant, rfl⟩
      next => exact ⟨nm.state, hs⟩
    obtain ⟨state, hstep⟩ := hstep
    obtain ⟨state', he⟩ := ih (t.setNotEntrant id) hstep
    exact ⟨state', he⟩

theorem CodeTable.of_retired_slot {t : CodeTable} {ids : List NmethodId} {x : NmethodId}
    {nm : Nmethod} (hs : (ids.foldl CodeTable.setNotEntrant t).slots x = some nm) :
    ∃ old, t.slots x = some old ∧ nm = { old with state := nm.state } := by
  cases hold : t.slots x with
  | some old =>
    obtain ⟨state, he⟩ := t.retired_slot ids x hold
    rw [hs] at he
    cases he
    exact ⟨old, rfl, rfl⟩
  | none =>
    exfalso
    induction ids generalizing t with
    | nil =>
      rw [List.foldl_nil, hold] at hs
      cases hs
    | cons id rest ih =>
      apply ih hs
      rw [setNotEntrant_slots]
      split
      next he =>
        subst x
        rw [hold]
        rfl
      next => exact hold

namespace VmState

variable {vm vm' : VmState}

theorem boot_dispatchable (image : Image) (sites : MethodOop → Nat → SymbolOop × Nat)
    (jit : Option Nat) : (boot image sites jit).Dispatchable where
  dicts := fun _ _ h => by simp [boot] at h
  cache := LookupCache.new_agrees
  table := CodeTable.new_wf
  named := fun _ _ _ h => by simp [boot, ownMethod] at h
  code := fun _ _ h => by simp [boot, CodeTable.new] at h
  compiled := fun _ _ h => by simp [boot, CodeTable.new] at h
  sites := fun _ _ h => by simp [boot, CodeTable.new] at h

theorem retire_extends (vm : VmState) (ids : List NmethodId) :
    Extends vm { vm with codeTable := ids.foldl CodeTable.setNotEntrant vm.codeTable } := by
  refine ⟨rfl, fun _ _ h => h, fun id k sel hk => ?_⟩
  obtain ⟨nm, hs, hb, hkk, hks⟩ := hk
  obtain ⟨state, hs'⟩ := vm.codeTable.retired_slot ids id hs
  exact ⟨_, hs', hb, hkk, hks⟩

theorem Dispatchable.retireAll (h : vm.Dispatchable) (ids : List NmethodId) :
    { vm with codeTable := ids.foldl CodeTable.setNotEntrant vm.codeTable : VmState }.Dispatchable := by
  have hext := vm.retire_extends ids
  refine ⟨h.dicts, h.cache, retired_wf h.table ids, h.named, fun id nm hs ha hb => ?_,
    fun id nm hs => ?_, fun id nm hs site hm => ?_⟩
  · exact h.code id nm (retired_slots hs ha).1 ha hb
  · obtain ⟨old, hold, he⟩ := CodeTable.of_retired_slot hs
    rw [he]
    exact h.compiled id old hold
  · obtain ⟨old, hold, he⟩ := CodeTable.of_retired_slot hs
    rw [he] at hm
    exact StateLinked.extends (h.sites id old hold site hm) hext

theorem Dispatchable.retire (h : vm.Dispatchable) (id : NmethodId) :
    (vm.retire id).Dispatchable ∧ Extends vm (vm.retire id) :=
  ⟨h.retireAll [id], vm.retire_extends [id]⟩

variable {m : MethodOop} {k : KlassOop}

theorem Dispatchable.installMethod (h : vm.Dispatchable) {sel : SymbolOop}
    (hname : vm.image.selector m = sel) (hblock : vm.image.isBlock m = false)
    (hi : vm.installMethod k sel m = some vm') : vm'.Dispatchable := by
  obtain ⟨vm₁, he, hdicts, hown⟩ := installMethod_spec h.dicts k sel m
  rw [hi] at he
  cases he
  have hcache := installMethod_flushes hi
  have himage := installMethod_image hi
  have hext : Extends vm vm' := by
    refine ⟨himage, fun x s hf => ?_, fun id x s hk => ?_⟩
    · unfold lookupUncached
      rw [himage]
      apply Forest.firstOn_isSome ?_ hf
      intro b hb
      rw [hown]
      split
      next => rfl
      next => exact hb
    · obtain ⟨dict, _, hi⟩ := bind_eq_some_iff.mp hi
      cases hi
      exact (vm.retire_extends _).keyed id x s hk
  obtain ⟨dict, _, hi⟩ := bind_eq_some_iff.mp hi
  cases hi
  refine ⟨hdicts, ?_, retired_wf h.table _, ?_, ?_, ?_, ?_⟩
  · unfold CacheCoherent
    rw [hcache]
    exact LookupCache.new_agrees
  · intro x s m' hm
    rw [hown] at hm
    split at hm
    next hc =>
      cases hm
      exact ⟨hname.trans hc.2.symm, hblock⟩
    next => exact h.named x s m' hm
  · intro id nm hs ha hb
    obtain ⟨hold, hnot⟩ := retired_slots hs ha
    have hd : vm.dependsOn nm k sel = false := by
      by_contra hd
      exact hnot (mem_affectedByInstall h.table hold ha (Bool.eq_true_of_not_eq_false hd))
    exact (lookup_undisturbed hown rfl hd).trans (h.code id nm hold ha hb)
  · intro id nm hs
    obtain ⟨old, hold, he⟩ := CodeTable.of_retired_slot hs
    rw [he]
    exact h.compiled id old hold
  · intro id nm hs site hm
    obtain ⟨old, hold, he⟩ := CodeTable.of_retired_slot hs
    rw [he] at hm
    exact StateLinked.extends (h.sites id old hold site hm) hext

theorem Dispatchable.bornSite_linked (h : vm.Dispatchable) (hext : Extends vm vm') {self : NmethodId}
    (hself : vm.image.isBlock m = false → vm'.KeyedTo self k (vm.image.selector m))
    {s : CallSite} {r f1 : Option (KlassOop × CodeTarget)} (hsuper : vm.SuperLink s r)
    (hf1 : vm.F1Link self k m s f1) : vm'.SiteLinked (bornSite s r f1) := by
  cases r with
  | some link =>
    unfold SuperLink at hsuper
    split at hsuper
    next => cases hsuper
    next sk hsk =>
      obtain ⟨callee, hm, hr⟩ := hsuper
      cases hr
      exact ⟨.inr rfl, (h.resolveSuperTargetEntry_linked hm).extends hext⟩
  | none =>
    cases f1 with
    | none => trivial
    | some link =>
      obtain ⟨_, hk, hblock, callee, hm, htarget⟩ := hf1 link.1 link.2 rfl
      have hfound : (vm.lookupUncached k s.selector).isSome := by
        rw [hm]
        rfl
      refine ⟨.inl rfl, ?_⟩
      rw [hk]
      refine ⟨hext.found k _ hfound, ?_⟩
      rcases htarget with ⟨rfl, ht⟩ | ⟨id, hid, ht⟩
      · rw [ht]
        have hkeyed := hself hblock
        rw [(h.lookup_named hm).1] at hkeyed
        exact hkeyed
      · rw [ht]
        obtain ⟨nm, hs, hkk, hks, _, hb⟩ := h.table.keyed k _ id hid
        exact hext.keyed id k _ ⟨nm, hs, hb, hkk, hks⟩

/-- What a step of the compiler leaves: the lookups alone, the links admissible,
and code of the key it compiled for. -/
structure Compiles (vm : VmState) (k : KlassOop) (m : MethodOop) (result : Option NmethodId × VmState) : Prop where
  dispatchable : result.2.Dispatchable
  extends_ : Extends vm result.2
  lookups : result.2.lookupUncached = vm.lookupUncached
  keyed : ∀ id, result.1 = some id → vm.image.isBlock m = false → result.2.KeyedTo id k (vm.image.selector m)

theorem Dispatchable.compileMethodVersioned (h : vm.Dispatchable)
    (truth : vm.lookupUncached k (vm.image.selector m) = some m ∨ vm.image.isBlock m = true)
    (version : Nat) (outcome : CompileOutcome) :
    Compiles vm k m (vm.compileMethodVersioned k m version outcome) := by
  rcases compileMethodVersioned_cases h.cache k m version outcome with
    ⟨hnone, cache, dis, jit, hc, he⟩ | ⟨code, sites, deps, cache, inv, hc, hprim, hborn, he⟩
  · refine ⟨?_, ?_, ?_, fun id hid => ?_⟩
    · rw [he]
      exact ⟨h.dicts, hc, h.table, h.named, h.code, h.compiled, h.sites⟩
    · rw [he]
      exact ⟨rfl, fun _ _ hf => hf, fun _ _ _ hk => hk⟩
    · rw [he]
      rfl
    · rw [hnone] at hid
      cases hid
  · rw [he]
    have hfree := h.table.freeSlot_none
    have hslot := vm.codeTable.install_slots (vm.nmethodFor k m version code sites deps)
    have hext : Extends vm { vm with
        lookupCache := cache
        invocations := inv
        codeTable := (vm.codeTable.install (vm.nmethodFor k m version code sites deps)).2 } := by
      refine ⟨rfl, fun _ _ hf => hf, fun id x s hk => ?_⟩
      obtain ⟨nm, hs, hrest⟩ := hk
      refine ⟨nm, ?_, hrest⟩
      have hne : id ≠ vm.codeTable.freeSlot := by
        intro heq
        rw [heq, hfree] at hs
        cases hs
      rw [hslot, if_neg hne]
      exact hs
    have hself : vm.image.isBlock m = false → VmState.KeyedTo { vm with
        lookupCache := cache
        invocations := inv
        codeTable := (vm.codeTable.install (vm.nmethodFor k m version code sites deps)).2 }
        vm.codeTable.freeSlot k (vm.image.selector m) := by
      intro hblock
      refine ⟨vm.nmethodFor k m version code sites deps, ?_, ?_, rfl, rfl⟩
      · rw [hslot, if_pos rfl]
      · unfold nmethodFor
        rw [hblock]
        rfl
    refine ⟨⟨h.dicts, hc, h.table.install rfl, h.named, ?_, ?_, ?_⟩, hext, rfl, ?_⟩
    · intro id nm hs ha hb
      rw [hslot] at hs
      split at hs
      next =>
        cases hs
        rcases truth with truth | hblock
        · exact truth
        · unfold nmethodFor at hb
          rw [hblock] at hb
          cases hb
      next => exact h.code id nm hs ha hb
    · intro id nm hs
      rw [hslot] at hs
      split at hs
      next =>
        cases hs
        exact hprim
      next => exact h.compiled id nm hs
    · intro id nm hs site hm
      rw [hslot] at hs
      split at hs
      next =>
        cases hs
        obtain ⟨s, r, f1, hsuper, hf1, rfl⟩ := hborn site hm
        exact h.bornSite_linked hext hself hsuper hf1
      next => exact StateLinked.extends (h.sites id nm hs site hm) hext
    · intro id hid hblock
      cases hid
      exact hself hblock

theorem Dispatchable.obtainCompiled (h : vm.Dispatchable)
    (truth : vm.lookupUncached k (vm.image.selector m) = some m) (jit : JitOracle) :
    Compiles vm k m (vm.obtainCompiled k m jit) := by
  unfold VmState.obtainCompiled
  split
  next id nm he =>
    obtain ⟨hl, hs, ha⟩ := existingNmethod_spec he
    obtain ⟨nm', hs', hk, hsel, _, hb⟩ := h.table.keyed _ _ _ hl
    have hkeyed : vm.KeyedTo id k (vm.image.selector m) := ⟨nm', hs', hb, hk, hsel⟩
    split
    next =>
      have hspec := h.compileMethodVersioned (.inl truth) (nm.version + 1) jit.recompiled
      split
      next newId vm₁ hc =>
        rw [hc] at hspec
        obtain ⟨hd, hx⟩ := hspec.dispatchable.retire id
        refine ⟨hd, hspec.extends_.trans hx, hspec.lookups, fun x hid hblock => ?_⟩
        exact hx.keyed x k _ (hspec.keyed x hid hblock)
      next vm₁ hc =>
        rw [hc] at hspec
        refine ⟨hspec.dispatchable, hspec.extends_, hspec.lookups, fun x hid _ => ?_⟩
        cases hid
        exact hspec.extends_.keyed id k _ hkeyed
    next =>
      refine ⟨h, Extends.refl vm, rfl, fun x hid _ => ?_⟩
      cases hid
      exact hkeyed
  next => exact h.compileMethodVersioned (.inl truth) 0 jit.compiled

theorem Dispatchable.repointSite (h : vm.Dispatchable)
    (truth : vm.lookupUncached k (vm.image.selector m) = some m) {id : NmethodId}
    (hkeyed : vm.KeyedTo id k (vm.image.selector m)) (caller : NmethodId) (idx : Nat)
    (cacheFull : Bool) : (vm.repointSite caller idx k m id cacheFull).Dispatchable := by
  unfold VmState.repointSite
  split
  next => exact h
  next site hs =>
    have hlinked := h.siteAt_linked hs
    unfold SiteLinked at hlinked
    split
    next hc =>
      have hset : ∀ state, vm.StateLinked site.selector site.superKlass state →
          (vm.setSite caller idx state).Dispatchable := by
        intro state hok
        refine h.setSite fun site' hs' => ?_
        rw [hs] at hs'
        cases hs'
        exact hok
      have hfound : (vm.lookupUncached k site.selector).isSome := by
        rw [hc.2, truth]
        rfl
      split
      next oldK target hst =>
        split
        next =>
          apply hset
          rw [hc.2]
          exact ⟨.inl hc.1, by rw [← hc.2]; exact hfound, hkeyed⟩
        next => exact h
      next pairs hst =>
        rw [hst] at hlinked
        split
        next => exact h
        next p hp =>
          dsimp only
          split
          next => exact h
          next =>
            apply hset
            refine ⟨hc.1, rekeyPairs_linked ?_ hlinked.2⟩
            rw [hc.2]
            exact h.resolveTargetEntry_linked truth true
      next => exact h
    next => exact h

theorem Dispatchable.c2iHatch (h : vm.Dispatchable) (caller : NmethodId) (idx : Nat) (k : KlassOop)
    (m : MethodOop) (jit : JitOracle) (cacheFull : Bool) :
    (vm.c2iHatch caller idx k m jit cacheFull).Dispatchable := by
  unfold VmState.c2iHatch
  split
  next => exact h
  next n =>
    have hb : (vm.bumpInvocation m).2.Dispatchable := ⟨h.dicts, h.cache, h.table, h.named, h.code, h.compiled, h.sites⟩
    dsimp only
    split
    next =>
      obtain ⟨hl, hstep⟩ := lookup_onlyCache hb.cache k ((vm.bumpInvocation m).2.image.selector m)
      have hd := hb.onlyCache hstep
      split
      next ht =>
        have truth := hl.symm.trans ht
        have himage := hstep.image
        rw [← himage, ← hstep.lookupUncached] at truth
        have hspec := hd.obtainCompiled truth jit
        have hblock := (hd.lookup_named truth).2
        split
        next id vm₁ ho =>
          rw [ho] at hspec
          have himage₁ := hspec.extends_.image
          apply hspec.dispatchable.repointSite
          · rw [hspec.lookups, himage₁]
            exact truth
          · rw [himage₁]
            exact hspec.keyed id rfl hblock
        next vm₁ ho =>
          rw [ho] at hspec
          exact hspec.dispatchable
      next => exact hd
    next => exact hb

/-- The states any interleaving of installs, compiles, invalidations and sends
through compiled sites reaches. A method is installed under its own selector; a
compile is of the method its key looks up, or of a block. -/
inductive CompiledReach : VmState → Prop
  | boot (image : Image) (sites : MethodOop → Nat → SymbolOop × Nat) (jit : Option Nat) :
      CompiledReach (boot image sites jit)
  | install {vm vm' : VmState} {k : KlassOop} {sel : SymbolOop} {m : MethodOop} :
      CompiledReach vm → vm.image.selector m = sel → vm.image.isBlock m = false →
      vm.installMethod k sel m = some vm' → CompiledReach vm'
  | compile {vm : VmState} {k : KlassOop} {m : MethodOop} (version : Nat)
      (outcome : CompileOutcome) : CompiledReach vm →
      vm.lookupUncached k (vm.image.selector m) = some m ∨ vm.image.isBlock m = true →
      CompiledReach (vm.compileMethodVersioned k m version outcome).2
  | retire {vm : VmState} (id : NmethodId) : CompiledReach vm → CompiledReach (vm.retire id)
  | send {vm vm' : VmState} {caller : NmethodId} {idx : Nat} {rcvr : Receiver} {cacheFull : Bool}
      {fuel : Nat} {ran : Ran} : CompiledReach vm →
      vm.compiledSend caller idx rcvr cacheFull (fuel + 2) = some (ran, vm') → CompiledReach vm'
  | hatch {vm : VmState} (caller : NmethodId) (idx : Nat) (k : KlassOop) (m : MethodOop)
      (jit : JitOracle) (cacheFull : Bool) : CompiledReach vm →
      CompiledReach (vm.c2iHatch caller idx k m jit cacheFull)
  | lookup {vm : VmState} (k : KlassOop) (sel : SymbolOop) : CompiledReach vm → CompiledReach (vm.lookup k sel).2
  | collect {vm : VmState} : CompiledReach vm → CompiledReach vm.gcEpilogue

theorem CompiledReach.dispatchable (h : CompiledReach vm) : vm.Dispatchable := by
  induction h with
  | boot image sites jit => exact boot_dispatchable image sites jit
  | install _ hname hblock hi ih => exact ih.installMethod hname hblock hi
  | compile version outcome _ truth ih =>
    exact (ih.compileMethodVersioned truth version outcome).dispatchable
  | retire id _ ih => exact (ih.retire id).1
  | @send vm vm' caller idx rcvr cacheFull fuel ran _ hsend ih =>
    have hat := hsend
    obtain ⟨site, hs, _⟩ := bind_eq_some_iff.mp hat
    obtain ⟨ran', vm₁, he, hd, _⟩ := ih.compiledSend_spec hs rcvr cacheFull fuel
    rw [hsend] at he
    cases he
    exact hd
  | hatch caller idx k m jit cacheFull _ ih => exact ih.c2iHatch caller idx k m jit cacheFull
  | lookup k sel _ ih => exact ih.onlyCache (lookup_onlyCache ih.cache k sel).2
  | collect _ ih => exact ih.withCache LookupCache.new_agrees

/-- In every run, every send through a compiled site runs something, and what it
runs is what the lookup finds at that moment (doesNotUnderstand: iff it finds
nothing) exactly when the send is not misdirected. -/
theorem compiled_send_dispatches (h : CompiledReach vm) {caller : NmethodId} {idx : Nat}
    {site : IcSite} (hs : vm.siteAt caller idx = some site) (rcvr : Receiver) (cacheFull : Bool) (fuel : Nat) :
    ∃ ran vm', vm.compiledSend caller idx rcvr cacheFull (fuel + 2) = some (ran, vm') ∧
      (ran.Matches vm.image (vm.siteAnswer site rcvr.klass) ↔ ¬ vm.Misdirected site rcvr) := by
  obtain ⟨ran, vm', he, _, _, hran⟩ := h.dispatchable.compiledSend_spec hs rcvr cacheFull fuel
  exact ⟨ran, vm', he, hran⟩

def oneSiteCode : Emitted where
  halfWarmOsr := false
  selfDevirt := false
  inlineDeps := []
  callSites := [⟨⟨24⟩, 1, none, false⟩]
  cacheFull := false

def adapterLinked : Option VmState := do
  let vm ← (boot (.flat fun _ => ⟨24⟩) (fun _ _ => (⟨24⟩, 0)) none).installMethod ⟨16⟩ ⟨24⟩ ⟨40⟩
  let vm ← vm.installMethod ⟨32⟩ ⟨24⟩ ⟨56⟩
  let (_, vm') ← (vm.compileMethodVersioned ⟨16⟩ ⟨40⟩ 0 (.emitted oneSiteCode)).2.compiledSend
    ⟨0⟩ 0 ⟨⟨32⟩, none⟩ false 2
  if vm.lookupUncached ⟨16⟩ (vm.image.selector ⟨40⟩) = some ⟨40⟩ then pure vm' else none

theorem adapterLinked_reach (h : adapterLinked = some vm) : CompiledReach vm := by
  unfold adapterLinked at h
  obtain ⟨vm₁, h₁, h⟩ := bind_eq_some_iff.mp h
  obtain ⟨vm₂, h₂, h⟩ := bind_eq_some_iff.mp h
  obtain ⟨⟨ran, vm₃⟩, h₃, h⟩ := bind_eq_some_iff.mp h
  obtain ⟨truth, h⟩ := ite_none_right_eq_some.mp h
  cases some.inj h
  have himage := installMethod_image h₁
  have hboot : CompiledReach (boot (.flat fun _ => ⟨24⟩) (fun _ _ => (⟨24⟩, 0)) none) := .boot ..
  have r₁ := hboot.install rfl rfl h₁
  have r₂ := r₁.install (by rw [himage]; rfl) (by rw [himage]; rfl) h₂
  have r₃ := r₂.compile 0 (.emitted oneSiteCode) (.inl truth)
  exact r₃.send h₃

theorem compiled_send_dispatches_at_adapter : ∃ vm site ran vm', CompiledReach vm ∧ vm.siteAt ⟨0⟩ 0 = some site ∧
    vm.compiledSend ⟨0⟩ 0 ⟨⟨32⟩, none⟩ false 2 = some (ran, vm') ∧
    (ran.Matches vm.image (vm.siteAnswer site ⟨32⟩) ↔ ¬ vm.Misdirected site ⟨⟨32⟩, none⟩) := by
  have hrun : (adapterLinked.bind fun vm => vm.siteAt ⟨0⟩ 0).isSome = true := by decide +kernel
  obtain ⟨site, hsite⟩ := isSome_iff_exists.mp hrun
  obtain ⟨vm, hvm, hs⟩ := bind_eq_some_iff.mp hsite
  have hreach := adapterLinked_reach hvm
  obtain ⟨ran, vm', he, hran⟩ := compiled_send_dispatches hreach hs ⟨⟨32⟩, none⟩ false 0
  exact ⟨vm, site, ran, vm', hreach, hs, he, hran⟩

/-- The next receiver understands nothing, and runs the first one's method. -/
theorem adapter_runs_for_other_class : ¬ ∀ vm, CompiledReach vm → ∀ caller idx site rcvr cacheFull fuel ran vm',
      vm.siteAt caller idx = some site →
      vm.compiledSend caller idx rcvr cacheFull (fuel + 2) = some (ran, vm') →
      ran.Matches vm.image (vm.siteAnswer site rcvr.klass) := by
  intro hclaim
  have hrun : (adapterLinked.bind fun vm => (vm.siteAt ⟨0⟩ 0).bind fun site =>
      (vm.compiledSend ⟨0⟩ 0 ⟨⟨48⟩, none⟩ false 2).map fun r =>
        (r.1, vm.siteAnswer site ⟨48⟩)) = some (.method ⟨56⟩, none) := by decide +kernel
  obtain ⟨vm, hvm, hrun⟩ := bind_eq_some_iff.mp hrun
  obtain ⟨site, hs, hrun⟩ := bind_eq_some_iff.mp hrun
  obtain ⟨⟨ran, vm'⟩, hsend, hbad⟩ := map_eq_some_iff.mp hrun
  obtain ⟨rfl, hnone⟩ := Prod.mk.inj hbad
  have hmatch : vm.siteAnswer site ⟨48⟩ = some ⟨56⟩ :=
    hclaim vm (adapterLinked_reach hvm) ⟨0⟩ 0 site ⟨⟨48⟩, none⟩ false 0 _ vm' hs hsend
  rw [hnone] at hmatch
  cases hmatch

end VmState

end WinArmVm
