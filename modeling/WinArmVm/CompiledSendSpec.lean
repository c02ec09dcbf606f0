import WinArmVm.CompiledResolve

namespace WinArmVm.VmState

open Option

variable {vm vm' : VmState} {site : IcSite} {caller : NmethodId} {rcvr : Receiver} {idx : Nat} {m : MethodOop}

theorem Dispatchable.rtResolveSend_spec (h : vm.Dispatchable)
    (hs : vm.siteAt caller idx = some site) (hmega : site.state ≠ .mega) (k : KlassOop) (cacheFull : Bool) :
    ∃ target vm', vm.rtResolveSend caller idx k cacheFull = some (target, vm') ∧ vm'.Dispatchable ∧ Relinked vm vm' ∧
      match vm.siteAnswer site k with
      | none => target = none
      | some m => ∃ t landing, target = some t ∧ vm.landTarget k t = some landing ∧
          vm.FreshLanding m landing := by
  have hlinked := h.siteAt_linked hs
  unfold rtResolveSend siteAnswer
  rw [hs]
  simp only [bind_eq_bind, bind_some]
  cases hsup : site.superKlass with
  | some sk =>
    obtain ⟨cache, hc, hl⟩ := lookup_withCache h.cache sk site.selector
    have hcd := h.withCache hc
    have hcr := relinked_withCache vm cache
    simp only [hl, getD_some]
    cases hm : vm.lookupUncached sk site.selector with
    | none => exact ⟨none, _, rfl, hcd, hcr, rfl⟩
    | some m =>
      obtain ⟨landing, hland, hfresh⟩ := h.resolveSuperTargetEntry_lands hm k
      refine ⟨_, _, rfl, hcd.setSite fun site' hs' => ?_, hcr.trans (relinked_setSite _ caller idx _),
        _, landing, rfl, hland, hfresh⟩
      have he : some site = some site' := hs.symm.trans hs'
      cases some.inj he
      exact ⟨.inr hsup, hcd.resolveSuperTargetEntry_linked hm⟩
  | none =>
    obtain ⟨cache, hc, hl⟩ := lookup_withCache h.cache k site.selector
    have hcd := h.withCache hc
    have hcr := relinked_withCache vm cache
    simp only [hl, getD_none]
    cases hm : vm.lookupUncached k site.selector with
    | none => exact ⟨none, _, rfl, hcd, hcr, rfl⟩
    | some m =>
      obtain ⟨verified, vm₁, hre, hd, hr⟩ := hcd.relink_spec hs hsup hmega hm cacheFull
      obtain ⟨landing, hland, hfresh⟩ := h.resolveTargetEntry_lands hm verified
      refine ⟨some (vm.resolveTargetEntry k site.selector m verified), vm₁, ?_, hd, hcr.trans hr, _,
        landing, rfl, hland, hfresh⟩
      dsimp only
      rw [hre]
      rfl

theorem Dispatchable.rtMegaLookup_spec (h : vm.Dispatchable) (k : KlassOop) (sel : SymbolOop) :
    OnlyCache vm (vm.rtMegaLookup k sel).2 ∧
      match vm.lookupUncached k sel with
      | none => (vm.rtMegaLookup k sel).1 = none
      | some m => ∃ t landing, (vm.rtMegaLookup k sel).1 = some t ∧
          vm.landTarget k t = some landing ∧ vm.FreshLanding m landing := by
  obtain ⟨cache, hc, hl⟩ := lookup_withCache h.cache k sel
  unfold rtMegaLookup
  rw [hl]
  cases hm : vm.lookupUncached k sel with
  | none => exact ⟨⟨cache, hc, rfl⟩, rfl⟩
  | some m =>
    obtain ⟨landing, hland, hfresh⟩ := h.resolveTargetEntry_lands hm true
    exact ⟨⟨cache, hc, rfl⟩, _, landing, rfl, hland, hfresh⟩

variable {baked : MethodOop} {landing : Landing} {k₀ k : KlassOop} {id : NmethodId}

theorem Dispatchable.serves_interpret (h : vm.Dispatchable) (hs : vm.siteAt caller idx = some site)
    (hb : vm.image.selector baked = site.selector) (rcvr : Receiver) (cacheFull : Bool) (fuel : Nat) :
    ∃ vm', arrive caller idx rcvr cacheFull (fuel + 1) vm (.interpret baked) =
        some (.method (if vm.lookupUncached rcvr.klass site.selector = some baked then baked
          else (vm.siteAnswer site rcvr.klass).getD baked), vm') ∧
      vm'.Dispatchable ∧ Relinked vm vm' := by
  obtain ⟨hstep, hran⟩ := rtInterpretCall_spec h.cache hb rcvr.klass
  refine ⟨(vm.rtInterpretCall site rcvr.klass baked).2, ?_, h.onlyCache hstep, hstep.relinked⟩
  unfold arrive
  rw [hs, ← hran]
  rfl

theorem Dispatchable.serves_value (h : vm.Dispatchable) (caller : NmethodId) (idx : Nat)
    (rcvr : Receiver) (cacheFull : Bool) (fuel argc : Nat) (answer : Option MethodOop) :
    ∃ ran vm', arrive caller idx rcvr cacheFull (fuel + 1) vm (.value argc) = some (ran, vm') ∧
      vm'.Dispatchable ∧ Relinked vm vm' ∧
      (ran.Matches vm.image answer ↔ vm.ValueAgrees answer rcvr argc) := by
  obtain ⟨hstep, hran⟩ := valueDispatch_spec h.cache rcvr argc answer
  exact ⟨_, _, rfl, h.onlyCache hstep, hstep.relinked, hran⟩

theorem Dispatchable.serves_fresh (h : vm.Dispatchable) (hs : vm.siteAt caller idx = some site)
    (hm : vm.siteAnswer site rcvr.klass = some m) (hfresh : vm.FreshLanding m landing) (cacheFull : Bool) (fuel : Nat) :
    ∃ ran vm', arrive caller idx rcvr cacheFull (fuel + 1) vm landing = some (ran, vm') ∧
      vm'.Dispatchable ∧ Relinked vm vm' ∧
      (ran.Matches vm.image (some m) ↔
        ∀ argc, vm.image.valueArgc m = some argc → vm.ValueAgrees (some m) rcvr argc) := by
  unfold FreshLanding at hfresh
  cases hv : vm.image.valueArgc m with
  | some argc =>
    rw [hv] at hfresh
    subst hfresh
    obtain ⟨ran, vm', he, hd, hr, hran⟩ := h.serves_value caller idx rcvr cacheFull fuel argc (some m)
    refine ⟨ran, vm', he, hd, hr, hran.trans ⟨fun ha x hx => ?_, fun ha => ha argc rfl⟩⟩
    cases hx
    exact ha
  | none =>
    rw [hv] at hfresh
    have hvac : ∀ argc, (none : Option Nat) = some argc → vm.ValueAgrees (some m) rcvr argc :=
      fun argc hx => by cases hx
    rcases hfresh with rfl | rfl
    · exact ⟨.method m, vm, rfl, h, Relinked.refl vm, iff_of_true rfl hvac⟩
    · obtain ⟨vm', he, hd, hr⟩ := h.serves_interpret hs (h.lookup_named hm).1 rcvr cacheFull fuel
      refine ⟨_, vm', he, hd, hr, iff_of_true ?_ hvac⟩
      rw [hm]
      split
      next => rfl
      next => rfl

theorem Dispatchable.serves_target (h : vm'.Dispatchable) (hr : Relinked vm vm') (hs : vm.siteAt caller idx = some site)
     (hm : vm.siteAnswer site rcvr.klass = some m) {t : CodeTarget}
    (hland : vm.landTarget rcvr.klass t = some landing)
    (hfresh : vm.FreshLanding m landing) (cacheFull : Bool) (fuel : Nat) :
    ∃ ran vm'', ((vm'.landTarget rcvr.klass t).bind fun landing =>
        arrive caller idx rcvr cacheFull (fuel + 1) vm' landing) = some (ran, vm'') ∧
      vm''.Dispatchable ∧ Relinked vm vm'' ∧
      (ran.Matches vm.image (some m) ↔
        ∀ argc, vm.image.valueArgc m = some argc → vm.ValueAgrees (some m) rcvr argc) := by
  obtain ⟨site', hs', hsel, hsup⟩ := hr.siteAt hs
  have hm' : vm'.siteAnswer site' rcvr.klass = some m := by
    rw [siteAnswer_congr hr.lookupUncached hsel hsup]
    exact hm
  have hfresh' : vm'.FreshLanding m landing := by
    unfold FreshLanding
    rw [hr.image]
    exact hfresh
  obtain ⟨ran, vm'', he, hd, hr', hran⟩ := h.serves_fresh hs' hm' hfresh' cacheFull fuel
  refine ⟨ran, vm'', ?_, hd, hr.trans hr', ?_⟩
  · rw [hr.landTarget, hland]
    exact he
  · rw [hr.image] at hran
    refine hran.trans (forall_congr' fun argc => imp_congr_right fun _ => ?_)
    exact hr.valueAgrees (some m) rcvr argc

def ServedAfresh (vm : VmState) (site : IcSite) (rcvr : Receiver) (ran : Ran) (vm' : VmState) : Prop :=
  vm'.Dispatchable ∧ Relinked vm vm' ∧ (ran.Matches vm.image (vm.siteAnswer site rcvr.klass) ↔
      ∀ argc, (vm.siteAnswer site rcvr.klass).bind vm.image.valueArgc = some argc →
        vm.ValueAgrees (vm.siteAnswer site rcvr.klass) rcvr argc)

theorem Dispatchable.serves_resolve (h : vm.Dispatchable)
    (hs : vm.siteAt caller idx = some site) (hmega : site.state ≠ .mega)
    (rcvr : Receiver) (cacheFull : Bool) (fuel : Nat) :
    ∃ ran vm', arrive caller idx rcvr cacheFull (fuel + 2) vm .resolve = some (ran, vm') ∧
      vm.ServedAfresh site rcvr ran vm' := by
  obtain ⟨target, vm₁, hre, hd, hr, htarget⟩ := h.rtResolveSend_spec hs hmega rcvr.klass cacheFull
  unfold ServedAfresh
  cases hm : vm.siteAnswer site rcvr.klass with
  | none =>
    rw [hm] at htarget
    cases htarget
    refine ⟨.notUnderstood, vm₁, ?_, hd, hr, iff_of_true rfl fun argc hx => by cases hx⟩
    unfold arrive
    rw [hre]
    rfl
  | some m =>
    rw [hm] at htarget
    obtain ⟨t, landing, rfl, hland, hfresh⟩ := htarget
    obtain ⟨ran, vm', he, hd', hr', hran⟩ := hd.serves_target hr hs hm hland hfresh cacheFull fuel
    refine ⟨ran, vm', ?_, hd', hr', hran⟩
    unfold arrive
    rw [hre]
    exact he

theorem Dispatchable.serves_mega (h : vm.Dispatchable)
    (hs : vm.siteAt caller idx = some site) (hord : site.superKlass = none)
    (rcvr : Receiver) (cacheFull : Bool) (fuel : Nat) :
    ∃ ran vm', arrive caller idx rcvr cacheFull (fuel + 2) vm .mega = some (ran, vm') ∧
      vm.ServedAfresh site rcvr ran vm' := by
  have hanswer : vm.siteAnswer site rcvr.klass = vm.lookupUncached rcvr.klass site.selector := by
    unfold siteAnswer
    rw [hord]
    rfl
  obtain ⟨hstep, htarget⟩ := h.rtMegaLookup_spec rcvr.klass site.selector
  rw [← hanswer] at htarget
  have hd := h.onlyCache hstep
  have hr := hstep.relinked
  unfold ServedAfresh
  cases hfound : vm.rtMegaLookup rcvr.klass site.selector with
  | mk target vm₁ =>
    rw [hfound] at hd hr htarget
    cases hm : vm.siteAnswer site rcvr.klass with
    | none =>
      rw [hm] at htarget
      cases htarget
      refine ⟨.notUnderstood, vm₁, ?_, hd, hr, iff_of_true rfl fun argc hx => by cases hx⟩
      simp only [arrive, hs, hfound, bind_eq_bind, bind_some]
      rfl
    | some m =>
      rw [hm] at htarget
      obtain ⟨t, landing, rfl, hland, hfresh⟩ := htarget
      obtain ⟨ran, vm', he, hd', hr', hran⟩ := hd.serves_target hr hs hm hland hfresh cacheFull fuel
      refine ⟨ran, vm', ?_, hd', hr', hran⟩
      simp only [arrive, hs, hfound, bind_eq_bind, bind_some]
      exact he

/-- Where a linked site sends a receiver of klass `k`. -/
inductive Lands (vm : VmState) (site : IcSite) (k : KlassOop) : Landing → Prop
  | resolve : site.state ≠ .mega → Lands vm site k .resolve
  | mega : site.superKlass = none → Lands vm site k .mega
  | value (argc : Nat) : Lands vm site k (.value argc)
  | adapter {baked : MethodOop} {k₀ : KlassOop} : vm.image.selector baked = site.selector →
      site.state = .mono k₀ (.c2i baked) → site.superKlass = none ∨ site.superKlass = some k₀ →
      (vm.lookupUncached k₀ site.selector).isSome → Lands vm site k (.interpret baked)
  | picAdapter {baked : MethodOop} : vm.image.selector baked = site.selector →
      site.superKlass = none → (vm.lookupUncached k site.selector).isSome →
      Lands vm site k (.interpret baked)
  | verified {m : MethodOop} {k₀ : KlassOop} {id : NmethodId} {nm : Nmethod} :
      site.state = .mono k₀ (.verifiedEntry id) → vm.codeTable.slots id = some nm →
      nm.state = .alive → vm.lookupUncached k₀ site.selector = some m →
      site.superKlass = none ∨ site.superKlass = some k₀ → Lands vm site k (.code m)
  | guarded {m : MethodOop} : vm.siteAnswer site k = some m → Lands vm site k (.code m)

theorem Dispatchable.keyed_code (h : vm.Dispatchable) {k : KlassOop}
    {sel : SymbolOop} (hk : vm.KeyedTo id k sel) : ∃ nm, vm.codeTable.slots id = some nm ∧
      nm.keyKlass = k ∧ (nm.state = .alive → vm.lookupUncached k sel = some nm.method) := by
  obtain ⟨nm, hs, hb, rfl, rfl⟩ := hk
  exact ⟨nm, hs, rfl, fun ha => h.code id nm hs ha hb⟩

theorem Dispatchable.landSite_lands (h : vm.Dispatchable) (hlinked : vm.SiteLinked site) (k : KlassOop) :
    ∃ landing, vm.landSite site k = some landing ∧ vm.Lands site k landing := by
  unfold SiteLinked at hlinked
  unfold landSite
  cases hst : site.state with
  | unresolved => exact ⟨.resolve, rfl, .resolve (by rw [hst]; simp)⟩
  | mega =>
    rw [hst] at hlinked
    exact ⟨.mega, rfl, .mega hlinked⟩
  | mono k₀ target =>
    rw [hst] at hlinked
    obtain ⟨hsup, hfound, htarget⟩ := hlinked
    have hnot : site.state ≠ .mega := by
      rw [hst]
      simp
    cases target with
    | resolve => exact ⟨.resolve, rfl, .resolve hnot⟩
    | c2i m => exact ⟨.interpret m, rfl, .adapter htarget hst hsup hfound⟩
    | valueDispatch argc => exact ⟨.value argc, rfl, .value argc⟩
    | entry id =>
      obtain ⟨nm, hs, hk, hcode⟩ := h.keyed_code htarget
      simp only [landTarget, CodeTable.get, hs, map_some]
      by_cases hin : nm.state = .alive ∧ nm.keyKlass = k
      · rw [if_pos hin]
        refine ⟨_, rfl, .guarded ?_⟩
        have hkk : k₀ = k := hk.symm.trans hin.2
        unfold siteAnswer
        rcases hsup with hsup | hsup
        · rw [hsup, ← hkk]
          exact hcode hin.1
        · rw [hsup]
          exact hcode hin.1
      · rw [if_neg hin]
        exact ⟨.resolve, rfl, .resolve hnot⟩
    | verifiedEntry id =>
      obtain ⟨nm, hs, hk, hcode⟩ := h.keyed_code htarget
      simp only [landTarget, CodeTable.get, hs, map_some]
      by_cases hin : nm.state = .alive
      · rw [if_pos hin]
        exact ⟨_, rfl, .verified hst hs hin (hcode hin) hsup⟩
      · rw [if_neg hin]
        exact ⟨.resolve, rfl, .resolve hnot⟩
  | pic pairs =>
    rw [hst] at hlinked
    obtain ⟨hsup, hpairs⟩ := hlinked
    have hnot : site.state ≠ .mega := by
      rw [hst]
      simp
    dsimp only
    cases hf : pairs.find? fun p => p.1 = k with
    | none => exact ⟨.resolve, rfl, .resolve hnot⟩
    | some p =>
      have hk : p.1 = k := by simpa using List.find?_some hf
      obtain ⟨hfound, htarget⟩ := hpairs p (List.mem_of_find?_eq_some hf)
      rw [hk] at hfound htarget
      have hanswer : vm.siteAnswer site k = vm.lookupUncached k site.selector := by
        unfold siteAnswer
        rw [hsup]
        rfl
      dsimp only
      cases ht : p.2 with
      | resolve => exact ⟨.resolve, rfl, .resolve hnot⟩
      | valueDispatch argc => exact ⟨.value argc, rfl, .value argc⟩
      | c2i m =>
        rw [ht] at htarget
        exact ⟨.interpret m, rfl, .picAdapter htarget hsup hfound⟩
      | entry id =>
        rw [ht] at htarget
        obtain ⟨nm, hs, hkk, hcode⟩ := h.keyed_code htarget
        simp only [landTarget, CodeTable.get, hs, map_some]
        by_cases hin : nm.state = .alive ∧ nm.keyKlass = k
        · rw [if_pos hin]
          exact ⟨_, rfl, .guarded (hanswer.trans (hcode hin.1))⟩
        · rw [if_neg hin]
          exact ⟨.resolve, rfl, .resolve hnot⟩
      | verifiedEntry id =>
        rw [ht] at htarget
        obtain ⟨nm, hs, hkk, hcode⟩ := h.keyed_code htarget
        simp only [landTarget, CodeTable.get, hs, map_some]
        by_cases hin : nm.state = .alive
        · rw [if_pos hin]
          exact ⟨_, rfl, .guarded (hanswer.trans (hcode hin))⟩
        · rw [if_neg hin]
          exact ⟨.resolve, rfl, .resolve hnot⟩

theorem landSite_adapter (h : site.state = .mono k₀ (.c2i m)) : vm.landSite site k = some (.interpret m) := by
  unfold landSite
  rw [h]
  rfl

theorem landSite_verified {nm : Nmethod}
    (h : site.state = .mono k₀ (.verifiedEntry id)) (hs : vm.codeTable.slots id = some nm)
    (ha : nm.state = .alive) : vm.landSite site k = some (.code nm.method) := by
  unfold landSite
  rw [h]
  simp [landTarget, CodeTable.get, hs, ha]

theorem misdirected_fresh (hl : vm.landSite site rcvr.klass = some .resolve ∨ vm.landSite site rcvr.klass = some .mega) :
    ¬ vm.Misdirected site rcvr ↔ ∀ argc, (vm.siteAnswer site rcvr.klass).bind vm.image.valueArgc = some argc →
        vm.ValueAgrees (vm.siteAnswer site rcvr.klass) rcvr argc := by
  have hnot : ∀ landing, vm.landSite site rcvr.klass = some landing →
      landing = .resolve ∨ landing = .mega := by
    intro landing he
    rcases hl with hl | hl
    · exact .inl (some.inj (he.symm.trans hl))
    · exact .inr (some.inj (he.symm.trans hl))
  constructor
  · intro hok argc hv
    by_contra hbad
    exact hok (.value (.inr ⟨hl, hv⟩) hbad)
  · intro hok hmis
    cases hmis with
    | unguarded _ hst _ => simpa using hnot _ (landSite_adapter hst)
    | selfLink _ hst hs ha _ => simpa using hnot _ (landSite_verified hst hs ha)
    | ancestor _ hst _ _ => simpa using hnot _ (landSite_adapter hst)
    | value hreach hbad =>
      rcases hreach with hval | ⟨_, hv⟩
      · simpa using hnot _ hval
      · exact hbad (hok _ hv)

theorem misdirected_value {argc : Nat} (hl : vm.landSite site rcvr.klass = some (.value argc)) :
    ¬ vm.Misdirected site rcvr ↔
      vm.ValueAgrees (vm.siteAnswer site rcvr.klass) rcvr argc := by
  have hnot : ∀ landing, vm.landSite site rcvr.klass = some landing → landing = .value argc :=
    fun landing he => some.inj (he.symm.trans hl)
  constructor
  · intro hok
    by_contra hbad
    exact hok (.value (.inl hl) hbad)
  · intro hok hmis
    cases hmis with
    | unguarded _ hst _ => simpa using hnot _ (landSite_adapter hst)
    | selfLink _ hst hs ha _ => simpa using hnot _ (landSite_verified hst hs ha)
    | ancestor _ hst _ _ => simpa using hnot _ (landSite_adapter hst)
    | value hreach hbad =>
      rcases hreach with hval | ⟨hf | hf, _⟩
      · cases hnot _ hval
        exact hbad hok
      · cases hnot _ hf
      · cases hnot _ hf

theorem misdirected_interpret (hl : vm.landSite site rcvr.klass = some (.interpret baked))
    (hlands : vm.Lands site rcvr.klass (.interpret baked)) :
    ¬ vm.Misdirected site rcvr ↔ vm.siteAnswer site rcvr.klass =
      some (if vm.lookupUncached rcvr.klass site.selector = some baked then baked
        else (vm.siteAnswer site rcvr.klass).getD baked) := by
  have hnot : ∀ landing, vm.landSite site rcvr.klass = some landing → landing = .interpret baked :=
    fun landing he => some.inj (he.symm.trans hl)
  have hord : site.superKlass = none →
      vm.siteAnswer site rcvr.klass = vm.lookupUncached rcvr.klass site.selector := by
    intro hsup
    unfold siteAnswer
    rw [hsup]
    rfl
  have hsuper : ∀ sk, site.superKlass = some sk →
      vm.siteAnswer site rcvr.klass = vm.lookupUncached sk site.selector := by
    intro sk hsup
    unfold siteAnswer
    rw [hsup]
    rfl
  constructor
  · intro hok
    split
    next hfound =>
      by_contra hne
      cases hlands with
      | adapter _ hst hsup _ =>
        rcases hsup with hsup | hsup
        · exact hne ((hord hsup).trans hfound)
        · rw [hsuper _ hsup] at hne
          exact hok (.ancestor hsup hst hfound hne)
      | picAdapter _ hsup _ => exact hne ((hord hsup).trans hfound)
    next =>
      cases ha : vm.siteAnswer site rcvr.klass with
      | some m => rfl
      | none =>
        refine absurd ?_ hok
        cases hlands with
        | adapter _ hst hsup hfound =>
          rcases hsup with hsup | hsup
          · rw [hord hsup] at ha
            exact .unguarded hsup hst ha
          · rw [hsuper _ hsup] at ha
            rw [ha] at hfound
            cases hfound
        | picAdapter _ hsup hfound =>
          rw [hord hsup] at ha
          rw [ha] at hfound
          cases hfound
  · intro hok hmis
    cases hmis with
    | unguarded hsup hst hnone =>
      rw [hord hsup, hnone] at hok
      cases hok
    | selfLink _ hst hs ha _ => cases hnot _ (landSite_verified hst hs ha)
    | ancestor hsup hst hfound hne =>
      cases hnot _ (landSite_adapter hst)
      rw [if_pos hfound, hsuper _ hsup] at hok
      exact hne hok
    | value hreach _ =>
      rcases hreach with hval | ⟨hf | hf, _⟩
      · cases hnot _ hval
      · cases hnot _ hf
      · cases hnot _ hf

theorem Dispatchable.misdirected_code (h : vm.Dispatchable) (hlinked : vm.SiteLinked site)
    (hl : vm.landSite site rcvr.klass = some (.code m)) (hlands : vm.Lands site rcvr.klass (.code m)) :
    ¬ vm.Misdirected site rcvr ↔ vm.siteAnswer site rcvr.klass = some m := by
  have hnot : ∀ landing, vm.landSite site rcvr.klass = some landing → landing = .code m :=
    fun landing he => some.inj (he.symm.trans hl)
  have hanswer : site.superKlass = none →
      vm.siteAnswer site rcvr.klass = vm.lookupUncached rcvr.klass site.selector := by
    intro hsup
    unfold siteAnswer
    rw [hsup]
    rfl
  constructor
  · intro hok
    cases hlands with
    | guarded hm => exact hm
    | verified hst hs ha hm hsup =>
      rcases hsup with hsup | hsup
      · rw [hanswer hsup, ← hm]
        by_contra hne
        exact hok (.selfLink hsup hst hs ha hne)
      · unfold siteAnswer
        rw [hsup]
        exact hm
  · intro hm hmis
    cases hmis with
    | unguarded _ hst _ => cases hnot _ (landSite_adapter hst)
    | ancestor _ hst _ _ => cases hnot _ (landSite_adapter hst)
    | selfLink hsup hst hs ha hne =>
      have hcode := hnot _ (landSite_verified hst hs ha)
      unfold SiteLinked at hlinked
      rw [hst] at hlinked
      obtain ⟨nm', hs', _, hlive⟩ := h.keyed_code hlinked.2.2
      rw [hs] at hs'
      cases hs'
      apply hne
      rw [hlive ha, Landing.code.inj hcode, ← hm, hanswer hsup]
    | value hreach _ =>
      rcases hreach with hval | ⟨hf | hf, _⟩
      · cases hnot _ hval
      · cases hnot _ hf
      · cases hnot _ hf

theorem Dispatchable.compiledSend_spec (h : vm.Dispatchable)
    (hs : vm.siteAt caller idx = some site) (rcvr : Receiver) (cacheFull : Bool) (fuel : Nat) :
    ∃ ran vm', vm.compiledSend caller idx rcvr cacheFull (fuel + 2) = some (ran, vm') ∧
      vm'.Dispatchable ∧ Relinked vm vm' ∧
      (ran.Matches vm.image (vm.siteAnswer site rcvr.klass) ↔ ¬ vm.Misdirected site rcvr) := by
  have hlinked := h.siteAt_linked hs
  obtain ⟨landing, hl, hlands⟩ := h.landSite_lands hlinked rcvr.klass
  unfold compiledSend
  rw [hs]
  simp only [bind_eq_bind, bind_some, hl]
  cases landing with
  | resolve =>
    obtain ⟨hmega⟩ := hlands
    obtain ⟨ran, vm', he, hd, hr, hran⟩ := h.serves_resolve hs hmega rcvr cacheFull fuel
    exact ⟨ran, vm', he, hd, hr, hran.trans (misdirected_fresh (.inl hl)).symm⟩
  | mega =>
    obtain ⟨⟩ := hlands
    next hsup =>
      obtain ⟨ran, vm', he, hd, hr, hran⟩ := h.serves_mega hs hsup rcvr cacheFull fuel
      exact ⟨ran, vm', he, hd, hr, hran.trans (misdirected_fresh (.inr hl)).symm⟩
  | value argc =>
    obtain ⟨ran, vm', he, hd, hr, hran⟩ :=
      h.serves_value caller idx rcvr cacheFull (fuel + 1) argc (vm.siteAnswer site rcvr.klass)
    exact ⟨ran, vm', he, hd, hr, hran.trans (misdirected_value hl).symm⟩
  | interpret baked =>
    have hb : vm.image.selector baked = site.selector := by
      cases hlands with
      | adapter hb _ _ _ => exact hb
      | picAdapter hb _ _ => exact hb
    obtain ⟨vm', he, hd, hr⟩ := h.serves_interpret hs hb rcvr cacheFull (fuel + 1)
    exact ⟨_, vm', he, hd, hr, (misdirected_interpret hl hlands).symm⟩
  | code m =>
    exact ⟨.method m, vm, rfl, h, Relinked.refl vm, (h.misdirected_code hlinked hl hlands).symm⟩

end WinArmVm.VmState
