import WinArmVm.CompiledDispatch

namespace WinArmVm

open List

/-- What ran is what the lookup found; a closure's block is run by the `value`
primitive that was found. -/
def Ran.Matches (image : Image) (answer : Option MethodOop) : Ran → Prop
  | .method m => answer = some m
  | .valueBlock argc => answer.bind image.valueArgc = some argc
  | .notUnderstood => answer = none

namespace VmState

def siteAnswer (vm : VmState) (site : IcSite) (k : KlassOop) : Option MethodOop :=
  vm.lookupUncached (site.superKlass.getD k) site.selector

/-- The block-dispatch stub of arity `argc` does for this receiver what `answer` does. -/
def ValueAgrees (vm : VmState) (answer : Option MethodOop) (rcvr : Receiver) (argc : Nat) : Prop :=
  if (vm.rtValueTarget rcvr argc).isSome then answer.bind vm.image.valueArgc = some argc
  else vm.lookupUncached rcvr.klass (vm.image.valueSelector argc) = answer

/-- The send goes to the stub because the site is linked to it, or because it is
resolved afresh and finds a `value` primitive. -/
def ReachesValue (vm : VmState) (site : IcSite) (k : KlassOop) (argc : Nat) : Prop :=
  vm.landSite site k = some (.value argc) ∨ (vm.landSite site k = some .resolve ∨ vm.landSite site k = some .mega) ∧
      (vm.siteAnswer site k).bind vm.image.valueArgc = some argc

/-- A send whose link hands it to the wrong method: a mono adapter that a
receiver not understanding the selector reaches; a proven-self link that a
receiver of another klass reaches; a super adapter whose method is no longer the
ancestor's, but still the receiver's own; and a block-dispatch stub that sends
another `value`. -/
inductive Misdirected (vm : VmState) (site : IcSite) (rcvr : Receiver) : Prop
  | unguarded {k : KlassOop} {m : MethodOop} : site.superKlass = none →
      site.state = .mono k (.c2i m) → vm.lookupUncached rcvr.klass site.selector = none →
      Misdirected vm site rcvr
  | selfLink {k : KlassOop} {id : NmethodId} {nm : Nmethod} : site.superKlass = none →
      site.state = .mono k (.verifiedEntry id) → vm.codeTable.slots id = some nm →
      nm.state = .alive →
      vm.lookupUncached rcvr.klass site.selector ≠ vm.lookupUncached k site.selector →
      Misdirected vm site rcvr
  | ancestor {k : KlassOop} {m : MethodOop} : site.superKlass = some k →
      site.state = .mono k (.c2i m) → vm.lookupUncached rcvr.klass site.selector = some m →
      vm.lookupUncached k site.selector ≠ some m → Misdirected vm site rcvr
  | value {argc : Nat} : vm.ReachesValue site rcvr.klass argc →
      ¬ vm.ValueAgrees (vm.siteAnswer site rcvr.klass) rcvr argc → Misdirected vm site rcvr

variable {vm vm' : VmState}

theorem siteAnswer_congr {site site' : IcSite} (hl : vm'.lookupUncached = vm.lookupUncached)
    (hsel : site'.selector = site.selector) (hsup : site'.superKlass = site.superKlass)
    (k : KlassOop) : vm'.siteAnswer site' k = vm.siteAnswer site k := by
  unfold siteAnswer
  rw [hl, hsel, hsup]

theorem Relinked.valueAgrees (h : Relinked vm vm') (answer : Option MethodOop) (rcvr : Receiver)
    (argc : Nat) : vm'.ValueAgrees answer rcvr argc ↔ vm.ValueAgrees answer rcvr argc := by
  unfold ValueAgrees
  rw [h.rtValueTarget, h.image, h.lookupUncached]

theorem rtInterpretCall_spec (h : vm.CacheCoherent) {site : IcSite} {baked : MethodOop}
    (hb : vm.image.selector baked = site.selector) (k : KlassOop) :
    OnlyCache vm (vm.rtInterpretCall site k baked).2 ∧
    (vm.rtInterpretCall site k baked).1 = .method (if vm.lookupUncached k site.selector = some baked then baked
      else (vm.siteAnswer site k).getD baked) := by
  obtain ⟨hl, hstep⟩ := lookup_onlyCache h k site.selector
  unfold rtInterpretCall siteAnswer
  rw [hb]
  generalize vm.lookup k site.selector = found at hl hstep ⊢
  obtain ⟨lookedUp, vm₁⟩ := found
  have hl : lookedUp = vm.lookupUncached k site.selector := hl
  dsimp only at hstep ⊢
  split
  next he =>
    rw [hl] at he
    rw [if_pos he]
    exact ⟨hstep, rfl⟩
  next he =>
    rw [hl] at he
    rw [if_neg he]
    cases hs : site.superKlass with
    | none => exact ⟨hstep, by rw [hl]; rfl⟩
    | some sk =>
      obtain ⟨hl₂, hstep₂⟩ := lookup_onlyCache hstep.cacheCoherent sk site.selector
      rw [hstep.lookupUncached] at hl₂
      dsimp only
      rw [hstep.image, hb]
      exact ⟨hstep.trans hstep₂, by rw [hl₂]; rfl⟩

theorem valueDispatch_spec (h : vm.CacheCoherent) (rcvr : Receiver) (argc : Nat) (answer : Option MethodOop) :
    OnlyCache vm (vm.valueDispatch rcvr argc).2 ∧
    ((vm.valueDispatch rcvr argc).1.Matches vm.image answer ↔ vm.ValueAgrees answer rcvr argc) := by
  unfold valueDispatch ValueAgrees
  cases vm.rtValueTarget rcvr argc with
  | some id => exact ⟨OnlyCache.refl h, Iff.rfl⟩
  | none =>
    obtain ⟨hl, hstep⟩ := lookup_onlyCache h rcvr.klass (vm.image.valueSelector argc)
    dsimp only
    rw [if_neg (by simp)]
    split
    next m vm₁ he =>
      rw [he] at hl hstep
      rw [← hl]
      exact ⟨hstep, eq_comm⟩
    next vm₁ he =>
      rw [he] at hl hstep
      rw [← hl]
      exact ⟨hstep, eq_comm⟩

/-- Where a target that was just resolved for `m` lands. -/
def FreshLanding (vm : VmState) (m : MethodOop) (landing : Landing) : Prop :=
  match vm.image.valueArgc m with
  | some argc => landing = .value argc
  | none => landing = .code m ∨ landing = .interpret m

variable {sel : SymbolOop} {m : MethodOop} {k : KlassOop}

theorem Dispatchable.resolveTargetEntry_lands (h : vm.Dispatchable)
     (hm : vm.lookupUncached k sel = some m) (verified : Bool) :
    ∃ landing, vm.landTarget k (vm.resolveTargetEntry k sel m verified) = some landing ∧
      vm.FreshLanding m landing := by
  unfold FreshLanding
  rcases h.resolveTargetEntry_cases hm verified with ⟨argc, hv, he⟩ | ⟨hv, he⟩ |
    ⟨hv, id, nm, hs, ha, _, hk, _, hme, he⟩
  · rw [he, hv]
    exact ⟨_, rfl, rfl⟩
  · rw [he, hv]
    exact ⟨_, rfl, .inr rfl⟩
  · refine ⟨.code m, ?_, by rw [hv]; exact .inl rfl⟩
    rw [he]
    cases verified with
    | true => simp [landTarget, CodeTable.get, hs, ha, hme]
    | false => simp [landTarget, CodeTable.get, hs, ha, hk, hme]

theorem Dispatchable.resolveSuperTargetEntry_lands (h : vm.Dispatchable) {sk : KlassOop}
     (hm : vm.lookupUncached sk sel = some m) (k : KlassOop) :
    ∃ landing, vm.landTarget k (vm.resolveSuperTargetEntry sk sel m) = some landing ∧
      vm.FreshLanding m landing := by
  unfold resolveSuperTargetEntry
  split
  next hdev =>
    obtain ⟨nm, hn, _⟩ := (Option.any_eq_true _ _).mp hdev
    obtain ⟨id, hl, hs⟩ := Option.bind_eq_some_iff.mp hn
    obtain ⟨nm', hs', hk, hsel, ha, hb⟩ := h.table.keyed sk sel id hl
    have hcode := h.code id nm' hs' ha hb
    rw [hk, hsel, hm] at hcode
    have hv := h.compiled id nm' hs'
    rw [← Option.some.inj hcode] at hv
    refine ⟨.interpret m, rfl, ?_⟩
    unfold FreshLanding
    rw [hv]
    exact .inr rfl
  next =>
    unfold FreshLanding
    rcases h.resolveTargetEntry_cases hm true with ⟨argc, hv, he⟩ | ⟨hv, he⟩ |
      ⟨hv, id, nm, hs, ha, _, _, _, hme, he⟩
    · rw [he, hv]
      exact ⟨_, rfl, rfl⟩
    · rw [he, hv]
      exact ⟨_, rfl, .inr rfl⟩
    · refine ⟨.code m, ?_, by rw [hv]; exact .inl rfl⟩
      rw [he]
      simp [landTarget, CodeTable.get, hs, ha, hme]

theorem rekeyPairs_linked {t : CodeTarget} (ht : vm.Linked k sel t) {pairs : List (KlassOop × CodeTarget)}
    (hpairs : ∀ p ∈ pairs, vm.Linked p.1 sel p.2) :
    ∀ p ∈ rekeyPairs k t pairs, vm.Linked p.1 sel p.2 := by
  intro p hp
  rcases mem_rekeyPairs hp with rfl | hp
  · exact ht
  · exact hpairs p hp

theorem Dispatchable.relink_spec (h : vm.Dispatchable) {caller : NmethodId} {idx : Nat}
    {site : IcSite} (hs : vm.siteAt caller idx = some site) (hord : site.superKlass = none) (hmega : site.state ≠ .mega)
    (hm : vm.lookupUncached k site.selector = some m) (cacheFull : Bool) :
    ∃ verified vm', vm.relink caller idx site k m cacheFull =
        some (vm.resolveTargetEntry k site.selector m verified, vm') ∧
      vm'.Dispatchable ∧ Relinked vm vm' := by
  have hlinked := h.siteAt_linked hs
  have hset : ∀ state, vm.StateLinked site.selector none state → (vm.setSite caller idx state).Dispatchable ∧
        Relinked vm (vm.setSite caller idx state) := by
    intro state hok
    refine ⟨h.setSite fun site' hs' => ?_, relinked_setSite vm caller idx state⟩
    rw [hs] at hs'
    cases Option.some.inj hs'
    rw [hord]
    exact hok
  have hmono := hset (.mono k (vm.resolveTargetEntry k site.selector m false))
    ⟨.inl rfl, h.resolveTargetEntry_linked hm false⟩
  unfold SiteLinked at hlinked
  unfold relink
  cases hst : site.state with
  | unresolved => exact ⟨false, _, rfl, hmono⟩
  | mega => exact absurd hst hmega
  | mono oldK target =>
    rw [hst] at hlinked
    dsimp only
    split
    next => exact ⟨false, _, rfl, hmono⟩
    next =>
      obtain ⟨oldM, hold⟩ := Option.isSome_iff_exists.mp hlinked.2.1
      obtain ⟨cache, hc, hl⟩ := lookup_withCache h.cache oldK site.selector
      rw [hl, hold]
      refine ⟨true, _, rfl, ?_⟩
      have hcd := h.withCache hc
      have hcr := relinked_withCache vm cache
      split
      next => exact ⟨hcd, hcr⟩
      next =>
        refine ⟨hcd.setSite fun site' hs' => ?_, hcr.trans (relinked_setSite _ caller idx _)⟩
        have he : some site = some site' := hs.symm.trans hs'
        cases he
        refine ⟨hord, fun p hp => ?_⟩
        rcases mem_cons.mp hp with rfl | hp
        · exact hcd.resolveTargetEntry_linked hold true
        · cases mem_singleton.mp hp
          exact hcd.resolveTargetEntry_linked hm true
  | pic pairs =>
    rw [hst] at hlinked
    have hnew := h.resolveTargetEntry_linked hm true
    refine ⟨true, _, rfl, ?_⟩
    split
    next => exact ⟨h, Relinked.refl vm⟩
    next =>
      apply hset
      split
      next => exact ⟨rfl, rekeyPairs_linked hnew hlinked.2⟩
      next =>
        split
        next =>
          refine ⟨rfl, fun p hp => ?_⟩
          rcases mem_append.mp hp with hp | hp
          · exact hlinked.2 p hp
          · cases mem_singleton.mp hp
            exact hnew
        next => exact rfl

end VmState

end WinArmVm
