import WinArmVm.LookupRuns
import WinArmVm.Compile

namespace WinArmVm

open List Option

theorem CallSite.selfKlass_some {s : CallSite} {image : Image} {k k' : KlassOop} {m : MethodOop}
    (h : s.selfKlass image k m = some k') : k = k' ∧ image.isBlock m = false := by
  obtain ⟨hc, h⟩ := ite_none_right_eq_some.mp h
  simp only [Bool.and_eq_true, Bool.not_eq_true'] at hc
  exact ⟨Option.some.inj h, hc.2⟩

namespace VmState

def OnlyCache (vm vm' : VmState) : Prop :=
  ∃ cache : LookupCache, cache.Agrees vm.lookupUncached ∧ vm' = vm.withCache cache

variable {vm vm' : VmState}

theorem OnlyCache.refl (h : vm.CacheCoherent) : OnlyCache vm vm := ⟨vm.lookupCache, h, rfl⟩

section

variable (h : OnlyCache vm vm')

include h

theorem OnlyCache.trans {vm'' : VmState} (h' : OnlyCache vm' vm'') : OnlyCache vm vm'' := by
  obtain ⟨cache, hc, rfl⟩ := h
  obtain ⟨cache', hc', rfl⟩ := h'
  exact ⟨cache', hc', rfl⟩

theorem OnlyCache.cacheCoherent : vm'.CacheCoherent := by
  obtain ⟨cache, hc, rfl⟩ := h
  exact hc

theorem OnlyCache.lookupUncached : vm'.lookupUncached = vm.lookupUncached := by
  obtain ⟨cache, _, rfl⟩ := h
  rfl

theorem OnlyCache.image : vm'.image = vm.image := by
  obtain ⟨cache, _, rfl⟩ := h
  rfl

theorem OnlyCache.codeTable : vm'.codeTable = vm.codeTable := by
  obtain ⟨cache, _, rfl⟩ := h
  rfl

end

theorem lookup_onlyCache (h : vm.CacheCoherent) (k : KlassOop) (sel : SymbolOop) :
    (vm.lookup k sel).1 = vm.lookupUncached k sel ∧ OnlyCache vm (vm.lookup k sel).2 := by
  obtain ⟨cache, hc, hl⟩ := lookup_withCache h k sel
  rw [hl]
  exact ⟨rfl, cache, hc, rfl⟩

def SuperLink (vm : VmState) (s : CallSite) (r : Option (KlassOop × CodeTarget)) : Prop :=
  match s.staticKlass with
  | none => r = none
  | some sk => ∃ m, vm.lookupUncached sk s.selector = some m ∧ r = some (sk, vm.resolveSuperTargetEntry sk s.selector m)

theorem resolveSuperSites_spec (h : vm.CacheCoherent) (sites : List CallSite) :
    OnlyCache vm (vm.resolveSuperSites sites).2 ∧
    ∀ resolved, (vm.resolveSuperSites sites).1 = some resolved →
      ∀ x ∈ resolved, vm.SuperLink x.1 x.2 := by
  induction sites generalizing vm with
  | nil =>
    refine ⟨OnlyCache.refl h, fun resolved he x hx => ?_⟩
    cases he
    cases hx
  | cons s rest ih =>
    unfold resolveSuperSites
    split
    next hs =>
      obtain ⟨hrest, hlink⟩ := ih h
      refine ⟨hrest, fun resolved he x hx => ?_⟩
      obtain ⟨tail, ht, rfl⟩ := map_eq_some_iff.mp he
      rcases mem_cons.mp hx with rfl | hx
      · unfold SuperLink
        rw [hs]
      · exact hlink tail ht x hx
    next sk hs =>
      obtain ⟨hl, hstep⟩ := lookup_onlyCache h sk s.selector
      split
      next vm₁ hnone =>
        rw [hnone] at hstep
        exact ⟨hstep, fun resolved he => by cases he⟩
      next m vm₁ hsome =>
        rw [hsome] at hstep hl
        obtain ⟨hrest, hlink⟩ := ih hstep.cacheCoherent
        refine ⟨hstep.trans hrest, fun resolved he x hx => ?_⟩
        obtain ⟨tail, ht, rfl⟩ := map_eq_some_iff.mp he
        obtain ⟨cache, hc, rfl⟩ := hstep
        rcases mem_cons.mp hx with rfl | hx
        · unfold SuperLink
          rw [hs]
          exact ⟨m, hl.symm, rfl⟩
        · exact hlink tail ht x hx

def F1Link (vm : VmState) (self : NmethodId) (k : KlassOop) (m : MethodOop) (s : CallSite)
    (r : Option (KlassOop × CodeTarget)) : Prop :=
  ∀ k' target, r = some (k', target) → s.staticKlass = none ∧ k' = k ∧ vm.image.isBlock m = false ∧
    ∃ callee, vm.lookupUncached k s.selector = some callee ∧ ((callee = m ∧ target = .verifiedEntry self) ∨
        ∃ id, vm.codeTable.lookup k s.selector = some id ∧ target = .verifiedEntry id)

theorem f1Resolution_spec (h : vm.CacheCoherent) (self : NmethodId) (k : KlassOop) (m : MethodOop) (s : CallSite) :
    OnlyCache vm (vm.f1Resolution self k m s).2 ∧
    vm.F1Link self k m s (vm.f1Resolution self k m s).1 := by
  unfold f1Resolution
  split
  next k' hstat hself =>
    obtain ⟨rfl, hb⟩ := CallSite.selfKlass_some hself
    obtain ⟨hl, hstep⟩ := lookup_onlyCache h k s.selector
    split
    next callee vm₁ hsome =>
      rw [hsome] at hstep hl
      split
      next he =>
        refine ⟨hstep, fun k' target hk => ?_⟩
        cases hk
        exact ⟨hstat, rfl, hb, callee, hl.symm, .inl ⟨he, rfl⟩⟩
      next =>
        refine ⟨hstep, fun k' target hk => ?_⟩
        obtain ⟨id, hid, hk⟩ := map_eq_some_iff.mp hk
        cases hk
        rw [hstep.codeTable] at hid
        exact ⟨hstat, rfl, hb, callee, hl.symm, .inr ⟨id, hid, rfl⟩⟩
    next vm₁ hnone =>
      rw [hnone] at hstep
      exact ⟨hstep, fun k' target hk => by cases hk⟩
  next => exact ⟨OnlyCache.refl h, fun k' target hk => by cases hk⟩

theorem linkSites_spec (h : vm.CacheCoherent) (self : NmethodId) (k : KlassOop) (m : MethodOop)
    (resolved : List (CallSite × Option (KlassOop × CodeTarget))) :
    OnlyCache vm (vm.linkSites self k m resolved).2.2 ∧
    ∀ site ∈ (vm.linkSites self k m resolved).1, ∃ x ∈ resolved, ∃ f1,
      vm.F1Link self k m x.1 f1 ∧ site = bornSite x.1 x.2 f1 := by
  induction resolved generalizing vm with
  | nil => exact ⟨OnlyCache.refl h, fun site hs => by cases hs⟩
  | cons x rest ih =>
    obtain ⟨s, r⟩ := x
    obtain ⟨hstep, hf1⟩ := f1Resolution_spec h self k m s
    obtain ⟨hrest, hsites⟩ := ih hstep.cacheCoherent
    refine ⟨hstep.trans hrest, fun site hs => ?_⟩
    rcases mem_cons.mp hs with rfl | hs
    · exact ⟨(s, r), mem_cons_self, _, hf1, rfl⟩
    · obtain ⟨x, hx, f1, hf, rfl⟩ := hsites site hs
      refine ⟨x, mem_cons_of_mem _ hx, f1, ?_, rfl⟩
      unfold F1Link at hf ⊢
      rw [hstep.lookupUncached, hstep.codeTable, hstep.image] at hf
      exact hf

theorem saturateInvocation_eq (vm : VmState) (m : MethodOop) :
    ∃ inv, vm.saturateInvocation m = { vm with invocations := inv } := by
  unfold saturateInvocation
  split
  next => exact ⟨vm.invocations, rfl⟩
  next => exact ⟨_, rfl⟩

theorem compileMethodVersioned_cases (h : vm.CacheCoherent) (k : KlassOop) (m : MethodOop)
    (version : Nat) (outcome : CompileOutcome) :
    ((vm.compileMethodVersioned k m version outcome).1 = none ∧ ∃ cache dis jit, cache.Agrees vm.lookupUncached ∧
        (vm.compileMethodVersioned k m version outcome).2 =
          { vm with lookupCache := cache, compileDisabled := dis, jitThreshold := jit }) ∨
    ∃ code sites deps cache inv, cache.Agrees vm.lookupUncached ∧ vm.image.valueArgc m = none ∧
      (∀ site ∈ sites, ∃ s r f1, vm.SuperLink s r ∧ vm.F1Link vm.codeTable.freeSlot k m s f1 ∧ site = bornSite s r f1) ∧
      vm.compileMethodVersioned k m version outcome = (some vm.codeTable.freeSlot,
          { vm with
            lookupCache := cache
            invocations := inv
            codeTable := (vm.codeTable.install
              (vm.nmethodFor k m version code sites deps)).2 }) := by
  cases outcome with
  | ineligible => exact .inl ⟨rfl, vm.lookupCache, _, _, h, rfl⟩
  | retryLater => exact .inl ⟨rfl, vm.lookupCache, vm.compileDisabled, vm.jitThreshold, h, rfl⟩
  | emitted code =>
    unfold compileMethodVersioned
    dsimp only
    split
    next => exact .inl ⟨rfl, vm.lookupCache, _, _, h, rfl⟩
    next hprim =>
      obtain ⟨hstep, hlink⟩ := resolveSuperSites_spec h code.callSites
      split
      next vm₁ hr =>
        rw [hr] at hstep
        obtain ⟨cache, hc, rfl⟩ := hstep
        exact .inl ⟨rfl, cache, vm.compileDisabled, vm.jitThreshold, hc, rfl⟩
      next resolved vm₁ hr =>
        rw [hr] at hstep hlink
        obtain ⟨cache, hc, rfl⟩ := hstep
        split
        next => exact .inl ⟨rfl, cache, vm.compileDisabled, _, hc, rfl⟩
        next =>
          refine .inr ?_
          have hcoh : (vm.withCache cache).CacheCoherent := hc
          have hspec := linkSites_spec hcoh vm.codeTable.freeSlot k m resolved
          unfold installCode
          have hfree : (vm.withCache cache).codeTable.freeSlot = vm.codeTable.freeSlot := rfl
          rw [hfree]
          generalize (vm.withCache cache).linkSites vm.codeTable.freeSlot k m resolved = linked at hspec ⊢
          obtain ⟨sites, deps, vm₂⟩ := linked
          obtain ⟨⟨cache', hc', rfl⟩, hborn⟩ := hspec
          obtain ⟨inv, hinv⟩ := saturateInvocation_eq { vm with
            lookupCache := cache'
            codeTable := (vm.codeTable.install (vm.nmethodFor k m version code sites deps)).2 } m
          refine ⟨code, sites, deps, cache', inv, hc', by simpa using hprim, fun site hs => ?_, ?_⟩
          · obtain ⟨x, hx, f1, hf, hsite⟩ := hborn site hs
            exact ⟨x.1, x.2, f1, hlink resolved rfl x hx, hf, hsite⟩
          · exact congrArg (Prod.mk (some vm.codeTable.freeSlot)) hinv

end VmState

end WinArmVm
