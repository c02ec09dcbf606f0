import WinArmVm.InlineCacheCoherence

namespace WinArmVm.VmState

open Option

variable {vm : VmState}

/-- What every row of the transition table owes its caller: the site's answer,
with at most the cache and this one site written. -/
def Delivers (vm : VmState) (caller : MethodOop) (icIdx : Nat) (k : KlassOop)
    (r : Option (Option MethodOop × VmState)) : Prop :=
  ∃ (cache : LookupCache) (ic : InterpreterIc), cache.Agrees vm.lookupUncached ∧ vm.SiteOk caller icIdx ic ∧
    r = some (vm.answer caller icIdx k, (vm.withCache cache).setIc caller icIdx ic)

/-- Rows 5 and 6 at a site stamped with an older epoch, with a cached method
that is no longer what the cached klass resolves to. -/
def StaleSplit (vm : VmState) (caller : MethodOop) (icIdx : Nat) (k : KlassOop) : Prop :=
  ∃ k0 m0, (vm.ics caller icIdx).shape = .mono k0 m0 ∧ k0 ≠ k ∧
    (vm.ics caller icIdx).epoch ≠ vm.icEpoch ∧ vm.answer caller icIdx k0 ≠ some m0 ∧
    (vm.answer caller icIdx k).isSome

section Site

variable {caller : MethodOop} {icIdx : Nat}

theorem Coherent.setEmpty_ok (h : vm.Coherent) : vm.SiteOk caller icIdx (vm.ics caller icIdx).setEmpty :=
  ⟨rfl, (h.sites caller icIdx).epoch_le, fun _ => trivial, fun _ _ he => by cases he⟩

theorem Coherent.setMega_ok (h : vm.Coherent) : vm.SiteOk caller icIdx (vm.ics caller icIdx).setMega :=
  ⟨rfl, (h.sites caller icIdx).epoch_le, fun _ => trivial, fun _ _ he => by cases he⟩

theorem setMono_ok {k : KlassOop} {m : MethodOop} (hm : vm.answer caller icIdx k = some m) :
    vm.SiteOk caller icIdx ((vm.ics caller icIdx).setMono k m vm.icEpoch) :=
  ⟨rfl, Nat.mod_le _ _, fun _ => hm, fun _ _ he => by cases he⟩

theorem setPoly_ok {pairs : PolyPairs} (hp : pairs.Agrees (vm.answer caller icIdx)) :
    vm.SiteOk caller icIdx ((vm.ics caller icIdx).setPoly pairs vm.icEpoch) :=
  ⟨rfl, Nat.mod_le _ _, fun _ => hp, fun _ _ he => by cases he⟩

theorem Coherent.setMonoCompiled_ok (h : vm.Coherent) {k : KlassOop} {m : MethodOop}
    (hm : vm.answer caller icIdx k = some m)
    (truth : vm.lookupUncached k (vm.image.selector m) = some m) (id : NmethodId) :
    vm.SiteOk caller icIdx ((vm.ics caller icIdx).setMonoCompiled k id vm.icEpoch) := by
  rw [h.answer_named hm] at truth
  refine ⟨rfl, Nat.mod_le _ _, fun _ => truth.trans hm.symm, fun k' id' he => ?_⟩
  cases he
  exact isSome_iff_exists.mpr ⟨m, truth⟩

end Site

variable {caller : MethodOop} {icIdx : Nat} {cache : LookupCache} {k : KlassOop}

theorem Delivers.unchanged (h : vm.Coherent) (hc : cache.Agrees vm.lookupUncached) :
    vm.Delivers caller icIdx k (some (vm.answer caller icIdx k, vm.withCache cache)) := by
  refine ⟨cache, vm.ics caller icIdx, hc, h.sites caller icIdx, ?_⟩
  have hs : (vm.withCache cache).setIc caller icIdx (vm.ics caller icIdx) = vm.withCache cache :=
    setIc_self (vm.withCache cache) caller icIdx
  rw [hs]

theorem Delivers.after_setIc {ic : InterpreterIc} {r : Option (Option MethodOop × VmState)}
    (h : ((vm.withCache cache).setIc caller icIdx ic).Delivers caller icIdx k r)
    (hs : ic.selector = (vm.ics caller icIdx).selector) :
    vm.Delivers caller icIdx k r := by
  obtain ⟨cache', ic', hc, hok, hr⟩ := h
  have hw : SameWorld vm ((vm.withCache cache).setIc caller icIdx ic) :=
    (sameWorld_withCache vm cache).trans (sameWorld_setIc hs)
  refine ⟨cache', ic', hc, hok.congr hw.symm, ?_⟩
  rw [hr, hw.answer, setIc_withCache, setIc_setIc]
  rfl

theorem reverifyArms_spec (h : vm.CacheCoherent) (hno : ¬ vm.NoHolder caller icIdx) (arms : List PolyArm) :
    ∃ (cache : LookupCache) (kept : { kept : List PolyArm // kept.length ≤ arms.length }),
      cache.Agrees vm.lookupUncached ∧
      (∀ arm ∈ kept.1, vm.answer caller icIdx arm.klass = some arm.method) ∧
      vm.reverifyArms caller (vm.ics caller icIdx).selector (vm.image.superSite caller icIdx) arms =
        some (kept, vm.withCache cache) := by
  induction arms generalizing vm with
  | nil => exact ⟨vm.lookupCache, ⟨[], le_rfl⟩, h, by simp, rfl⟩
  | cons arm rest ih =>
    obtain ⟨cache, hc, hr⟩ := resolve_spec h hno arm.klass
    have hcoh : (vm.withCache cache).CacheCoherent := hc
    obtain ⟨cache', kept, hc', hkept, hrest⟩ := ih hcoh hno
    have hrest : (vm.withCache cache).reverifyArms caller (vm.ics caller icIdx).selector
      (vm.image.superSite caller icIdx) rest = some (kept, vm.withCache cache') := hrest
    refine ⟨cache', ?_⟩
    cases ha : vm.answer caller icIdx arm.klass with
    | none =>
      refine ⟨⟨kept.1, Nat.le_succ_of_le kept.2⟩, hc', hkept, ?_⟩
      simp only [reverifyArms, hr, ha, hrest, bind_eq_bind, bind_some]
      rfl
    | some m =>
      refine ⟨⟨{ arm with method := m } :: kept.1, Nat.succ_le_succ kept.2⟩, hc', ?_, ?_⟩
      · intro x hx
        rcases List.mem_cons.mp hx with rfl | hx
        · exact ha
        · exact hkept x hx
      · simp only [reverifyArms, hr, ha, hrest, bind_eq_bind, bind_some]
        rfl

theorem reverifyPoly_spec (h : vm.CacheCoherent) (hno : ¬ vm.NoHolder caller icIdx) (pairs : PolyPairs) :
    ∃ (cache : LookupCache) (kept : PolyPairs), cache.Agrees vm.lookupUncached ∧ kept.Agrees (vm.answer caller icIdx) ∧
      vm.reverifyPoly caller (vm.ics caller icIdx).selector (vm.image.superSite caller icIdx) pairs =
        some (kept, vm.withCache cache) := by
  obtain ⟨cache, kept, hc, hkept, hr⟩ := reverifyArms_spec h hno pairs.arms
  refine ⟨cache, ⟨kept.1, kept.2.trans pairs.arms_le⟩, hc, hkept, ?_⟩
  simp only [reverifyPoly, hr, bind_eq_bind, bind_some]
  rfl

section Rows

variable {caller : MethodOop} {icIdx : Nat} (hno : ¬ vm.NoHolder caller icIdx) (k : KlassOop)

include hno

theorem Coherent.fillEmpty_delivers (h : vm.Coherent) :
    vm.Delivers caller icIdx k (vm.fillEmpty caller icIdx k (vm.image.superSite caller icIdx)) := by
  obtain ⟨cache, hc, hr⟩ := resolve_spec h.cache hno k
  unfold fillEmpty
  dsimp only
  rw [hr]
  cases ha : vm.answer caller icIdx k with
  | none =>
    have hd : vm.Delivers caller icIdx k (some (vm.answer caller icIdx k, vm.withCache cache)) :=
      Delivers.unchanged h hc
    rw [ha] at hd
    exact hd
  | some m => exact ⟨cache, _, hc, setMono_ok ha, by rw [ha]; rfl⟩

theorem Coherent.refreshMono_delivers (h : vm.Coherent) : vm.Delivers caller icIdx k
      (vm.refreshMono caller icIdx k (vm.image.superSite caller icIdx)) := by
  obtain ⟨cache, hc, hr⟩ := resolve_spec h.cache hno k
  unfold refreshMono
  dsimp only
  rw [hr]
  cases ha : vm.answer caller icIdx k with
  | none => exact ⟨cache, _, hc, h.setEmpty_ok, by rw [ha]; rfl⟩
  | some m => exact ⟨cache, _, hc, setMono_ok ha, by rw [ha]; rfl⟩

variable {target : Option MethodOop} {pairs : PolyPairs} {k0 : KlassOop}

theorem demoted_spec (h : vm.CacheCoherent) (hown : ∀ m0, target = some m0 → vm.answer caller icIdx k0 = some m0)
    (hres : target = none → (vm.answer caller icIdx k0).isSome) :
    ∃ (cache : LookupCache) (m0 : MethodOop), cache.Agrees vm.lookupUncached ∧ vm.answer caller icIdx k0 = some m0 ∧
      vm.demoted caller (vm.ics caller icIdx).selector (vm.image.superSite caller icIdx) k0 target =
        some (m0, vm.withCache cache) := by
  cases target with
  | some m0 => exact ⟨vm.lookupCache, m0, h, hown m0 rfl, rfl⟩
  | none =>
    obtain ⟨m0, hm0⟩ := isSome_iff_exists.mp (hres rfl)
    obtain ⟨cache, hc, hr⟩ := resolve_spec h hno k0
    refine ⟨cache, m0, hc, hm0, ?_⟩
    simp only [demoted, hr, hm0, bind_eq_bind, bind_some]
    rfl

theorem Coherent.splitMono_delivers (h : vm.Coherent)
    (hown : (vm.answer caller icIdx k).isSome → ∀ m0, target = some m0 → vm.answer caller icIdx k0 = some m0)
    (hres : (vm.answer caller icIdx k).isSome → target = none → (vm.answer caller icIdx k0).isSome) :
    vm.Delivers caller icIdx k
      (vm.splitMono caller icIdx k (vm.image.superSite caller icIdx) k0 target) := by
  obtain ⟨cache, hc, hr⟩ := resolve_spec h.cache hno k
  unfold splitMono
  dsimp only
  rw [hr]
  cases ha : vm.answer caller icIdx k with
  | none =>
    have hd : vm.Delivers caller icIdx k (some (vm.answer caller icIdx k, vm.withCache cache)) :=
      Delivers.unchanged h hc
    rw [ha] at hd
    exact hd
  | some m =>
    have hsome : (vm.answer caller icIdx k).isSome := by simp [ha]
    have hcoh : (vm.withCache cache).CacheCoherent := hc
    have hno' : ¬ (vm.withCache cache).NoHolder caller icIdx := hno
    obtain ⟨cache', m0, hc', hm0, hd⟩ := demoted_spec hno' hcoh (hown hsome) (hres hsome)
    have hd : (vm.withCache cache).demoted caller (vm.ics caller icIdx).selector
      (vm.image.superSite caller icIdx) k0 target = some (m0, vm.withCache cache') := hd
    refine ⟨cache', _, hc', setPoly_ok (PolyPairs.Agrees.pair hm0 ha), ?_⟩
    simp only [bind_eq_bind, bind_some, hd, ha]
    rfl

theorem Coherent.dispatchPoly_delivers (h : vm.Coherent) (hp : pairs.Agrees (vm.answer caller icIdx)) :
    vm.Delivers caller icIdx k
      (vm.dispatchPoly caller icIdx k (vm.image.superSite caller icIdx) pairs) := by
  unfold dispatchPoly
  cases hh : pairs.hit k with
  | some arm =>
    have hm : vm.answer caller icIdx k = some arm.method := hp.hit hh
    have hok : vm.SiteOk caller icIdx { vm.ics caller icIdx with shape := .poly (pairs.bump k) } :=
      ⟨rfl, (h.sites caller icIdx).epoch_le, fun _ => hp.bump k, fun _ _ he => by cases he⟩
    exact ⟨vm.lookupCache, _, h.cache, hok, by rw [hm]; rfl⟩
  | none =>
    obtain ⟨cache, hc, hr⟩ := resolve_spec h.cache hno k
    dsimp only
    rw [hr]
    cases ha : vm.answer caller icIdx k with
    | none =>
    have hd : vm.Delivers caller icIdx k (some (vm.answer caller icIdx k, vm.withCache cache)) :=
      Delivers.unchanged h hc
    rw [ha] at hd
    exact hd
    | some m =>
      split
      next hlt => exact ⟨cache, _, hc, setPoly_ok (hp.append hlt ha), by rw [ha]; rfl⟩
      next => exact ⟨cache, _, hc, h.setMega_ok, by rw [ha]; rfl⟩

theorem Coherent.transitPoly_delivers (h : vm.Coherent) (hs : (vm.ics caller icIdx).shape = .poly pairs) :
    vm.Delivers caller icIdx k
      (vm.transitPoly caller icIdx k (vm.image.superSite caller icIdx) pairs) := by
  unfold transitPoly
  dsimp only
  split
  next he =>
    have hp := (h.sites caller icIdx).coherent he
    rw [hs] at hp
    exact h.dispatchPoly_delivers hno k hp
  next =>
    -- row 8: the site is written with current arms only before anything is dispatched on it
    obtain ⟨cache, kept, hc, hkept, hr⟩ := reverifyPoly_spec h.cache hno pairs
    rw [hr]
    simp only [bind_eq_bind, bind_some]
    have hcoh := h.withCache hc
    split
    next =>
      have hok : (vm.withCache cache).SiteOk caller icIdx (vm.ics caller icIdx).setEmpty := h.setEmpty_ok.withCache
      have hno' : ¬ ((vm.withCache cache).setIc caller icIdx
          (vm.ics caller icIdx).setEmpty).NoHolder caller icIdx := hno
      have hrow := (hcoh.setIc hok).fillEmpty_delivers hno' k
      exact hrow.after_setIc rfl
    next =>
      have hok : (vm.withCache cache).SiteOk caller icIdx
          ((vm.ics caller icIdx).setPoly kept vm.icEpoch) := (setPoly_ok hkept).withCache
      have hno' : ¬ ((vm.withCache cache).setIc caller icIdx
          ((vm.ics caller icIdx).setPoly kept vm.icEpoch)).NoHolder caller icIdx := hno
      have hw : SameWorld vm ((vm.withCache cache).setIc caller icIdx
          ((vm.ics caller icIdx).setPoly kept vm.icEpoch)) :=
        (sameWorld_withCache vm cache).trans (sameWorld_setIc hok.selector)
      have hans := hw.answer caller icIdx
      have hrow := (hcoh.setIc hok).dispatchPoly_delivers hno' k (hans ▸ hkept)
      exact hrow.after_setIc rfl

theorem Coherent.icTransition_delivers (h : vm.Coherent) (hst : ¬ vm.StaleSplit caller icIdx k) :
    vm.Delivers caller icIdx k
      (vm.icTransition caller icIdx k (vm.image.superSite caller icIdx)) := by
  have hsite := h.sites caller icIdx
  unfold icTransition
  split
  next => exact h.fillEmpty_delivers hno k
  next k0 m0 hs =>
    split
    next he => exact he ▸ h.refreshMono_delivers hno k0
    next hne =>
      apply h.splitMono_delivers hno k
      · intro hsome m hm
        cases hm
        by_contra hbad
        by_cases he : (vm.ics caller icIdx).epoch = vm.icEpoch
        · have hc := hsite.coherent he
          rw [hs] at hc
          exact hbad hc
        · exact hst ⟨k0, m0, hs, hne, he, hbad, hsome⟩
      · intro _ hm
        cases hm
  next k0 id hs =>
    split
    next he => exact he ▸ h.refreshMono_delivers hno k0
    next hne =>
      apply h.splitMono_delivers hno k
      · intro _ m hm
        cases hm
      · intro hsome _
        unfold answer startKlass at hsome ⊢
        split at hsome
        next hsup =>
          rw [if_pos hsup]
          exact hsome
        next hsup =>
          rw [if_neg hsup]
          exact hsite.understood k0 id hs
  next pairs hs => exact h.transitPoly_delivers hno k hs
  next =>
    obtain ⟨cache, hc, hr⟩ := resolve_spec h.cache hno k
    rw [hr]
    exact Delivers.unchanged h hc

end Rows

end WinArmVm.VmState
