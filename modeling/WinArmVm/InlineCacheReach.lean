import WinArmVm.InlineCacheRuns

namespace WinArmVm.VmState

open Option

variable {vm vm' : VmState} {caller : MethodOop} {icIdx : Nat}

theorem NoHolder.answer (h : vm.NoHolder caller icIdx) (k : KlassOop) : vm.answer caller icIdx k = none := by
  unfold VmState.answer startKlass
  rw [if_pos h.1, h.2]
  rfl

theorem NoHolder.reverifyArms (h : vm.NoHolder caller icIdx) {arms : List PolyArm} (hne : arms ≠ []) :
    vm.reverifyArms caller (vm.ics caller icIdx).selector (vm.image.superSite caller icIdx) arms =
      none := by
  cases arms with
  | nil => exact absurd rfl hne
  | cons arm rest =>
    simp only [VmState.reverifyArms, h.resolve]
    rfl

theorem Coherent.no_answer_shape (h : vm.Coherent) (hnone : ∀ k, vm.answer caller icIdx k = none)
    (he : (vm.ics caller icIdx).epoch = vm.icEpoch) :
    (vm.ics caller icIdx).guard = none ∧
      ∀ pairs k, (vm.ics caller icIdx).shape = .poly pairs → pairs.hit k = none := by
  have hsite := h.sites caller icIdx
  have hc := hsite.coherent he
  constructor
  · unfold InterpreterIc.guard
    split
    next k m hs =>
      rw [hs] at hc
      have hc : vm.answer caller icIdx k = some m := hc
      rw [hnone] at hc
      cases hc
    next k id hs =>
      rw [hs] at hc
      have hc : vm.lookupUncached k (vm.ics caller icIdx).selector = vm.answer caller icIdx k := hc
      have hu := hsite.understood k id hs
      rw [hc, hnone] at hu
      cases hu
    next => rfl
  · intro pairs k hs
    rw [hs] at hc
    cases hh : pairs.hit k with
    | none => rfl
    | some arm =>
      have := PolyPairs.Agrees.hit hc hh
      rw [hnone] at this
      cases this

theorem Coherent.noHolder_sendGeneric (h : vm.Coherent)
    (hno : vm.NoHolder caller icIdx) (k : KlassOop) (jit : JitOracle) :
    vm.sendGeneric caller icIdx k (vm.image.superSite caller icIdx) jit = none := by
  have hr := hno.resolve
  have hshape := h.no_answer_shape hno.answer
  have hrow : vm.icTransition caller icIdx k (vm.image.superSite caller icIdx) = none := by
    unfold icTransition
    split
    next => simp only [fillEmpty, hr, bind_eq_bind, bind_none]
    next =>
      split
      next => simp only [refreshMono, hr, bind_eq_bind, bind_none]
      next => simp only [splitMono, hr, bind_eq_bind, bind_none]
    next =>
      split
      next => simp only [refreshMono, hr, bind_eq_bind, bind_none]
      next => simp only [splitMono, hr, bind_eq_bind, bind_none]
    next pairs hs =>
      unfold transitPoly
      dsimp only
      split
      next he =>
        have hmiss := (hshape he).2 pairs k hs
        simp only [dispatchPoly, hmiss, hr, bind_eq_bind, bind_none]
      next =>
        obtain ⟨arms, hle⟩ := pairs
        cases arms with
        | nil =>
          have hno' : (vm.setIc caller icIdx (vm.ics caller icIdx).setEmpty).NoHolder caller icIdx := hno
          have hr' := hno'.resolve k
          have hfill : (vm.setIc caller icIdx (vm.ics caller icIdx).setEmpty).fillEmpty caller icIdx k
              (vm.image.superSite caller icIdx) = none := by
            unfold fillEmpty
            dsimp only
            exact bind_eq_none_iff.mpr fun x hx => by
              have hx : some x = none := hx.symm.trans hr'
              cases hx
          simpa [reverifyPoly, VmState.reverifyArms] using hfill
        | cons arm rest =>
          simp only [reverifyPoly, hno.reverifyArms (List.cons_ne_nil arm rest), bind_eq_bind, bind_none]
    next => exact hr k
  have hslow : vm.sendSlow caller icIdx k (vm.image.superSite caller icIdx) jit = none := by
    simp only [sendSlow, hrow, bind_eq_bind, bind_none]
  unfold sendGeneric
  dsimp only
  split
  next hfast =>
    have := (hshape hfast.2).1
    rw [hfast.1] at this
    cases this
  next => exact hslow

/-- The states any interleaving of installs and sends reaches, with what else
compiles, retires, flushes and collects between them. `ok` says which sends the
run may make; a method is installed under its own selector. -/
inductive InlineCacheReach (ok : VmState → MethodOop → Nat → KlassOop → Prop) : VmState → Prop
  | boot (image : Image) (sites : MethodOop → Nat → SymbolOop × Nat) (jit : Option Nat) :
      InlineCacheReach ok (boot image sites jit)
  | install {vm vm' : VmState} {k : KlassOop} {sel : SymbolOop} {m : MethodOop} :
      InlineCacheReach ok vm → vm.image.selector m = sel →
      vm.installMethod k sel m = some vm' → InlineCacheReach ok vm'
  | send {vm vm' : VmState} {caller : MethodOop} {icIdx : Nat} {k : KlassOop} {jit : JitOracle}
      {o : SendOutcome} : InlineCacheReach ok vm → ok vm caller icIdx k →
      vm.sendGeneric caller icIdx k (vm.image.superSite caller icIdx) jit = some (o, vm') →
      InlineCacheReach ok vm'
  | lookup {vm : VmState} (k : KlassOop) (sel : SymbolOop) :
      InlineCacheReach ok vm → InlineCacheReach ok (vm.lookup k sel).2
  | compile {vm : VmState} {k : KlassOop} {m : MethodOop} (version : Nat)
      (outcome : CompileOutcome) : InlineCacheReach ok vm →
      vm.lookupUncached k (vm.image.selector m) = some m →
      InlineCacheReach ok (vm.compileMethodVersioned k m version outcome).2
  | retire {vm : VmState} (id : NmethodId) : InlineCacheReach ok vm → InlineCacheReach ok (vm.retire id)
  | flush {vm : VmState} (id : NmethodId) : InlineCacheReach ok vm →
      InlineCacheReach ok { vm with codeTable := vm.codeTable.flush id }
  | collect {vm : VmState} : InlineCacheReach ok vm → InlineCacheReach ok vm.gcEpilogue

theorem InlineCacheReach.coherent (h : InlineCacheReach (fun vm caller icIdx k => ¬ vm.StaleSplit caller icIdx k) vm) :
    vm.Coherent := by
  induction h with
  | boot image sites jit => exact boot_coherent image sites jit
  | install _ hname hi ih => exact ih.installMethod_coherent hname hi
  | @send vm vm' caller icIdx k jit o _ hst hs ih =>
    by_cases hno : vm.NoHolder caller icIdx
    · rw [ih.noHolder_sendGeneric hno] at hs
      cases hs
    · obtain ⟨o', vm₁, he, hkeep, _⟩ := ih.sendGeneric_spec hno hst jit
      rw [hs] at he
      cases he
      exact hkeep.coherent
  | lookup k sel _ ih => exact (ih.keeps_lookup k sel).coherent
  | compile version outcome _ truth ih =>
    exact (ih.compileMethodVersioned_spec truth version outcome).1.coherent
  | retire id _ ih => exact (ih.keeps_retire id).coherent
  | flush id _ ih => exact (ih.keeps_flush id).coherent
  | collect _ ih => exact (ih.keeps_withCache LookupCache.new_agrees).coherent

/-- Inline caches are coherent in every run that splits no stale mono site: a
send activates what the uncached lookup finds then, and no site stamped with the
current epoch holds a method cached under an older one. -/
theorem inline_caches_coherent (h : InlineCacheReach (fun vm caller icIdx k => ¬ vm.StaleSplit caller icIdx k) vm) :
    (∀ caller icIdx k jit, ¬ vm.StaleSplit caller icIdx k →
      match vm.sendGeneric caller icIdx k (vm.image.superSite caller icIdx) jit with
      | none => vm.NoHolder caller icIdx
      | some (o, vm') => o.method vm' = vm.answer caller icIdx k) ∧
    ∀ caller icIdx, (vm.ics caller icIdx).epoch = vm.icEpoch →
      vm.ShapeCoherent caller icIdx (vm.ics caller icIdx).shape := by
  have hcoh := h.coherent
  refine ⟨fun caller icIdx k jit hst => ?_, fun caller icIdx => (hcoh.sites caller icIdx).coherent⟩
  by_cases hno : vm.NoHolder caller icIdx
  · rw [hcoh.noHolder_sendGeneric hno]
    exact hno
  · obtain ⟨o, vm', he, _, hm⟩ := hcoh.sendGeneric_spec hno hst jit
    rw [he]
    exact hm

theorem inline_caches_coherent_after_install : ∃ vm o vm',
    InlineCacheReach (fun vm caller icIdx k => ¬ vm.StaleSplit caller icIdx k) vm ∧
    vm.sendGeneric ⟨64⟩ 0 ⟨16⟩ (vm.image.superSite ⟨64⟩ 0) .off = some (o, vm') ∧
    o.method vm' = some ⟨32⟩ := by
  have hboot : InlineCacheReach (fun vm caller icIdx k => ¬ vm.StaleSplit caller icIdx k)
      (boot (.flat fun _ => ⟨24⟩) (fun _ _ => (⟨24⟩, 0)) none) := .boot ..
  obtain ⟨vm, hi, _, hown⟩ := installMethod_spec hboot.coherent.dicts ⟨16⟩ ⟨24⟩ ⟨32⟩
  have hreach := hboot.install rfl hi
  have hics := installMethod_ics hi
  have hsite : vm.image.superSite ⟨64⟩ 0 = false := by
    rw [installMethod_image hi]
    rfl
  have hst : ¬ vm.StaleSplit ⟨64⟩ 0 ⟨16⟩ := by
    intro ⟨k0, m0, hs, _⟩
    rw [hics] at hs
    cases hs
  have ha : vm.answer ⟨64⟩ 0 ⟨16⟩ = some ⟨32⟩ := by
    unfold answer startKlass
    rw [hsite, hics]
    apply Forest.firstOn_of_some
    rw [hown]
    rfl
  have hsend := (inline_caches_coherent hreach).1 ⟨64⟩ 0 ⟨16⟩ .off hst
  split at hsend
  next =>
    rw [hsend.1] at hsite
    cases hsite
  next o vm' he => exact ⟨vm, o, vm', hreach, he, hsend.trans ha⟩

def cachedA : Option VmState := do
  let vm ← (boot (.flat fun _ => ⟨24⟩) (fun _ _ => (⟨24⟩, 0)) none).installMethod ⟨16⟩ ⟨24⟩ ⟨32⟩
  let vm ← vm.installMethod ⟨48⟩ ⟨24⟩ ⟨40⟩
  let (_, vm) ← vm.sendGeneric ⟨64⟩ 0 ⟨16⟩ (vm.image.superSite ⟨64⟩ 0) .off
  pure vm

/-- Cache A, redefine A, send B, send A. -/
def staleSplitRun : Option (VmState × SendOutcome × VmState) := do
  let vm ← cachedA
  let vm ← vm.installMethod ⟨16⟩ ⟨24⟩ ⟨56⟩
  let (_, vm) ← vm.sendGeneric ⟨64⟩ 0 ⟨48⟩ (vm.image.superSite ⟨64⟩ 0) .off
  let (o, vm') ← vm.sendGeneric ⟨64⟩ 0 ⟨16⟩ (vm.image.superSite ⟨64⟩ 0) .off
  pure (vm, o, vm')

theorem cachedA_reach (h : cachedA = some vm) : InlineCacheReach (fun _ _ _ _ => True) vm := by
  unfold cachedA at h
  obtain ⟨vm₁, h₁, h⟩ := bind_eq_some_iff.mp h
  obtain ⟨vm₂, h₂, h⟩ := bind_eq_some_iff.mp h
  obtain ⟨⟨o₃, vm₃⟩, h₃, h⟩ := bind_eq_some_iff.mp h
  cases h
  have r₀ : InlineCacheReach (fun _ _ _ _ => True)
      (boot (.flat fun _ => ⟨24⟩) (fun _ _ => (⟨24⟩, 0)) none) := .boot ..
  have r₁ := r₀.install rfl h₁
  have r₂ := r₁.install (by rw [installMethod_image h₁]; rfl) h₂
  exact r₂.send trivial h₃

theorem stale_split_runs_old_method : ¬ ∀ vm, InlineCacheReach (fun _ _ _ _ => True) vm → ∀ caller icIdx k jit o vm',
      vm.sendGeneric caller icIdx k (vm.image.superSite caller icIdx) jit = some (o, vm') →
      o.method vm' = vm.answer caller icIdx k := by
  intro hclaim
  have hrun : staleSplitRun.map (fun r => (r.2.1.method r.2.2, r.1.answer ⟨64⟩ 0 ⟨16⟩)) =
      some (some ⟨32⟩, some ⟨56⟩) := by decide +kernel
  have hsel : cachedA.map (fun vm => vm.image.selector ⟨56⟩) = some ⟨24⟩ := by decide +kernel
  obtain ⟨⟨vm, o, vm'⟩, hrun, hbad⟩ := map_eq_some_iff.mp hrun
  unfold staleSplitRun at hrun
  obtain ⟨vm₃, h₃, hrun⟩ := bind_eq_some_iff.mp hrun
  obtain ⟨vm₄, h₄, hrun⟩ := bind_eq_some_iff.mp hrun
  obtain ⟨⟨o₅, vm₅⟩, h₅, hrun⟩ := bind_eq_some_iff.mp hrun
  obtain ⟨⟨o₆, vm₆⟩, h₆, hrun⟩ := bind_eq_some_iff.mp hrun
  cases hrun
  rw [h₃] at hsel
  have r₄ := (cachedA_reach h₃).install (some.inj hsel) h₄
  have r₅ := r₄.send trivial h₅
  have heq := hclaim _ r₅ _ _ _ _ _ _ h₆
  obtain ⟨hold, hnew⟩ := Prod.mk.inj hbad
  rw [hold, hnew] at heq
  cases heq

end WinArmVm.VmState
