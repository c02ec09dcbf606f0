import WinArmVm.InlineCacheReach
import Mathlib.Data.List.Sort

namespace WinArmVm

open Option List

structure FeedbackCase where
  klass : KlassOop
  method : MethodOop
  count : Option Nat
deriving DecidableEq, Repr

/-- The order of counts; none comes first. -/
def countLe : Option Nat → Option Nat → Bool
  | none, _ => true
  | some _, none => false
  | some a, some b => a ≤ b

/-- The observed receivers of a send site. -/
inductive SiteFeedback
  | untaken
  | mono (klass : KlassOop) (method : MethodOop)
  | poly (cases : List FeedbackCase)
  | mega
deriving DecidableEq, Repr

def SiteFeedback.pairs : SiteFeedback → List (KlassOop × MethodOop)
  | .mono klass method => [(klass, method)]
  | .poly cases => cases.map fun c => (c.klass, c.method)
  | _ => []

namespace VmState

def resolveMethodRo (vm : VmState) (klass : KlassOop) (selector : SymbolOop) : Option MethodOop :=
  vm.image.klasses.firstOn (vm.ownMethod selector) klass

/-- The target is `none` where the site holds an nmethod's id. -/
def resolveTarget (vm : VmState) (target : Option MethodOop) (klass : KlassOop) (selector : SymbolOop)
    (epochFresh : Bool) : Option MethodOop :=
  match epochFresh, target with
  | true, some m => some m
  | _, _ => vm.resolveMethodRo klass selector

def readPoly (vm : VmState) (ic : InterpreterIc) (pairs : PolyPairs) : SiteFeedback :=
  let epochFresh : Bool := ic.epoch = vm.icEpoch
  let cases := pairs.arms.filterMap fun arm =>
    (vm.resolveTarget (some arm.method) arm.klass ic.selector epochFresh).map fun m =>
      ⟨arm.klass, m, some (min arm.count (2 ^ 32 - 1))⟩
  .poly (cases.insertionSort fun a b => countLe b.count a.count = true)

/-- `prev` is not consulted. -/
def readSendSite (vm : VmState) (method : MethodOop) (icIndex : Nat) : SiteFeedback :=
  let ic := vm.ics method icIndex
  let epochFresh : Bool := ic.epoch = vm.icEpoch
  let mono (klass : KlassOop) (target : Option MethodOop) : SiteFeedback :=
    match vm.resolveTarget target klass ic.selector epochFresh with
    | some m => .mono klass m
    | none => .untaken
  match ic.shape with
  | .mega => .mega
  | .poly pairs => vm.readPoly ic pairs
  | .mono klass m => mono klass (some m)
  | .monoCompiled klass _ => mono klass none
  | .empty => .untaken

variable {vm : VmState}

theorem resolveTarget_eq {target : Option MethodOop} {klass : KlassOop} {selector : SymbolOop} {epochFresh : Bool}
    {m : MethodOop} (h : vm.resolveTarget target klass selector epochFresh = some m) :
    (epochFresh = true ∧ target = some m) ∨ vm.lookupUncached klass selector = some m := by
  unfold resolveTarget at h
  split at h
  next => exact .inl ⟨rfl, h⟩
  next => exact .inr h

variable {caller : MethodOop} {icIdx : Nat}

theorem answer_plain (hs : vm.image.superSite caller icIdx = false)
    (k : KlassOop) : vm.answer caller icIdx k = vm.lookupUncached k (vm.ics caller icIdx).selector := by
  unfold answer startKlass
  rw [hs]
  rfl

theorem Coherent.splits_current (h : vm.Coherent)
    (hs : vm.image.superSite caller icIdx = false) {p : KlassOop × MethodOop}
    (hp : p ∈ (vm.readSendSite caller icIdx).pairs) :
    vm.lookupUncached p.1 (vm.ics caller icIdx).selector = some p.2 := by
  have hsite := h.sites caller icIdx
  unfold readSendSite at hp
  dsimp only at hp
  cases hshape : (vm.ics caller icIdx).shape with
  | empty =>
    rw [hshape] at hp
    cases hp
  | mega =>
    rw [hshape] at hp
    cases hp
  | mono klass cached =>
    rw [hshape] at hp
    dsimp only at hp
    split at hp
    next m hm =>
      cases mem_singleton.mp hp
      rcases resolveTarget_eq hm with ⟨hfresh, ht⟩ | hl
      · cases some.inj ht
        have hc := hsite.coherent (of_decide_eq_true hfresh)
        rw [hshape] at hc
        exact (answer_plain hs klass).symm.trans hc
      · exact hl
    next => cases hp
  | monoCompiled klass id =>
    rw [hshape] at hp
    dsimp only at hp
    split at hp
    next m hm =>
      cases mem_singleton.mp hp
      rcases resolveTarget_eq hm with ⟨_, ht⟩ | hl
      · cases ht
      · exact hl
    next => cases hp
  | poly pairs =>
    rw [hshape] at hp
    obtain ⟨c, hc, rfl⟩ := mem_map.mp hp
    have hc := (mem_insertionSort _).mp hc
    obtain ⟨arm, harm, hm⟩ := mem_filterMap.mp hc
    obtain ⟨m, hres, rfl⟩ := map_eq_some_iff.mp hm
    rcases resolveTarget_eq hres with ⟨hfresh, ht⟩ | hl
    · rw [← some.inj ht]
      have hagree := hsite.coherent (of_decide_eq_true hfresh)
      rw [hshape] at hagree
      exact (answer_plain hs arm.klass).symm.trans (hagree arm harm)
    · exact hl

/-- Type feedback is current in every run that splits no stale mono site: each pair a send site's
feedback names is what the uncached lookup finds then. -/
theorem feedback_current (h : InlineCacheReach (fun vm caller icIdx k => ¬ vm.StaleSplit caller icIdx k) vm)
    (caller : MethodOop) (icIdx : Nat) (hs : vm.image.superSite caller icIdx = false) :
    ∀ p ∈ (vm.readSendSite caller icIdx).pairs, vm.lookupUncached p.1 (vm.ics caller icIdx).selector = some p.2 :=
  fun _ hp => h.coherent.splits_current hs hp

def warmed : Option VmState := do
  let vm ← (boot (.flat fun _ => ⟨24⟩) (fun _ _ => (⟨24⟩, 0)) none).installMethod ⟨16⟩ ⟨24⟩ ⟨32⟩
  let (_, vm) ← vm.sendGeneric ⟨64⟩ 0 ⟨16⟩ (vm.image.superSite ⟨64⟩ 0) .off
  pure vm

theorem feedback_current_warmed : ∃ vm : VmState, vm.readSendSite ⟨64⟩ 0 = .mono ⟨16⟩ ⟨32⟩ ∧
    ∀ p ∈ (vm.readSendSite ⟨64⟩ 0).pairs,
      vm.lookupUncached p.1 (vm.ics ⟨64⟩ 0).selector = some p.2 := by
  have hrun : warmed.map (fun vm => (vm.image.superSite ⟨64⟩ 0, vm.readSendSite ⟨64⟩ 0)) =
      some (false, .mono ⟨16⟩ ⟨32⟩) := by decide +kernel
  obtain ⟨vm, hrun, he⟩ := map_eq_some_iff.mp hrun
  obtain ⟨hsuper, hmono⟩ := Prod.mk.inj he
  unfold warmed at hrun
  obtain ⟨vm₁, h₁, hrun⟩ := bind_eq_some_iff.mp hrun
  obtain ⟨⟨o₂, vm₂⟩, h₂, hrun⟩ := bind_eq_some_iff.mp hrun
  cases hrun
  have r₀ : InlineCacheReach (fun vm caller icIdx k => ¬ vm.StaleSplit caller icIdx k)
      (boot (.flat fun _ => ⟨24⟩) (fun _ _ => (⟨24⟩, 0)) none) := .boot ..
  have r₁ := r₀.install rfl h₁
  have hst : ¬ vm₁.StaleSplit ⟨64⟩ 0 ⟨16⟩ := by
    intro ⟨k0, m0, hs, _⟩
    rw [installMethod_ics h₁] at hs
    cases hs
  exact ⟨vm, hmono, feedback_current (r₁.send hst h₂) ⟨64⟩ 0 hsuper⟩

/-- Cache A, redefine A, send B. -/
def staleSplit : Option VmState := do
  let vm ← cachedA
  let vm ← vm.installMethod ⟨16⟩ ⟨24⟩ ⟨56⟩
  let (_, vm) ← vm.sendGeneric ⟨64⟩ 0 ⟨48⟩ (vm.image.superSite ⟨64⟩ 0) .off
  pure vm

theorem feedback_stale_split : ¬ ∀ vm, InlineCacheReach (fun _ _ _ _ => True) vm → ∀ caller icIdx,
    vm.image.superSite caller icIdx = false → ∀ p ∈ (vm.readSendSite caller icIdx).pairs,
      vm.lookupUncached p.1 (vm.ics caller icIdx).selector = some p.2 := by
  intro hclaim
  have hrun : staleSplit.map (fun vm => (vm.image.superSite ⟨64⟩ 0,
      (vm.readSendSite ⟨64⟩ 0).pairs.contains (⟨16⟩, ⟨32⟩),
      vm.lookupUncached ⟨16⟩ (vm.ics ⟨64⟩ 0).selector)) = some (false, true, some ⟨56⟩) := by decide +kernel
  have hsel : cachedA.map (fun vm => vm.image.selector ⟨56⟩) = some ⟨24⟩ := by decide +kernel
  obtain ⟨vm, hrun, hbad⟩ := map_eq_some_iff.mp hrun
  unfold staleSplit at hrun
  obtain ⟨vm₃, h₃, hrun⟩ := bind_eq_some_iff.mp hrun
  obtain ⟨vm₄, h₄, hrun⟩ := bind_eq_some_iff.mp hrun
  obtain ⟨⟨o₅, vm₅⟩, h₅, hrun⟩ := bind_eq_some_iff.mp hrun
  cases hrun
  rw [h₃] at hsel
  have r₄ := (cachedA_reach h₃).install (some.inj hsel) h₄
  have r₅ := r₄.send trivial h₅
  obtain ⟨hsuper, hbad⟩ := Prod.mk.inj hbad
  obtain ⟨hmem, hfound⟩ := Prod.mk.inj hbad
  have hcurrent := hclaim _ r₅ ⟨64⟩ 0 hsuper _ (contains_iff_mem.mp hmem)
  rw [hfound] at hcurrent
  cases hcurrent

end VmState

end WinArmVm
