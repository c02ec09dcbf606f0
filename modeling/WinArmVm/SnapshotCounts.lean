import WinArmVm.SnapshotParting

namespace WinArmVm

open List Bytecode

def PolyPairs.uncounted (pairs : PolyPairs) : PolyPairs :=
  ⟨pairs.arms.map fun arm => { arm with count := 0 }, by rw [List.length_map]; exact pairs.arms_le⟩

def IcShape.uncounted : IcShape → IcShape
  | .poly pairs => .poly pairs.uncounted
  | shape => shape

def InterpreterIc.uncounted (ic : InterpreterIc) : InterpreterIc := { ic with shape := ic.shape.uncounted }

theorem IcShape.uncounted_tag {ic ic' : InterpreterIc} (h : ic'.uncounted = ic.uncounted) :
    ic'.icState.tag = ic.icState.tag := by
  have hshape : ic'.shape.uncounted = ic.shape.uncounted := congrArg InterpreterIc.shape h
  unfold InterpreterIc.icState
  cases hs : ic.shape <;> cases hs' : ic'.shape <;> rw [hs, hs'] at hshape <;> first | rfl | cases hshape

namespace VmState

def resolvedArms (vm : VmState) (ic : InterpreterIc) (arms : List PolyArm) : List (KlassOop × MethodOop) :=
  arms.filterMap fun arm =>
    (vm.resolveTarget (some arm.method) arm.klass ic.selector (ic.epoch = vm.icEpoch)).map fun m => (arm.klass, m)

variable (vm : VmState) (ic : InterpreterIc)

theorem resolvedArms_klasses (arms : List PolyArm) :
    ((vm.resolvedArms ic arms).map Prod.fst).Sublist (arms.map PolyArm.klass) := by
  unfold resolvedArms
  induction arms with
  | nil => exact List.Sublist.refl _
  | cons arm rest ih =>
    rw [filterMap_cons]
    split
    next => exact ih.cons arm.klass
    next p hp =>
      obtain ⟨m, _, rfl⟩ := Option.map_eq_some_iff.mp hp
      exact ih.cons_cons arm.klass

def klassLe (p q : KlassOop × MethodOop) : Prop := p.1.raw ≤ q.1.raw

instance : DecidableRel klassLe := fun p q => inferInstanceAs (Decidable (p.1.raw ≤ q.1.raw))

instance : Std.Total klassLe := ⟨fun p q => Nat.le_total p.1.raw q.1.raw⟩

instance : IsTrans (KlassOop × MethodOop) klassLe := ⟨fun _ _ _ h h' => Nat.le_trans h h'⟩

theorem klassSort_perm {l l' : List (KlassOop × MethodOop)} (hp : l.Perm l') (hn : (l.map Prod.fst).Nodup) :
    l.insertionSort klassLe = l'.insertionSort klassLe := by
  have hperm : (l.insertionSort klassLe).Perm (l'.insertionSort klassLe) :=
    (perm_insertionSort klassLe l).trans (hp.trans (perm_insertionSort klassLe l').symm)
  refine List.Perm.eq_of_pairwise ?_ (pairwise_insertionSort klassLe l) (pairwise_insertionSort klassLe l') hperm
  intro p q hpl hql hpq hqp
  have hpl := (mem_insertionSort _).mp hpl
  have hql := hp.symm.subset ((mem_insertionSort _).mp hql)
  have hraw : p.1.raw = q.1.raw := Nat.le_antisymm hpq hqp
  refine inj_on_of_nodup_map hn hpl hql ?_
  cases hk : p.1
  cases hk' : q.1
  rw [hk, hk'] at hraw
  exact congrArg KlassOop.mk hraw

theorem readPoly_targets {pairs : PolyPairs}
    (hn : (pairs.arms.map PolyArm.klass).Nodup) : (vm.readPoly ic pairs).targets =
      ((vm.resolvedArms ic pairs.arms).insertionSort klassLe).map Prod.snd := by
  unfold readPoly
  dsimp only [SiteFeedback.targets]
  generalize hc : (pairs.arms.filterMap fun arm =>
    (vm.resolveTarget (some arm.method) arm.klass ic.selector (ic.epoch = vm.icEpoch)).map fun m =>
      (⟨arm.klass, m, some (min arm.count (2 ^ 32 - 1))⟩ : FeedbackCase)) = cases
  have hpairs : cases.map (fun c => (c.klass, c.method)) = vm.resolvedArms ic pairs.arms := by
    rw [← hc, map_filterMap]
    unfold resolvedArms
    congr 1
    funext arm
    rw [Option.map_map]
    rfl
  have hnodup := List.Nodup.sublist (vm.resolvedArms_klasses ic pairs.arms) hn
  have hsort : (cases.insertionSort fun a b => countLe b.count a.count = true).map (fun c => (c.klass, c.method)) |>.Perm
      (vm.resolvedArms ic pairs.arms) := by
    rw [← hpairs]
    exact (perm_insertionSort _ _).map _
  rw [klassSort_perm hsort.symm hnodup,
    ← map_insertionSort (fun a b : FeedbackCase => a.klass.raw ≤ b.klass.raw) klassLe _ _ fun _ _ _ _ => Iff.rfl,
    map_map]
  rfl

theorem resolvedArms_uncounted (pairs : PolyPairs) :
    vm.resolvedArms ic pairs.uncounted.arms = vm.resolvedArms ic pairs.arms := by
  unfold resolvedArms PolyPairs.uncounted
  rw [filterMap_map]
  rfl

structure SameImage (vm vm' : VmState) : Prop where
  image : vm'.image = vm.image
  methods : vm'.methods = vm.methods
  icEpoch : vm'.icEpoch = vm.icEpoch

variable {vm vm' : VmState}

theorem SameImage.resolveTarget (h : SameImage vm vm') (target : Option MethodOop) (klass : KlassOop)
    (selector : SymbolOop) (epochFresh : Bool) :
    vm'.resolveTarget target klass selector epochFresh = vm.resolveTarget target klass selector epochFresh := by
  unfold VmState.resolveTarget VmState.resolveMethodRo VmState.ownMethod
  rw [h.image, h.methods]

theorem SameImage.resolvedArms (h : SameImage vm vm') (ic : InterpreterIc) (arms : List PolyArm) :
    vm'.resolvedArms ic arms = vm.resolvedArms ic arms := by
  unfold VmState.resolvedArms
  rw [h.icEpoch]
  congr 1
  funext arm
  rw [h.resolveTarget]

theorem SameImage.targets (h : SameImage vm vm') {m : MethodOop} {ic : Nat}
    (hd : ∀ pairs, (vm.ics m ic).shape = .poly pairs → (pairs.arms.map PolyArm.klass).Nodup)
    (hd' : ∀ pairs, (vm'.ics m ic).shape = .poly pairs → (pairs.arms.map PolyArm.klass).Nodup)
    (hic : (vm'.ics m ic).uncounted = (vm.ics m ic).uncounted) :
    (vm'.readSendSite m ic).targets = (vm.readSendSite m ic).targets := by
  have hsel : (vm'.ics m ic).selector = (vm.ics m ic).selector := (congrArg InterpreterIc.selector hic :)
  have hepoch : (vm'.ics m ic).epoch = (vm.ics m ic).epoch := (congrArg InterpreterIc.epoch hic :)
  have hshape : (vm'.ics m ic).shape.uncounted = (vm.ics m ic).shape.uncounted := congrArg InterpreterIc.shape hic
  have hother (hs : (vm'.ics m ic).shape = (vm.ics m ic).shape)
      (hp : ∀ pairs, (vm.ics m ic).shape ≠ .poly pairs) : vm'.readSendSite m ic = vm.readSendSite m ic := by
    unfold readSendSite
    dsimp only
    rw [hs, hsel, hepoch, h.icEpoch]
    simp only [h.resolveTarget]
    cases hc : (vm.ics m ic).shape with
    | poly pairs => exact absurd hc (hp pairs)
    | _ => rfl
  cases hs : (vm.ics m ic).shape with
  | poly pairs =>
    rw [hs] at hshape
    cases hs' : (vm'.ics m ic).shape with
    | poly pairs' =>
      rw [hs'] at hshape
      have hpairs : pairs'.uncounted = pairs.uncounted := IcShape.poly.inj hshape
      have hread : vm.readSendSite m ic = vm.readPoly (vm.ics m ic) pairs := by
        unfold readSendSite
        dsimp only
        rw [hs]
      have hread' : vm'.readSendSite m ic = vm'.readPoly (vm'.ics m ic) pairs' := by
        unfold readSendSite
        dsimp only
        rw [hs']
      have harms : vm.resolvedArms (vm'.ics m ic) pairs.arms = vm.resolvedArms (vm.ics m ic) pairs.arms := by
        unfold VmState.resolvedArms
        rw [hsel, hepoch]
      rw [hread, hread', readPoly_targets _ _ (hd pairs hs), readPoly_targets _ _ (hd' pairs' hs'),
        ← resolvedArms_uncounted vm', hpairs, resolvedArms_uncounted, h.resolvedArms, harms]
    | _ =>
      rw [hs'] at hshape
      cases hshape
  | _ =>
    rw [hs] at hshape
    cases hs' : (vm'.ics m ic).shape with
    | poly pairs' =>
      rw [hs'] at hshape
      cases hshape
    | _ =>
      rw [hs'] at hshape
      rw [hother (hs'.trans (hshape.trans hs.symm)) (fun pairs hp => by rw [hs] at hp; cases hp)]

end VmState

end WinArmVm
