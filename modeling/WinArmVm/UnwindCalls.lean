import WinArmVm.UnwindSteps

namespace WinArmVm.Process

open List Function

namespace Sound

variable {vm vm' : Vm} {m : CompiledMethod}

theorem activateMethod (h : Sound vm) {argc : Nat} (hroom : vm.floor + m.argc + 1 ≤ vm.stack.sp)
    (hne : vm.history.current ≠ []) (hbci : vm.bci ≠ BCI_RESUME_ENSURE_RET)
    (hact : vm.activateMethod m argc = some vm') : Extends vm vm' := by
  unfold Vm.activateMethod Vm.pushFrame at hact
  split at hact
  next => cases hact
  next vm1 hlay =>
    have hx := h.layFrame hroom (h.asI64_current (.inl hne)) (fun heq => absurd heq hbci) hlay
    obtain ⟨stack, rfl, -, hfp, -⟩ := Vm.layFrame_spec hlay
    have hcur : (vm.history.opened vm.stack.sp m vm.bci).current =
        vm.nextActivation m vm.bci :: vm.history.current := rfl
    have hctx := hx.sound.maybeAllocContext m hcur
    cases hact
    rw [show stack.fp = (vm.nextActivation m vm.bci).fp from hfp]
    exact (hx.trans hctx).trans (hctx.sound.same rfl rfl rfl rfl rfl (prefix_refl _))

theorem activateEntry (h : Sound vm) (hroom : vm.floor + m.argc + 1 ≤ vm.stack.sp) (hnil : vm.history.current = [])
    (hact : vm.activateEntry m m.argc = some vm') : Extends vm vm' := by
  unfold Vm.activateEntry Vm.pushFrame at hact
  split at hact
  next => cases hact
  next vm1 hlay =>
    have hlink : ENTRY_FRAME_SENTINEL = link vm.history.current := by rw [hnil]; rfl
    have hx := h.layFrame hroom hlink (fun heq => by cases heq) hlay
    obtain ⟨stack, rfl, -, hfp, -⟩ := Vm.layFrame_spec hlay
    have hcur : (vm.history.opened vm.stack.sp m 0).current = vm.nextActivation m 0 :: vm.history.current := rfl
    have hctx := hx.sound.maybeAllocContext m hcur
    cases hact
    rw [show stack.fp = (vm.nextActivation m 0).fp from hfp]
    exact (hx.trans hctx).trans (hctx.sound.same rfl rfl rfl rfl rfl (prefix_refl _))

theorem setBci (h : Sound vm) (bci : Nat) : Extends vm { vm with bci := bci } :=
  h.same rfl rfl rfl rfl rfl (prefix_refl _)

theorem floor_current {a : Activation} {rest : List Activation}
    (hc : vm.history.current = a :: rest) : vm.floor = a.top := by
  unfold Vm.floor
  simp only [top_of_current hc]

end Sound

/-- What an intercepted return leaves: its marker is gone, its result is parked below the
handler that runs. -/
structure Intercepted (vm vm' : Vm) (a : Activation) (result : Oop) (m : CompiledMethod) : Prop where
  extended : Extends vm vm'
  history : vm'.history = vm.history.opened (vm.stack.sp + 2) m BCI_RESUME_ENSURE_RET
  parked : vm'.stack.slots vm.stack.sp = result
  cleared : vm'.stack.slots (a.fp + FRAME_MARKER) = .nil
  marker : vm'.stack.slots (vm.stack.sp + 2 + FRAME_MARKER) = .nil
  below : ∀ i < vm.stack.sp, i ≠ a.fp + FRAME_MARKER → vm'.stack.slots i = vm.stack.slots i
  closures : vm'.closures = vm.closures
  arrays : vm'.arrays = vm.arrays

namespace Sound

variable {vm vm' : Vm} {a : Activation} {below : List Activation}

section

variable (h : Sound vm) (hc : vm.history.current = a :: below)

include h hc

theorem markerKind_current : ∃ kind, (Frame.mk a.fp).markerKind vm.stack = some kind := by
  obtain ⟨w, hw, -⟩ := (h.header_current hc).serial
  unfold Frame.markerKind Frame.serialWord ProcessStack.get
  rw [hw]
  exact ⟨_, rfl⟩

theorem interceptEnsureReturn {c : Nat}
    {cl : Closure} (hcl : vm.closures[c]? = some cl) (hargc : cl.method.argc = 0) (result : Oop) :
    vm.interceptEnsureReturn ⟨a.fp⟩ c result = none ∧ DEFAULT_STACK_CAPACITY < vm.stack.sp + 9 + cl.method.ntemps ∨
      ∃ vm', vm.interceptEnsureReturn ⟨a.fp⟩ c result = some (vm', .ranHandler c) ∧
        Intercepted vm vm' a result cl.method := by
  have hclear := h.clearMarker hc
  have hpl := (h.placed a (mem_current hc)).2
  have hfix := a.fixed_le_top
  unfold Vm.interceptEnsureReturn
  cases hpush : ((Frame.mk a.fp).clearMarker vm.stack).push result with
  | none =>
    refine .inl ⟨rfl, ?_⟩
    unfold ProcessStack.push at hpush
    split at hpush
    next => cases hpush
    next hfull =>
      have hge : ¬ vm.stack.sp < DEFAULT_STACK_CAPACITY := hfull
      omega
  | some stack =>
    have hp := hclear.sound.push hpush
    obtain ⟨-, rfl⟩ := ProcessStack.push_eq hpush
    have hregs := hp.sound.setBci BCI_RESUME_ENSURE_RET
    have hne : vm.history.current ≠ [] := by simp [hc]
    have hparked : BCI_RESUME_ENSURE_RET = BCI_RESUME_ENSURE_RET →
        ∀ b ∈ vm.history.current.head?, b.top < vm.stack.sp + 1 := by
      intro _ b hb
      rw [hc] at hb
      cases hb
      omega
    rcases hregs.sound.runHandler hcl hargc (.inl hne) hparked with
      ⟨hnone, hfull⟩ | ⟨vm', hsome, hrun⟩
    · refine .inl ⟨hnone, ?_⟩
      have hlt : DEFAULT_STACK_CAPACITY < vm.stack.sp + 1 + 8 + cl.method.ntemps := hfull
      omega
    · refine .inr ⟨vm', hsome, ?_⟩
      have hlow : ∀ i < vm.stack.sp + 1, vm'.stack.slots i =
          (((Frame.mk a.fp).clearMarker vm.stack).set vm.stack.sp result).slots i := hrun.below
      have hcleared : vm'.stack.slots (a.fp + FRAME_MARKER) = .nil := by
        rw [hlow _ (by simp only [FRAME_MARKER]; omega)]
        exact (update_of_ne (by simp only [FRAME_MARKER]; omega) _ _).trans (update_self _ _ _)
      refine ⟨(hclear.trans hp).trans (hregs.trans hrun.extended), hrun.history, ?_, hcleared,
        hrun.marker, ?_, hrun.closures, hrun.arrays⟩
      · rw [hlow _ (Nat.lt_succ_self _)]
        exact update_self ..
      · intro i hi hne'
        rw [hlow i (by omega)]
        exact (update_of_ne (by omega) _ _).trans (update_of_ne hne' _ _)

theorem doReturn (result : Oop) : (vm.stack.slots (a.fp + FRAME_MARKER) = .nil ∧
        vm.doReturn result = some (vm, .popAndDeliver result)) ∨
      ((∃ t, vm.stack.slots (a.fp + FRAME_MARKER) = .array t) ∧ vm.doReturn result = none) ∨
      ∃ c cl, vm.stack.slots (a.fp + FRAME_MARKER) = .closure c ∧ vm.closures[c]? = some cl ∧ cl.method.argc = 0 ∧
        ((Frame.mk a.fp).markerKind vm.stack = some .ifCurtailed ∧
            vm.doReturn result = some ({ vm with stack := (Frame.mk a.fp).clearMarker vm.stack },
              .popAndDeliver result) ∨
          (Frame.mk a.fp).markerKind vm.stack = some .ensure ∧
            vm.doReturn result = vm.interceptEnsureReturn ⟨a.fp⟩ c result) := by
  have hfp := h.fp_current hc
  unfold Vm.doReturn Vm.currentFrame
  simp only [hfp]
  rcases h.markerClass_live (mem_current hc) with ⟨hm, hcls⟩ | ⟨c, cl, hm, hcls, hcl, hargc⟩ |
    ⟨t, hm, hcls⟩
  · simp only [hcls]
    exact .inl ⟨hm, trivial⟩
  · simp only [hcls]
    obtain ⟨kind, hkind⟩ := h.markerKind_current hc
    refine .inr (.inr ⟨c, cl, hm, hcl, hargc, ?_⟩)
    rw [hkind]
    cases kind with
    | ensure => exact .inr ⟨rfl, rfl⟩
    | ifCurtailed => exact .inl ⟨rfl, rfl⟩
  · simp only [hcls]
    exact .inr (.inl ⟨⟨t, hm⟩, trivial⟩)

end

theorem resumeEnsureRet (h : Sound vm) (hroom : vm.floor + 2 ≤ vm.stack.sp) :
    Extends vm { vm with stack := vm.stack.truncate (vm.stack.sp - 2) } ∧
      vm.resumeEnsureRet = some ({ vm with stack := vm.stack.truncate (vm.stack.sp - 2) },
        .doReturn (vm.stack.slots (vm.stack.sp - 2))) :=
  ⟨h.truncate (by omega) (by omega), rfl⟩

end Sound

/-- What a suspended unwind leaves: its token in the marked frame, whose handler runs. -/
structure Suspended (vm vm' : Vm) (a : Activation) (home : HomeRef) (value : Oop) (m : CompiledMethod) : Prop where
  extended : Extends vm vm'
  history : vm'.history = vm.history.opened (vm.stack.sp + 1) m BCI_RESUME_UNWIND
  token : vm'.stack.slots (a.fp + FRAME_MARKER) = .array vm.arrays.length
  arrays : vm'.arrays = vm.arrays ++ [[.smi (packHomeRef home), value]]
  marker : vm'.stack.slots (vm.stack.sp + 1 + FRAME_MARKER) = .nil
  below : ∀ i < vm.stack.sp, i ≠ a.fp + 5 → i ≠ a.fp + 6 → vm'.stack.slots i = vm.stack.slots i
  closures : vm'.closures = vm.closures

namespace Sound

variable {vm vm' : Vm} {a : Activation} {below : List Activation}

theorem allocUnwindToken (h : Sound vm) (home : HomeRef) (value : Oop) :
    vm.allocUnwindToken home value = none ∧ DEFAULT_STACK_CAPACITY ≤ vm.stack.sp ∨
      ∃ vm', vm.allocUnwindToken home value = some (vm.arrays.length, vm') ∧ Extends vm vm' ∧
        vm'.history = vm.history ∧ vm'.closures = vm.closures ∧ vm'.stack.sp = vm.stack.sp ∧
        vm'.arrays = vm.arrays ++ [[.smi (packHomeRef home), value]] ∧
        ∀ i < vm.stack.sp, vm'.stack.slots i = vm.stack.slots i := by
  unfold Vm.allocUnwindToken
  cases hpush : vm.stack.push value with
  | none =>
    refine .inl ⟨rfl, ?_⟩
    unfold ProcessStack.push at hpush
    split at hpush
    next => cases hpush
    next hfull => omega
  | some stack =>
    have hp := h.push hpush
    obtain ⟨-, rfl⟩ := ProcessStack.push_eq hpush
    have htop : ({ vm.stack.set vm.stack.sp value with sp := vm.stack.sp + 1 } :
        ProcessStack).pop.1 = value := update_self ..
    have hpop := hp.sound.truncate h.floor_le_sp (Nat.le_succ _)
    refine .inr ⟨_, rfl, ?_, rfl, rfl, rfl, ?_, ?_⟩
    · exact (hp.trans hpop).trans (hpop.sound.same rfl rfl rfl rfl rfl (prefix_append _ _))
    · simp only [htop]
    · intro i hi
      exact update_of_ne (by omega) _ _

theorem suspendUnwind (h : Sound vm) (hc : vm.history.current = a :: below) {c : Nat}
    {cl : Closure} (hm : vm.stack.slots (a.fp + FRAME_MARKER) = .closure c)
    (hcl : vm.closures[c]? = some cl) (hargc : cl.method.argc = 0) (home : HomeRef) (value : Oop) :
    vm.suspendUnwind a.fp c home value = none ∧ DEFAULT_STACK_CAPACITY < vm.stack.sp + 8 + cl.method.ntemps ∨
      ∃ vm', vm.suspendUnwind a.fp c home value = some (vm', .ranHandler c) ∧
        Suspended vm vm' a home value cl.method := by
  have hpl := (h.placed a (mem_current hc)).2
  have hfix := a.fixed_le_top
  unfold Vm.suspendUnwind
  rcases h.allocUnwindToken home value with ⟨hnone, hfull⟩ |
    ⟨vm1, halloc, hx1, hh1, hcl1, hsp1, harr1, hlow1⟩
  · refine .inl ⟨by simp only [hnone], by omega⟩
  · have hc1 : vm1.history.current = a :: below := by rw [hh1, hc]
    have hm1 : vm1.stack.slots (a.fp + FRAME_MARKER) = .closure c := by
      rw [hlow1 _ (by simp only [FRAME_MARKER]; omega), hm]
    obtain ⟨stack, hset, hsp, -, -, htok, -, hother⟩ := hx1.sound.setMarker_some (.array vm.arrays.length) .ensure hc1
    have hx2 := hx1.sound.setMarker hc1 (.inr (.inr ⟨_, rfl⟩)) (by simp [hm1]) hset
    have hx3 := hx2.sound.setBci BCI_RESUME_UNWIND
    have hne : vm1.history.current ≠ [] := by simp [hc1]
    have hcl3 : vm1.closures[c]? = some cl := by rw [hcl1, hcl]
    simp only [halloc, hset]
    rcases hx3.sound.runHandler hcl3 hargc (.inl hne) (fun heq => by cases heq) with
      ⟨hnone, hfull⟩ | ⟨vm', hsome, hrun⟩
    · refine .inl ⟨hnone, ?_⟩
      have hlt : DEFAULT_STACK_CAPACITY < stack.sp + 8 + cl.method.ntemps := hfull
      omega
    · have hspeq : stack.sp = vm.stack.sp := hsp.trans hsp1
      have hlow : ∀ i < vm.stack.sp, vm'.stack.slots i = stack.slots i := by
        intro i hi
        exact hrun.below i (by show i < stack.sp; omega)
      have hhist : vm'.history = vm1.history.opened (stack.sp + 1) cl.method BCI_RESUME_UNWIND := hrun.history
      have hmark : vm'.stack.slots (stack.sp + 1 + FRAME_MARKER) = .nil := hrun.marker
      refine .inr ⟨vm', hsome, (hx1.trans hx2).trans (hx3.trans hrun.extended), ?_, ?_, ?_, ?_,
        ?_, hrun.closures.trans hcl1⟩
      · rw [hhist, hh1, hspeq]
      · rw [hlow _ (by simp only [FRAME_MARKER]; omega), htok]
      · exact hrun.arrays.trans harr1
      · rw [← hspeq]
        exact hmark
      · intro i hi h5 h6
        rw [hlow i hi, hother i h5 h6, hlow1 i hi]

theorem cannotReturn (h : Sound vm) (hne : vm.history.current ≠ []) {closure value : Oop}
    {c : Call} (hres : vm.cannotReturn closure value = some (vm', c)) :
    Extends vm vm' ∧ c = .cannotReturn := by
  unfold Vm.cannotReturn at hres
  split at hres
  next stack m hpush hm =>
    split at hres
    next => cases hres
    next vm1 hact =>
      cases hres
      refine ⟨?_, rfl⟩
      unfold ProcessStack.pushAll at hpush
      split at hpush
      next => cases hpush
      next mid hmid =>
        unfold ProcessStack.pushAll at hpush
        split at hpush
        next => cases hpush
        next last hstack =>
          cases hpush
          have hp1 := h.push hmid
          have hp2 := hp1.sound.push hstack
          have hx := hp2.sound.setBci BCI_RESUME_CANNOT_RETURN
          have hsp : stack.sp = vm.stack.sp + 2 := by
            obtain ⟨-, rfl⟩ := ProcessStack.push_eq hmid
            obtain ⟨-, rfl⟩ := ProcessStack.push_eq hstack
            rfl
          have hfloor := h.floor_le_sp
          have hargc := m.property
          have hroom : vm.floor + m.val.argc + 1 ≤ stack.sp := by omega
          exact ((hp1.trans hp2).trans hx).trans (hx.sound.activateMethod hroom hne (fun heq => by cases heq) hact)
  next => cases hres

end Sound

def Vm.CallOk (vm : Vm) : Call → Prop
  | .doReturn _ | .popAndDeliver _ => vm.history.current ≠ []
  | .resumeEnsureRet => vm.history.current ≠ [] ∧ vm.floor + 2 ≤ vm.stack.sp
  | .resumeUnwind => vm.history.current ≠ [] ∧ vm.floor + 1 ≤ vm.stack.sp
  | .continueUnwind .. => vm.history.current ≠ [] ∨ vm.stack.fp = NO_FRAME
  | .suspendUnwind mfp handler _ _ => ∃ a below cl, vm.history.current = a :: below ∧ a.fp = mfp ∧
      vm.stack.slots (a.fp + FRAME_MARKER) = .closure handler ∧
      vm.closures[handler]? = some cl ∧ cl.method.argc = 0
  | _ => True

/-- A step of a run: frames come or frames go, never both. -/
def Advances (vm vm' : Vm) : Prop := Extends vm vm' ∨ Pops vm vm'

theorem Advances.sound {vm vm' : Vm} (h : Advances vm vm') : Sound vm' := by
  rcases h with hx | hp
  · exact hx.sound
  · exact hp.sound

namespace Vm

theorem scanFrames_spec {slots : Nat → Oop} {homeFp : Nat} {seg : List Activation}
    {r : ScanResult} (h : scanFrames slots homeFp seg = some r) :
    ∃ xs b ys, seg = xs ++ b :: ys ∧ (r = .reachedHome ∧ b.fp = homeFp ∨
        (∃ c, r = .marked b.fp c ∧ slots (b.fp + FRAME_MARKER) = .closure c) ∨
        r = .crossedBoundary b.fp ∧ ys = []) := by
  induction seg with
  | nil => cases h
  | cons a rest ih =>
    unfold scanFrames at h
    split at h
    next heq =>
      cases h
      exact ⟨[], a, rest, rfl, .inl ⟨rfl, heq⟩⟩
    next =>
      split at h
      next c hc =>
        cases h
        exact ⟨[], a, _, rfl, .inr (.inl ⟨c, rfl, hc⟩)⟩
      next =>
        cases h
        exact ⟨[], a, [], rfl, .inr (.inr ⟨rfl, rfl⟩)⟩
      next b rest' _ =>
        obtain ⟨xs, x, ys, hseg, hr⟩ := ih h
        exact ⟨a :: xs, x, ys, by rw [hseg]; rfl, hr⟩

/-- The state after a return has left the run whose entry frame is `b`. -/
def crossed (vm : Vm) (b : Activation) : Vm :=
  { vm with
    stack := (vm.stack.truncate b.base).deactivate
    history := { vm.history with current := [] } }

end Vm

namespace Sound

variable {vm vm' : Vm} {a : Activation} {below : List Activation}

theorem park (h : Sound vm) (nlr : Option NlrState) : Extends vm { vm with nlrState := nlr } :=
  h.same rfl rfl rfl rfl rfl (prefix_refl _)

theorem crossed (h : Sound vm) {xs : List Activation} {b : Activation}
    (hc : vm.history.current = xs ++ [b]) : Pops vm (vm.crossed b) := by
  have hlive : vm.history.live = xs ++ b :: vm.history.outer.flatten := by
    simp [History.live, hc]
  have ho := h.order
  rw [hlive] at ho
  obtain ⟨-, htail, hcross⟩ := pairwise_append.mp ho
  have hb : b ∈ vm.history.live := by simp [hlive]
  have hpl := (h.placed b hb).2
  have hcap := h.capacity
  have hbase := b.base_le_fp
  have hfix := b.fixed_le_top
  have hsuffix : [] <:+ vm.history.current := nil_suffix
  unfold Vm.crossed
  apply Pops.of_stack h hsuffix
  · exact fun _ _ _ _ => rfl
  · exact fun x hx => ((pairwise_cons.mp htail).1 x hx).2
  · intro x hx
    refine .inr ?_
    rw [hc] at hx
    show b.base ≤ x.fp
    rcases mem_append.mp hx with hx | hx
    · have hle := (hcross x hx b (by simp)).2
      have hxbase := x.base_le_fp
      omega
    · cases mem_singleton.mp hx
      exact hbase
  · show b.base ≤ DEFAULT_STACK_CAPACITY
    omega
  · intro x hx
    cases hx

theorem continueUnwind (h : Sound vm) {home : HomeRef} {value : Oop} {closure : Option Oop}
    {c : Call} (hok : vm.history.current ≠ [] ∨ vm.stack.fp = NO_FRAME)
    (hres : vm.continueUnwind home value closure = some (vm', c)) :
    Advances vm vm' ∧ vm'.CallOk c := by
  unfold Vm.continueUnwind at hres
  split at hres
  next =>
    cases hres
    exact ⟨.inl (h.park _), trivial⟩
  next hfp =>
    have hne : vm.history.current ≠ [] := hok.resolve_right hfp
    obtain ⟨a, below, hc⟩ := exists_cons_of_ne_nil hne
    split at hres
    next =>
      have hcannot : ∃ closure', vm.cannotReturn closure' value = some (vm', c) := by
        split at hres
        next e => exact ⟨_, hres⟩
        next =>
          unfold Vm.cannotReturnCurrentClosure at hres
          split at hres
          next => cases hres
          next =>
            split at hres
            next e he => exact ⟨_, hres⟩
            next => cases hres
      obtain ⟨closure', hcr⟩ := hcannot
      obtain ⟨hx, rfl⟩ := h.cannotReturn hne hcr
      exact ⟨.inl hx, trivial⟩
    next =>
      have hscan : vm.innermostMarkedFrame vm.stack.fp home.fp =
          Vm.scanFrames vm.stack.slots home.fp (a :: below) := by
        have hc' : vm.history.current = [] ++ a :: below := hc
        unfold Vm.innermostMarkedFrame
        rw [h.fp_current hc]
        exact h.scanMarked hc' (Nat.lt_succ_self _)
      rw [hscan, ← hc] at hres
      split at hres
      next => cases hres
      next hr =>
        obtain ⟨xs, b, ys, hseg, hr'⟩ := Vm.scanFrames_spec hr
        rcases hr' with ⟨-, hb⟩ | ⟨e, he, -⟩ | ⟨he, -⟩
        · rw [← hb, h.popFramesAbove hseg] at hres
          cases hres
          exact ⟨.inr (h.unwoundTo hseg), by simp [Vm.CallOk, Vm.unwoundTo]⟩
        · cases he
        · cases he
      next entryFp hr =>
        obtain ⟨xs, b, ys, hseg, hr'⟩ := Vm.scanFrames_spec hr
        rcases hr' with ⟨he, -⟩ | ⟨e, he, -⟩ | ⟨he, rfl⟩
        · cases he
        · cases he
        · cases he
          have hmethod : (Frame.mk b.fp).method vm.stack = some b.method := by
            unfold Frame.method ProcessStack.get
            rw [(h.header_suffix hseg).method]
            rfl
          rw [hmethod] at hres
          cases hres
          have hp := h.crossed hseg
          exact ⟨.inr { hp with sound := { hp.sound with } }, trivial⟩
      next mfp handler hr =>
        obtain ⟨xs, b, ys, hseg, hr'⟩ := Vm.scanFrames_spec hr
        rcases hr' with ⟨he, -⟩ | ⟨e, he, hm⟩ | ⟨he, -⟩
        · cases he
        · cases he
          rw [h.popFramesAbove hseg] at hres
          cases hres
          have hb : b ∈ vm.history.live := by simp [History.live, hseg]
          rcases h.markerClass_live hb with ⟨hm', -⟩ | ⟨e, cl, hm', -, hcl, hargc⟩ | ⟨t, hm', -⟩
          · rw [hm] at hm'
            cases hm'
          · rw [hm] at hm'
            cases hm'
            exact ⟨.inr (h.unwoundTo hseg), b, ys, cl, rfl, rfl, hm, hcl, hargc⟩
          · rw [hm] at hm'
            cases hm'
        · cases he

theorem resumeUnwind (h : Sound vm) (hc : vm.history.current = a :: below)
    (hroom : vm.floor + 1 ≤ vm.stack.sp) {c : Call} (hres : vm.resumeUnwind = some (vm', c)) :
    Extends vm vm' ∧ ∃ t home value, vm.stack.slots (a.fp + FRAME_MARKER) = .array t ∧
      vm.arrays[t]? = some [.smi home, value] ∧
      vm' = { vm with
        stack := (Frame.mk a.fp).clearMarker (vm.stack.truncate (vm.stack.sp - 1)) } ∧
      c = .continueUnwind (unpackHomeRef home) value none := by
  have hfp := h.fp_current hc
  unfold Vm.resumeUnwind Vm.currentFrame at hres
  simp only [hfp] at hres
  split at hres
  next t ht =>
    split at hres
    next home value harr =>
      cases hres
      have htrunc := h.truncate (by omega) (Nat.sub_le _ 1)
      have hslot : vm.stack.slots (a.fp + FRAME_MARKER) = .array t := by
        rcases h.markerClass_live (mem_current hc) with ⟨-, hcls⟩ | ⟨e, cl, -, hcls, -⟩ |
          ⟨t', hm, hcls⟩
        · rw [hcls] at ht
          cases ht
        · rw [hcls] at ht
          cases ht
        · rw [hcls] at ht
          cases ht
          exact hm
      exact ⟨htrunc.trans (htrunc.sound.clearMarker hc), t, home, value, hslot, harr, rfl, rfl⟩
    next => cases hres
  next => cases hres

end Sound

end WinArmVm.Process
