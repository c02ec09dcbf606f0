import WinArmVm.ProcessInvariant

namespace WinArmVm.Process

open List Function

theorem asI64_of_lt {n : Nat} (h : n < 2 ^ 63) : asI64 n = n := if_pos h

theorem asI64_noFrame : asI64 NO_FRAME = ENTRY_FRAME_SENTINEL := by decide

theorem Sound.same {vm vm' : Vm} (h : Sound vm) (hstack : vm'.stack = vm.stack)
    (hserial : vm'.nextFrameSerial = vm.nextFrameSerial) (hclosures : vm'.closures = vm.closures)
    (hsuspended : vm'.suspended = vm.suspended) (hhistory : vm'.history = vm.history)
    (harrays : vm.arrays <+: vm'.arrays) : Extends vm vm' := by
  obtain ⟨stack, method, bci, serial, closures, arrays, next, nlr, suspended, cr, history⟩ := vm
  obtain ⟨stack', method', bci', serial', closures', arrays', next', nlr', suspended', cr', history'⟩ := vm'
  subst hstack hserial hclosures hsuspended hhistory
  exact { Extends.refl h with sound := { h with }, arrays := harrays }

namespace Sound

variable {vm vm' : Vm} {rest : List Activation} {a : Activation}

theorem live_of_current (h : History) (hc : h.current = a :: rest) : h.live = a :: (rest ++ h.outer.flatten) := by
  simp [History.live, hc]

section

variable (h : Sound vm)

include h

theorem header_current (hc : vm.history.current = a :: rest) : Header vm.stack.slots a (link rest) := by
  have hl := h.linked _ (mem_cons_self)
  rw [hc] at hl
  exact hl.1

theorem fp_current (hc : vm.history.current = a :: rest) : vm.stack.fp = a.fp := (h.active a (by simp [hc])).1

omit h in
theorem mem_current (hc : vm.history.current = a :: rest) : a ∈ vm.history.live := by
  simp [live_of_current vm.history hc]

theorem fp_lt (ha : a ∈ vm.history.live) : a.fp + 7 ≤ DEFAULT_STACK_CAPACITY := by
  have hpl := (h.placed a ha).2
  have hcap := h.capacity
  have hfix := a.fixed_le_top
  omega

theorem asI64_fp (hf : vm.history.current ≠ [] ∨ vm.stack.fp = NO_FRAME) :
    vm.history.current = [] ∧ vm.stack.fp ≠ NO_FRAME ∨
      asI64 vm.stack.fp = link vm.history.current := by
  cases hc : vm.history.current with
  | nil =>
    rcases hf with hf | hf
    · exact absurd hc hf
    · rw [hf]
      exact .inr asI64_noFrame
  | cons a rest =>
    have hlt := h.fp_lt (mem_current hc)
    rw [h.fp_current hc, asI64_of_lt (by simp only [DEFAULT_STACK_CAPACITY] at hlt; omega)]
    exact .inr rfl

theorem asI64_current (hf : vm.history.current ≠ [] ∨ vm.stack.fp = NO_FRAME) :
    asI64 vm.stack.fp = link vm.history.current := by
  rcases h.asI64_fp hf with ⟨hc, hfp⟩ | heq
  · rcases hf with hf | hf
    · exact absurd hc hf
    · exact absurd hf hfp
  · exact heq

theorem loose_current {i : Nat} (hc : vm.history.current = a :: rest) (hi : a.base ≤ i)
    (hout : i < a.fp ∨ a.fp + 7 ≤ i ∨ i = a.fp + FRAME_CONTEXT ∨ i = a.fp + FRAME_RECEIVER) :
    Loose vm i :=
  h.loose_of_top (live_of_current vm.history hc) hi hout

theorem setContext (v : Oop) (hc : vm.history.current = a :: rest) :
    Extends vm { vm with stack := (Frame.mk a.fp).setContext vm.stack v } := by
  have hbase := a.base_le_fp
  exact h.set_loose (h.loose_current hc (by simp only [FRAME_CONTEXT]; omega) (.inr (.inr (.inl rfl)))) v

theorem maybeAllocContext (m : CompiledMethod) (hc : vm.history.current = a :: rest) :
    Extends vm (vm.maybeAllocContext m a.fp) := by
  unfold Vm.maybeAllocContext
  split
  next =>
    have hctx := h.setContext (.object vm.nextObject) hc
    exact hctx.trans (hctx.sound.same rfl rfl rfl rfl rfl (prefix_refl _))
  next => exact Extends.refl h

section

variable (hc : vm.history.current = a :: rest)

include hc

theorem method_current : (Frame.mk a.fp).method vm.stack = some a.method := by
  unfold Frame.method ProcessStack.get
  rw [(h.header_current hc).method]
  rfl

theorem setTemp {t : Nat} {v : Oop} {stack : ProcessStack} (hs : (Frame.mk a.fp).setTemp vm.stack t v = some stack) :
    Extends vm { vm with stack := stack } := by
  unfold Frame.setTemp Frame.tempIndex at hs
  rw [h.method_current hc] at hs
  cases hs
  have hargc := (h.placed a (mem_current hc)).1
  have hbase := a.base_le_fp
  apply h.set_loose
  simp only [FRAME_TEMPS_BASE]
  split
  next hlt =>
    apply h.loose_current hc
    · unfold Activation.base
      omega
    · omega
  next hle =>
    apply h.loose_current hc
    · omega
    · omega

theorem setTemp_some (t : Nat) (v : Oop) : ∃ stack, (Frame.mk a.fp).setTemp vm.stack t v = some stack := by
  unfold Frame.setTemp Frame.tempIndex
  rw [h.method_current hc]
  exact ⟨_, rfl⟩

end

end

theorem setCaptures {vs : List Oop} {t : Nat}
    (h : Sound vm) (hc : vm.history.current = a :: rest) (hargc : a.method.argc ≤ t)
    (ht : t + vs.length ≤ a.method.argc + a.method.ntemps) :
    ∃ stack, Vm.setCaptures ⟨a.fp⟩ vm.stack t vs = some stack ∧
      Extends vm { vm with stack := stack } ∧ stack.sp = vm.stack.sp ∧
      ∀ i < a.fp + 7, stack.slots i = vm.stack.slots i := by
  induction vs generalizing vm t with
  | nil => exact ⟨_, rfl, Extends.refl h, rfl, fun _ _ => rfl⟩
  | cons v vs ih =>
    simp only [length_cons] at ht
    obtain ⟨mid, hmid⟩ := h.setTemp_some hc t v
    have hx := h.setTemp hc hmid
    obtain ⟨stack, hrest, hext, hsp, hslots⟩ := @ih { vm with stack := mid } (t + 1) hx.sound hc (by omega) (by omega)
    have hmid' := hmid
    unfold Frame.setTemp Frame.tempIndex at hmid'
    rw [h.method_current hc] at hmid'
    simp only [Option.map_some, if_neg (Nat.not_lt.mpr hargc)] at hmid'
    cases Option.some.inj hmid'
    refine ⟨stack, ?_, hx.trans hext, hsp, ?_⟩
    · simp only [Vm.setCaptures, hmid]
      exact hrest
    · intro i hi
      rw [hslots i hi]
      exact update_of_ne (by simp only [FRAME_TEMPS_BASE]; omega) _ _

end Sound

structure Activated (vm vm' : Vm) (m : CompiledMethod) : Prop where
  extended : Extends vm vm'
  history : vm'.history = vm.history.opened vm.stack.sp m vm.bci
  below : ∀ i < vm.stack.sp, vm'.stack.slots i = vm.stack.slots i
  marker : vm'.stack.slots (vm.stack.sp + FRAME_MARKER) = .nil
  closures : vm'.closures = vm.closures
  arrays : vm'.arrays = vm.arrays

namespace Vm

variable {vm vm' : Vm}

theorem layFrame_of_room {m : CompiledMethod} {savedFp : Int} {savedBci : Nat} {receiver : Oop}
    (hroom : vm.stack.sp + 7 + m.ntemps ≤ DEFAULT_STACK_CAPACITY) :
    ∃ vm', vm.layFrame m savedFp savedBci receiver = some vm' := by
  have hlen : vm.stack.sp + (frameSlots m savedFp savedBci receiver vm.nextFrameSerial).length ≤
      DEFAULT_STACK_CAPACITY := by
    simp [frameSlots]
    omega
  obtain ⟨stack, hs⟩ := ProcessStack.pushAll_of_room hlen
  exact ⟨_, by simp only [layFrame, allocFrameSerial, hs]; rfl⟩

theorem maybeAllocContext_slots (m : CompiledMethod) (fp : Nat) {i : Nat} (hi : i ≠ fp + FRAME_CONTEXT) :
    (vm.maybeAllocContext m fp).stack.slots i = vm.stack.slots i := by
  unfold maybeAllocContext
  split
  next => exact update_of_ne hi _ _
  next => rfl

theorem maybeAllocContext_same (m : CompiledMethod) (fp : Nat) : (vm.maybeAllocContext m fp).history = vm.history ∧
      (vm.maybeAllocContext m fp).closures = vm.closures ∧
      (vm.maybeAllocContext m fp).arrays = vm.arrays := by
  unfold maybeAllocContext
  split <;> exact ⟨rfl, rfl, rfl⟩

theorem blockContext_spec (h : Sound vm) {a : Activation} {rest : List Activation}
    (hc : vm.history.current = a :: rest) (blk : CompiledMethod) (enclosing : Oop) :
    ∃ vm', (if blk.hasCtx then vm.maybeAllocContext blk a.fp
        else { vm with stack := (Frame.mk a.fp).setContext vm.stack enclosing }) = vm' ∧
      Extends vm vm' ∧ vm'.history = vm.history ∧ vm'.closures = vm.closures ∧
      vm'.arrays = vm.arrays ∧ ∀ i ≠ a.fp + FRAME_CONTEXT, vm'.stack.slots i = vm.stack.slots i := by
  refine ⟨_, rfl, ?_⟩
  split
  next =>
    obtain ⟨hh, hcl, harr⟩ := @maybeAllocContext_same vm blk a.fp
    exact ⟨h.maybeAllocContext blk hc, hh, hcl, harr, fun i hi => maybeAllocContext_slots _ _ hi⟩
  next =>
    exact ⟨h.setContext enclosing hc, rfl, rfl, rfl, fun i hi => update_of_ne hi _ _⟩

end Vm

namespace Sound

variable {vm vm' : Vm}

theorem activateBlockInterp (h : Sound vm) {c : Nat} {cl : Closure}
    (hcl : vm.closures[c]? = some cl) (hroom : vm.floor + cl.method.argc + 1 ≤ vm.stack.sp)
    (hf : vm.history.current ≠ [] ∨ vm.stack.fp = NO_FRAME)
    (hparked : Parked (vm.nextActivation cl.method vm.bci) vm.history.current) :
    vm.activateBlockInterp c cl.method.argc = none ∧ DEFAULT_STACK_CAPACITY < vm.stack.sp + 7 + cl.method.ntemps ∨
      ∃ vm', vm.activateBlockInterp c cl.method.argc = some (.activated, vm') ∧
        Activated vm vm' cl.method := by
  have hwf := h.closures cl (mem_of_getElem? hcl)
  obtain ⟨-, n, hn, hlen⟩ := hwf
  unfold Vm.activateBlockInterp
  simp only [hcl, ne_eq, not_true_eq_false, if_false]
  cases hlay : vm.layFrame cl.method (asI64 vm.stack.fp) vm.bci (cl.copied.getD 0 .nil) with
  | none =>
    refine .inl ⟨rfl, ?_⟩
    by_contra hfit
    obtain ⟨vm', hvm'⟩ := @Vm.layFrame_of_room vm cl.method (asI64 vm.stack.fp) vm.bci
      (cl.copied.getD 0 .nil) (by omega)
    rw [hlay] at hvm'
    cases hvm'
  | some vm1 =>
    have hx1 := h.layFrame hroom (h.asI64_current hf) hparked hlay
    obtain ⟨stack, rfl, hsp, hfp, -, hbelow, hslots, -⟩ := Vm.layFrame_spec hlay
    have hcur1 : (vm.history.opened vm.stack.sp cl.method vm.bci).current =
        vm.nextActivation cl.method vm.bci :: vm.history.current := rfl
    obtain ⟨vm2, hvm2, hx2, hh2, hcl2, harr2, hs2⟩ := Vm.blockContext_spec hx1.sound hcur1
      cl.method (if cl.method.capturesCtx then cl.copied.getD 1 .nil else .nil)
    have hcur2 : vm2.history.current = vm.nextActivation cl.method vm.bci :: vm.history.current := by rw [hh2]; rfl
    have hcap : cl.method.argc + (cl.copied.drop (if cl.method.capturesCtx then 2 else 1)).length ≤
        cl.method.argc + cl.method.ntemps := by
      rw [length_drop, hlen]
      omega
    obtain ⟨stack3, hs3, hx3, -, hslots3⟩ := hx2.sound.setCaptures hcur2 (Nat.le_refl _) hcap
    refine .inr ⟨{ vm2 with stack := stack3, method := some cl.method, bci := 0 }, ?_, ?_⟩
    · simp only [Vm.nextActivation] at hvm2 hs3
      dsimp only
      rw [hvm2, hs3]
    · have hall := hx1.trans (hx2.trans hx3)
      have hregs : Extends { vm2 with stack := stack3 }
          { vm2 with stack := stack3, method := some cl.method, bci := 0 } :=
        hall.sound.same rfl rfl rfl rfl rfl (prefix_refl _)
      have hlow : ∀ i < vm.stack.sp + 7, i ≠ vm.stack.sp + FRAME_CONTEXT →
          stack3.slots i = stack.slots i := by
        intro i hi hne
        rw [hslots3 i hi, hs2 i hne]
      refine ⟨hall.trans hregs, hh2, ?_, ?_, hcl2, harr2⟩
      · intro i hi
        rw [← hbelow i hi]
        exact hlow i (by omega) (by simp only [FRAME_CONTEXT]; omega)
      · rw [← hslots 6 .nil rfl]
        exact hlow _ (by simp only [FRAME_MARKER]; omega) (by simp only [FRAME_MARKER, FRAME_CONTEXT]; omega)

end Sound

/-- What a handler's activation leaves: its frame, above the slot that holds its closure. -/
structure HandlerRuns (vm vm' : Vm) (m : CompiledMethod) : Prop where
  extended : Extends vm vm'
  history : vm'.history = vm.history.opened (vm.stack.sp + 1) m vm.bci
  below : ∀ i < vm.stack.sp, vm'.stack.slots i = vm.stack.slots i
  marker : vm'.stack.slots (vm.stack.sp + 1 + FRAME_MARKER) = .nil
  closures : vm'.closures = vm.closures
  arrays : vm'.arrays = vm.arrays

namespace Sound

variable {vm vm' : Vm}

theorem runHandler (h : Sound vm) {c : Nat} {cl : Closure} (hcl : vm.closures[c]? = some cl)
    (hargc : cl.method.argc = 0) (hf : vm.history.current ≠ [] ∨ vm.stack.fp = NO_FRAME)
    (hparked : vm.bci = BCI_RESUME_ENSURE_RET → ∀ b ∈ vm.history.current.head?, b.top < vm.stack.sp) :
    vm.runHandler c = none ∧ DEFAULT_STACK_CAPACITY < vm.stack.sp + 8 + cl.method.ntemps ∨
      ∃ vm', vm.runHandler c = some (vm', .ranHandler c) ∧ HandlerRuns vm vm' cl.method := by
  unfold Vm.runHandler
  cases hpush : vm.stack.push (.closure c) with
  | none =>
    refine .inl ⟨rfl, ?_⟩
    unfold ProcessStack.push at hpush
    split at hpush
    next => cases hpush
    next hfull => omega
  | some stack =>
    have hx := h.push hpush
    obtain ⟨-, rfl⟩ := ProcessStack.push_eq hpush
    have hfloor := h.floor_le_sp
    have hroom : vm.floor + cl.method.argc + 1 ≤ vm.stack.sp + 1 := by omega
    have hpark : Parked (Vm.nextActivation
        { vm with stack := { vm.stack.set vm.stack.sp (.closure c) with sp := vm.stack.sp + 1 } }
        cl.method vm.bci) vm.history.current := by
      intro hb b hm
      have hlt := hparked hb b hm
      show b.top < vm.stack.sp + 1 - cl.method.argc - 1
      omega
    rcases hx.sound.activateBlockInterp hcl hroom hf hpark with ⟨hnone, hfull⟩ | ⟨vm', hsome, hact⟩
    · rw [hargc] at hnone
      refine .inl ⟨by simp only [hnone], ?_⟩
      show DEFAULT_STACK_CAPACITY < vm.stack.sp + 8 + cl.method.ntemps
      have hlt : DEFAULT_STACK_CAPACITY < vm.stack.sp + 1 + 7 + cl.method.ntemps := hfull
      omega
    · rw [hargc] at hsome
      refine .inr ⟨vm', by simp only [hsome], hx.trans hact.extended, hact.history, ?_,
        hact.marker, hact.closures, hact.arrays⟩
      intro i hi
      have hi' : i < vm.stack.sp + 1 := by omega
      exact (hact.below i hi').trans (update_of_ne (by omega) _ _)

theorem marker_write (h : Sound vm) {a : Activation} (ha : a ∈ vm.history.live)
    {slots : Nat → Oop} {n : Int} (hn : slots (a.fp + FRAME_SERIAL) = .smi n)
    (hbits : Frame.serialBits n = UInt32.ofNat a.id) (hv : Marked vm.closures (slots (a.fp + FRAME_MARKER)))
    (hother : ∀ i, i ≠ a.fp + 5 → i ≠ a.fp + 6 → slots i = vm.stack.slots i) :
    (∀ seg ∈ vm.history.current :: vm.history.outer, Linked slots seg) ∧
      ∀ b ∈ vm.history.live, Marked vm.closures (slots (b.fp + FRAME_MARKER)) ∧
        (b ≠ a → slots (b.fp + FRAME_MARKER) = vm.stack.slots (b.fp + FRAME_MARKER)) := by
  -- two live frames are the same or apart
  have hapart : ∀ b ∈ vm.history.live, b ≠ a → b.fp + 7 ≤ a.fp ∨ a.fp + 7 ≤ b.fp := by
    intro b hb hne
    have hsym : Std.Symm fun x y : Activation => x.fp + 7 ≤ y.fp ∨ y.fp + 7 ≤ x.fp := ⟨fun x y hxy => hxy.symm⟩
    have hpw : vm.history.live.Pairwise fun x y => x.fp + 7 ≤ y.fp ∨ y.fp + 7 ≤ x.fp :=
      h.order.imp fun {x y} hxy => .inr (y.fixed_le_top.trans (hxy.2.trans x.base_le_fp))
    exact hpw.forall hb ha hne
  have hlink : ∀ seg : List Activation, (∀ b ∈ seg, b ∈ vm.history.live) →
      Linked vm.stack.slots seg → Linked slots seg := by
    intro seg hseg hl
    induction seg with
    | nil => trivial
    | cons b rest ih =>
      refine ⟨?_, hl.2.1, ih (fun x hx => hseg x (by simp [hx])) hl.2.2⟩
      by_cases heq : b = a
      · subst heq
        obtain ⟨hm, hsf, hsb, -⟩ := hl.1
        refine ⟨?_, ?_, ?_, n, hn, hbits⟩
        · exact (hother _ (by simp [FRAME_METHOD]) (by simp [FRAME_METHOD])).trans hm
        · exact (hother _ (by simp [FRAME_SAVED_FP]) (by simp [FRAME_SAVED_FP])).trans hsf
        · exact (hother _ (by simp [FRAME_SAVED_BCI]) (by simp [FRAME_SAVED_BCI])).trans hsb
      · have hout := hapart b (hseg b (by simp)) heq
        apply hl.1.congr
        intro i hi
        exact hother i (by omega) (by omega)
  refine ⟨fun seg hseg => hlink seg (fun b hb => mem_live hseg hb) (h.linked seg hseg), ?_⟩
  intro b hb
  by_cases heq : b = a
  · subst heq
    exact ⟨hv, fun hne => absurd rfl hne⟩
  · have hout := hapart b hb heq
    have hsame : slots (b.fp + FRAME_MARKER) = vm.stack.slots (b.fp + FRAME_MARKER) :=
      hother _ (by simp only [FRAME_MARKER]; omega) (by simp only [FRAME_MARKER]; omega)
    refine ⟨?_, fun _ => hsame⟩
    rw [hsame]
    exact h.markers b hb

theorem top_marker (h : Sound vm) {a : Activation} {rest : List Activation}
    (hl : vm.history.live = a :: rest) {stack : ProcessStack} {n : Int}
    (hn : stack.slots (a.fp + FRAME_SERIAL) = .smi n) (hbits : Frame.serialBits n = UInt32.ofNat a.id)
    (hv : Marked vm.closures (stack.slots (a.fp + FRAME_MARKER))) (hnil : vm.stack.slots (a.fp + FRAME_MARKER) = .nil →
      stack.slots (a.fp + FRAME_MARKER) = .nil)
    (hother : ∀ i, i ≠ a.fp + 5 → i ≠ a.fp + 6 → stack.slots i = vm.stack.slots i)
    (hsp : stack.sp = vm.stack.sp) (hfp : stack.fp = vm.stack.fp)
    (hframe : stack.hasFrame = vm.stack.hasFrame) : Extends vm { vm with stack := stack } := by
  have ha : a ∈ vm.history.live := by simp [hl]
  obtain ⟨hlinked, hmarks⟩ := h.marker_write ha hn hbits hv hother
  refine Extends.of_stack h hlinked ?_ ?_ ?_ ?_ hfp hframe
  · intro b hb
    refine ⟨(hmarks b hb).1, ?_⟩
    by_cases heq : b = a
    · subst heq
      exact hnil
    · rw [(hmarks b hb).2 heq]
      exact id
  · intro b hb i hi
    have hbase := b.base_le_fp
    have habase := a.base_le_fp
    have hfix := b.fixed_le_top
    have hle : b.base ≤ a.fp := by
      rw [hl] at hb
      rcases mem_cons.mp hb with rfl | hb
      · exact hbase
      · have htop := h.top_le_base hl hb
        omega
    exact hother i (by omega) (by omega)
  · intro b hb
    rw [hsp]
    exact (h.placed b hb).2
  · rw [hsp]
    exact h.capacity

end Sound

end WinArmVm.Process
