import WinArmVm.ProcessRuns
import Mathlib.Data.List.Infix
import Mathlib.Data.List.Pairwise

namespace WinArmVm.Process

open List

structure Header (slots : Nat → Oop) (a : Activation) (saved : Int) : Prop where
  method : slots (a.fp + FRAME_METHOD) = .method a.method
  savedFp : slots (a.fp + FRAME_SAVED_FP) = .smi saved
  savedBci : slots (a.fp + FRAME_SAVED_BCI) = .smi a.savedBci
  serial : ∃ w, slots (a.fp + FRAME_SERIAL) = .smi w ∧ Frame.serialBits w = UInt32.ofNat a.id

def link : List Activation → Int
  | [] => ENTRY_FRAME_SENTINEL
  | a :: _ => a.fp

def Parked (a : Activation) (below : List Activation) : Prop :=
  a.savedBci = BCI_RESUME_ENSURE_RET → ∀ b ∈ below.head?, b.top < a.base

def Linked (slots : Nat → Oop) : List Activation → Prop
  | [] => True
  | a :: rest => Header slots a (link rest) ∧ Parked a rest ∧ Linked slots rest

def Marked (closures : List Closure) (v : Oop) : Prop :=
  v = .nil ∨ (∃ c cl, v = .closure c ∧ closures[c]? = some cl ∧ cl.method.argc = 0) ∨ ∃ t, v = .array t

def Closure.WellFormed (cl : Closure) : Prop := cl.method.isBlock ∧ ∃ n, n ≤ cl.method.ntemps ∧
    cl.copied.length = (if cl.method.capturesCtx then 2 else 1) + n

/-- The live frames lie one above the other on the stack, each with its links and a serial of
its own, and a closure's home is the index of its activation for as long as that is live. -/
structure Sound (vm : Vm) : Prop where
  serial : vm.nextFrameSerial = UInt32.ofNat vm.history.pushed
  capacity : vm.stack.sp ≤ DEFAULT_STACK_CAPACITY
  ids : ∀ a ∈ vm.history.live, a.id < vm.history.pushed
  order : vm.history.live.Pairwise fun a b => b.id < a.id ∧ b.top ≤ a.base
  placed : ∀ a ∈ vm.history.live, a.method.argc < a.fp ∧ a.top ≤ vm.stack.sp
  linked : ∀ seg ∈ vm.history.current :: vm.history.outer, Linked vm.stack.slots seg
  markers : ∀ a ∈ vm.history.live, Marked vm.closures (vm.stack.slots (a.fp + FRAME_MARKER))
  active : ∀ a ∈ vm.history.current.head?, vm.stack.fp = a.fp ∧ vm.stack.hasFrame = true
  suspended : List.Forall₂ (fun seg s => ∀ a ∈ List.head? seg, s = FrameActivation.mk a.fp true)
    vm.history.outer vm.suspended
  homes : ∀ (c : Nat) (cl : Closure), vm.closures[c]? = some cl → ∃ id fp, vm.history.creators[c]? = some id ∧
    id < vm.history.pushed ∧ unpackHomeRef cl.home = ⟨0, UInt32.ofNat id, fp⟩ ∧
    ∀ a ∈ vm.history.live, a.id = id → a.fp = fp ∧ a.method.isBlock = false
  closures : ∀ cl ∈ vm.closures, cl.WellFormed
  sized : vm.history.creators.length = vm.closures.length

structure Extends (vm vm' : Vm) : Prop where
  sound : Sound vm'
  live : vm.history.live <:+ vm'.history.live
  fresh : ∀ a ∈ vm'.history.live, a ∈ vm.history.live ∨ vm.history.pushed ≤ a.id
  pushed : vm.history.pushed ≤ vm'.history.pushed
  keeps : ∀ b ∈ vm.history.live, ∀ i < b.base, vm'.stack.slots i = vm.stack.slots i
  markers : ∀ b ∈ vm.history.live, vm.stack.slots (b.fp + FRAME_MARKER) = .nil →
    vm'.stack.slots (b.fp + FRAME_MARKER) = .nil
  closures : vm.closures <+: vm'.closures
  creators : vm.history.creators <+: vm'.history.creators
  arrays : vm.arrays <+: vm'.arrays
  made : ∀ (c : Nat) (cl : Closure), vm'.closures[c]? = some cl →
    (∃ (e : Nat) (old : Closure), vm.closures[e]? = some old ∧ old.home = cl.home ∧
      vm.history.creators[e]? = vm'.history.creators[c]?) ∨
    ∃ a ∈ vm'.history.live, vm'.history.creators[c]? = some a.id

structure Pops (vm vm' : Vm) : Prop where
  sound : Sound vm'
  live : vm'.history.live <:+ vm.history.live
  ended : ∀ a ∈ vm.history.live, a ∈ vm'.history.live ∨ vm'.stack.sp ≤ a.fp
  pushed : vm'.history.pushed = vm.history.pushed
  keeps : ∀ b ∈ vm'.history.live, ∀ i < b.base, vm'.stack.slots i = vm.stack.slots i
  markers : ∀ b ∈ vm'.history.live, vm.stack.slots (b.fp + FRAME_MARKER) = .nil →
    vm'.stack.slots (b.fp + FRAME_MARKER) = .nil
  closures : vm'.closures = vm.closures
  creators : vm'.history.creators = vm.history.creators
  arrays : vm'.arrays = vm.arrays

theorem Activation.base_le_fp (a : Activation) : a.base ≤ a.fp := by
  unfold Activation.base
  omega

theorem Activation.fixed_le_top (a : Activation) : a.fp + 7 ≤ a.top := by
  unfold Activation.top FRAME_TEMPS_BASE
  omega

variable {slots slots' : Nat → Oop}

theorem Header.congr {a : Activation} {saved : Int} (h : Header slots a saved)
    (hs : ∀ i, i = a.fp ∨ i = a.fp + 1 ∨ i = a.fp + 2 ∨ i = a.fp + 5 → slots' i = slots i) :
    Header slots' a saved where
  method := (hs _ (Or.inl rfl)).trans h.method
  savedFp := (hs _ (Or.inr (Or.inl rfl))).trans h.savedFp
  savedBci := (hs _ (Or.inr (Or.inr (Or.inl rfl)))).trans h.savedBci
  serial := by
    obtain ⟨w, hw, hbits⟩ := h.serial
    exact ⟨w, (hs _ (.inr (.inr (.inr rfl)))).trans hw, hbits⟩

theorem Linked.congr {seg : List Activation} (h : Linked slots seg)
    (hs : ∀ a ∈ seg, ∀ i, i = a.fp ∨ i = a.fp + 1 ∨ i = a.fp + 2 ∨ i = a.fp + 5 →
      slots' i = slots i) : Linked slots' seg := by
  induction seg with
  | nil => trivial
  | cons a rest ih =>
    exact ⟨h.1.congr (hs a (by simp)), h.2.1, ih h.2.2 fun b hb => hs b (by simp [hb])⟩

theorem Linked.drop {slots : Nat → Oop} {xs ys : List Activation} (h : Linked slots (xs ++ ys)) : Linked slots ys := by
  induction xs with
  | nil => exact h
  | cons a rest ih => exact ih h.2.2

theorem Marked.mono {closures closures' : List Closure} {v : Oop} (h : Marked closures v)
    (hc : closures <+: closures') : Marked closures' v := by
  obtain rfl | ⟨c, cl, rfl, hcl, hargc⟩ | ⟨t, rfl⟩ := h
  · exact .inl rfl
  · obtain ⟨suffix, rfl⟩ := hc
    refine .inr (.inl ⟨c, cl, rfl, ?_, hargc⟩)
    rw [List.getElem?_append_left (List.getElem?_eq_some_iff.mp hcl).1, hcl]
  · exact .inr (.inr ⟨t, rfl⟩)

namespace Sound

variable {vm : Vm} (h : Sound vm)

include h

theorem base_lt (a : Activation) (ha : a ∈ vm.history.live) : a.base < a.fp := by
  have hargc := (h.placed a ha).1
  unfold Activation.base
  omega

variable {a b : Activation}

theorem top_le_base {rest : List Activation} (hl : vm.history.live = a :: rest) (hb : b ∈ rest) : b.top ≤ a.base := by
  have ho := h.order
  rw [hl] at ho
  exact ((pairwise_cons.mp ho).1 b hb).2

theorem top_le_floor (b : Activation) (hb : b ∈ vm.history.live) : b.top ≤ vm.floor := by
  unfold Vm.floor
  split
  next hl => simp [hl] at hb
  next a rest hl =>
    rw [hl] at hb
    rcases mem_cons.mp hb with rfl | hb
    · exact Nat.le_refl _
    · have hle := h.top_le_base hl hb
      have hbase := a.base_le_fp
      have htop := a.fixed_le_top
      omega

theorem live_inj (ha : a ∈ vm.history.live) (hb : b ∈ vm.history.live) (heq : a.fp = b.fp ∨ a.id = b.id) : a = b := by
  have key : ∀ x y : Activation, y.id < x.id ∧ y.top ≤ x.base → x.fp ≠ y.fp ∧ x.id ≠ y.id := by
    intro x y hxy
    have hbase := x.base_le_fp
    have htop := y.fixed_le_top
    omega
  by_contra hne
  have hsym : Std.Symm fun x y : Activation => x.fp ≠ y.fp ∧ x.id ≠ y.id := ⟨fun x y hxy => ⟨hxy.1.symm, hxy.2.symm⟩⟩
  have hpw := (h.order.imp fun {x y} => key x y).forall ha hb hne
  omega

theorem header_live {a : Activation} (ha : a ∈ vm.history.live) : ∃ saved, Header vm.stack.slots a saved := by
  have key : ∀ seg : List Activation, Linked vm.stack.slots seg → a ∈ seg →
      ∃ saved, Header vm.stack.slots a saved := by
    intro seg hseg hm
    induction seg with
    | nil => cases hm
    | cons b rest ih =>
      rcases mem_cons.mp hm with rfl | hm
      · exact ⟨_, hseg.1⟩
      · exact ih hseg.2.2 hm
  rcases mem_append.mp ha with hm | hm
  · exact key _ (h.linked _ (by simp)) hm
  · obtain ⟨seg, hseg, hm⟩ := mem_flatten.mp hm
    exact key seg (h.linked seg (by simp [hseg])) hm

theorem of_stack {stack : ProcessStack}
    (hlinked : ∀ seg ∈ vm.history.current :: vm.history.outer, Linked stack.slots seg)
    (hmarks : ∀ b ∈ vm.history.live, Marked vm.closures (stack.slots (b.fp + FRAME_MARKER)))
    (hplaced : ∀ b ∈ vm.history.live, b.top ≤ stack.sp)
    (hcap : stack.sp ≤ DEFAULT_STACK_CAPACITY) (hfp : stack.fp = vm.stack.fp)
    (hframe : stack.hasFrame = vm.stack.hasFrame) : Sound { vm with stack := stack } :=
  { h with
    capacity := hcap
    placed := fun a ha => ⟨(h.placed a ha).1, hplaced a ha⟩
    linked := hlinked
    markers := hmarks
    active := fun a ha => by
      obtain ⟨hf, hb⟩ := h.active a ha
      exact ⟨hfp.trans hf, hframe.trans hb⟩ }

end Sound

namespace Extends

variable {vm vm' vm'' : Vm}

theorem refl (h : Sound vm) : Extends vm vm where
  sound := h
  live := List.suffix_refl _
  fresh _ ha := Or.inl ha
  pushed := Nat.le_refl _
  keeps _ _ _ _ := rfl
  markers _ _ hm := hm
  closures := List.prefix_refl _
  creators := List.prefix_refl _
  arrays := List.prefix_refl _
  made c cl hcl := Or.inl ⟨c, cl, hcl, rfl, rfl⟩

theorem trans (h : Extends vm vm') (h' : Extends vm' vm'') : Extends vm vm'' where
  sound := h'.sound
  live := h.live.trans h'.live
  fresh a ha := by
    rcases h'.fresh a ha with hm | hle
    · exact h.fresh a hm
    · exact .inr (h.pushed.trans hle)
  pushed := h.pushed.trans h'.pushed
  keeps b hb i hi := (h'.keeps b (h.live.subset hb) i hi).trans (h.keeps b hb i hi)
  markers b hb hm := h'.markers b (h.live.subset hb) (h.markers b hb hm)
  closures := h.closures.trans h'.closures
  creators := h.creators.trans h'.creators
  arrays := h.arrays.trans h'.arrays
  made c cl hcl := by
    rcases h'.made c cl hcl with ⟨e, old, hold, hhome, hid⟩ | ⟨a, ha, hid⟩
    · rcases h.made e old hold with ⟨e', old', hold', hhome', hid'⟩ | ⟨a, ha, hid'⟩
      · exact .inl ⟨e', old', hold', hhome'.trans hhome, hid'.trans hid⟩
      · exact .inr ⟨a, h'.live.subset ha, hid.symm.trans hid'⟩
    · exact .inr ⟨a, ha, hid⟩

theorem of_stack (h : Sound vm) {stack : ProcessStack}
    (hlinked : ∀ seg ∈ vm.history.current :: vm.history.outer, Linked stack.slots seg)
    (hmarks : ∀ b ∈ vm.history.live, Marked vm.closures (stack.slots (b.fp + FRAME_MARKER)) ∧
      (vm.stack.slots (b.fp + FRAME_MARKER) = .nil → stack.slots (b.fp + FRAME_MARKER) = .nil))
    (hkeeps : ∀ b ∈ vm.history.live, ∀ i < b.base, stack.slots i = vm.stack.slots i)
    (hplaced : ∀ b ∈ vm.history.live, b.top ≤ stack.sp)
    (hcap : stack.sp ≤ DEFAULT_STACK_CAPACITY) (hfp : stack.fp = vm.stack.fp)
    (hframe : stack.hasFrame = vm.stack.hasFrame) : Extends vm { vm with stack := stack } where
  sound := h.of_stack hlinked (fun b hb => (hmarks b hb).1) hplaced hcap hfp hframe
  live := List.suffix_refl _
  fresh _ ha := Or.inl ha
  pushed := Nat.le_refl _
  keeps := hkeeps
  markers b hb := (hmarks b hb).2
  closures := List.prefix_refl _
  creators := List.prefix_refl _
  arrays := List.prefix_refl _
  made c cl hcl := Or.inl ⟨c, cl, hcl, rfl, rfl⟩

end Extends

/-- A slot that may be written while the live frames stay: above the lowest slot of each, and
none of its links. -/
def Loose (vm : Vm) (i : Nat) : Prop := ∀ b ∈ vm.history.live, b.base ≤ i ∧
    (i < b.fp ∨ b.fp + 7 ≤ i ∨ i = b.fp + FRAME_CONTEXT ∨ i = b.fp + FRAME_RECEIVER)

namespace Sound

variable {vm : Vm} (h : Sound vm)

include h

variable {i : Nat}

theorem loose_of_floor (hi : vm.floor ≤ i) : Loose vm i := by
  intro b hb
  have htop := h.top_le_floor b hb
  have hfix := b.fixed_le_top
  have hbase := b.base_le_fp
  omega

theorem loose_of_top {a : Activation} {rest : List Activation} (hl : vm.history.live = a :: rest) (hi : a.base ≤ i)
    (hout : i < a.fp ∨ a.fp + 7 ≤ i ∨ i = a.fp + FRAME_CONTEXT ∨ i = a.fp + FRAME_RECEIVER) :
    Loose vm i := by
  intro b hb
  rw [hl] at hb
  rcases mem_cons.mp hb with rfl | hb
  · exact ⟨hi, hout⟩
  · have htop := h.top_le_base hl hb
    have hfix := b.fixed_le_top
    have hbase := b.base_le_fp
    omega

omit h in
theorem mem_live {seg : List Activation} {a : Activation}
    (hseg : seg ∈ vm.history.current :: vm.history.outer) (ha : a ∈ seg) :
    a ∈ vm.history.live := by
  rcases mem_cons.mp hseg with rfl | hseg
  · exact mem_append_left _ ha
  · exact mem_append_right _ (mem_flatten.mpr ⟨seg, hseg, ha⟩)

theorem set_loose (hi : Loose vm i) (v : Oop) : Extends vm { vm with stack := vm.stack.set i v } := by
  have hother : ∀ j ≠ i, (vm.stack.set i v).slots j = vm.stack.slots j :=
    fun j hj => Function.update_of_ne hj _ _
  apply Extends.of_stack h
  · intro seg hseg
    apply (h.linked seg hseg).congr
    intro a ha j hj
    have hout := (hi a (mem_live hseg ha)).2
    simp only [FRAME_CONTEXT, FRAME_RECEIVER] at hout
    exact hother j (by omega)
  · intro b hb
    have hout := (hi b hb).2
    simp only [FRAME_CONTEXT, FRAME_RECEIVER] at hout
    rw [hother _ (by simp only [FRAME_MARKER]; omega)]
    exact ⟨h.markers b hb, id⟩
  · intro b hb j hj
    exact hother j (by have := (hi b hb).1; omega)
  · exact fun b hb => (h.placed b hb).2
  · exact h.capacity
  · rfl
  · rfl

theorem truncate {sp : Nat} (hfloor : vm.floor ≤ sp) (hsp : sp ≤ vm.stack.sp) :
    Extends vm { vm with stack := vm.stack.truncate sp } :=
  Extends.of_stack h (fun seg hseg => h.linked seg hseg) (fun b hb => ⟨h.markers b hb, id⟩)
    (fun _ _ _ _ => rfl) (fun b hb => (h.top_le_floor b hb).trans hfloor)
    (hsp.trans h.capacity) rfl rfl

theorem floor_le_sp : vm.floor ≤ vm.stack.sp := by
  unfold Vm.floor
  split
  next => exact Nat.zero_le _
  next a rest hl => exact (h.placed a (by simp [hl])).2

theorem push {v : Oop} {stack : ProcessStack} (hp : vm.stack.push v = some stack) :
    Extends vm { vm with stack := stack } := by
  obtain ⟨hlt, rfl⟩ := ProcessStack.push_eq hp
  have hset := h.set_loose (h.loose_of_floor h.floor_le_sp) v
  have hs := hset.sound
  apply hset.trans
  exact Extends.of_stack hs (fun seg hseg => hs.linked seg hseg)
    (fun b hb => ⟨hs.markers b hb, id⟩) (fun _ _ _ _ => rfl)
    (fun b hb => (hs.placed b hb).2.trans (Nat.le_succ _)) hlt rfl rfl

end Sound

theorem serialBits_toNat (s : UInt32) : Frame.serialBits (s.toNat : Int) = s := by
  have hlt := s.toNat_lt
  have hmod : ((s.toNat : Int) % 2 ^ 32).toNat = s.toNat := by omega
  unfold Frame.serialBits
  rw [hmod, UInt32.ofNat_toNat]

namespace Vm

variable {vm vm' : Vm} {m : CompiledMethod} {savedFp : Int} {savedBci : Nat} {receiver : Oop}

def nextActivation (vm : Vm) (m : CompiledMethod) (savedBci : Nat) : Activation :=
  ⟨vm.history.pushed, vm.stack.sp, m, savedBci⟩

theorem layFrame_spec (h : vm.layFrame m savedFp savedBci receiver = some vm') :
    ∃ stack : ProcessStack,
      vm' = { vm with
        stack := stack
        nextFrameSerial := vm.nextFrameSerial + 1
        history := vm.history.opened vm.stack.sp m savedBci } ∧
      stack.sp = vm.stack.sp + 7 + m.ntemps ∧ stack.fp = vm.stack.sp ∧ stack.hasFrame = true ∧
      (∀ i < vm.stack.sp, stack.slots i = vm.stack.slots i) ∧
      (∀ k v, (frameSlots m savedFp savedBci receiver vm.nextFrameSerial)[k]? = some v →
        stack.slots (vm.stack.sp + k) = v) ∧
      (vm.stack.sp ≤ DEFAULT_STACK_CAPACITY → stack.sp ≤ DEFAULT_STACK_CAPACITY) := by
  unfold layFrame allocFrameSerial at h
  simp only at h
  split at h
  next => cases h
  next stack hpush =>
    obtain ⟨hsp, -, -, hout, hin, hcap⟩ := ProcessStack.pushAll_spec hpush
    have hlen : (frameSlots m savedFp savedBci receiver vm.nextFrameSerial).length =
        7 + m.ntemps := by
      simp [frameSlots]
      omega
    refine ⟨stack.activateFrame vm.stack.sp, (Option.some.inj h).symm, ?_, rfl, rfl, ?_, ?_, hcap⟩
    · show stack.sp = _
      omega
    · exact fun i hi => hout i (.inl hi)
    · exact hin

end Vm

namespace Sound

variable {vm vm' : Vm} {m : CompiledMethod} {savedFp : Int} {savedBci : Nat} {receiver : Oop}

theorem layFrame (h : Sound vm) (hroom : vm.floor + m.argc + 1 ≤ vm.stack.sp)
    (hsaved : savedFp = link vm.history.current) (hparked : Parked (vm.nextActivation m savedBci) vm.history.current)
    (hlay : vm.layFrame m savedFp savedBci receiver = some vm') : Extends vm vm' := by
  obtain ⟨stack, rfl, hsp, hfp, hframe, hbelow, hslots, hcap⟩ := Vm.layFrame_spec hlay
  have hheader : Header stack.slots (vm.nextActivation m savedBci) (link vm.history.current) := by
    refine ⟨hslots 0 _ rfl, ?_, hslots 2 _ rfl, ⟨_, hslots 5 _ rfl, ?_⟩⟩
    · rw [← hsaved]
      exact hslots 1 _ rfl
    · rw [serialBits_toNat, h.serial]
      rfl
  have hmarker : stack.slots (vm.stack.sp + FRAME_MARKER) = .nil := hslots 6 _ rfl
  have hold : ∀ b ∈ vm.history.live, ∀ i < b.top, stack.slots i = vm.stack.slots i := by
    intro b hb i hi
    have hle := (h.placed b hb).2
    exact hbelow i (by omega)
  have hlive : (vm.history.opened vm.stack.sp m savedBci).live = vm.nextActivation m savedBci :: vm.history.live := rfl
  have hlinked : ∀ seg ∈ vm.history.current :: vm.history.outer, Linked stack.slots seg := by
    intro seg hseg
    apply (h.linked seg hseg).congr
    intro a ha i hi
    have hfix := a.fixed_le_top
    exact hold a (mem_live hseg ha) i (by omega)
  have hmarks : ∀ b ∈ vm.history.live,
      stack.slots (b.fp + FRAME_MARKER) = vm.stack.slots (b.fp + FRAME_MARKER) := by
    intro b hb
    have hfix := b.fixed_le_top
    exact hold b hb _ (by simp only [FRAME_MARKER]; omega)
  refine
    { sound :=
        { serial := ?_, capacity := hcap h.capacity, ids := ?_, order := ?_, placed := ?_
          linked := ?_, markers := ?_, active := ?_, suspended := h.suspended, homes := ?_
          closures := h.closures, sized := h.sized }
      live := suffix_cons _ _, fresh := ?_, pushed := Nat.le_succ _, keeps := ?_
      markers := fun b hb hm => (hmarks b hb).trans hm
      closures := prefix_refl _, creators := prefix_refl _
      arrays := prefix_refl _, made := fun c cl hcl => .inl ⟨c, cl, hcl, rfl, rfl⟩ }
  · show vm.nextFrameSerial + 1 = UInt32.ofNat (vm.history.pushed + 1)
    rw [h.serial, UInt32.ofNat_add]
    rfl
  · intro a ha
    rcases mem_cons.mp ha with rfl | ha
    · exact Nat.lt_succ_self _
    · exact (h.ids a ha).trans (Nat.lt_succ_self _)
  · rw [hlive]
    refine pairwise_cons.mpr ⟨?_, h.order⟩
    intro b hb
    refine ⟨h.ids b hb, ?_⟩
    have htop := h.top_le_floor b hb
    show b.top ≤ vm.stack.sp - m.argc - 1
    omega
  · intro a ha
    rcases mem_cons.mp ha with rfl | ha
    · refine ⟨?_, ?_⟩
      · show m.argc < vm.stack.sp
        omega
      · show vm.stack.sp + 7 + m.ntemps ≤ stack.sp
        omega
    · have hpl := h.placed a ha
      exact ⟨hpl.1, by show a.top ≤ stack.sp; omega⟩
  · intro seg hseg
    rcases mem_cons.mp hseg with rfl | hseg
    · exact ⟨hheader, hparked, hlinked _ (by simp)⟩
    · exact hlinked seg (mem_cons_of_mem _ hseg)
  · intro a ha
    rcases mem_cons.mp ha with rfl | ha
    · exact .inl hmarker
    · show Marked vm.closures (stack.slots (a.fp + FRAME_MARKER))
      rw [hmarks a ha]
      exact h.markers a ha
  · intro a ha
    cases ha
    exact ⟨hfp, hframe⟩
  · intro c cl hcl
    obtain ⟨id, fp, hid, hlt, hhome, hplace⟩ := h.homes c cl hcl
    refine ⟨id, fp, hid, hlt.trans (Nat.lt_succ_self _), hhome, ?_⟩
    intro a ha heq
    rcases mem_cons.mp ha with rfl | ha
    · simp only at heq
      omega
    · exact hplace a ha heq
  · intro a ha
    rcases mem_cons.mp ha with rfl | ha
    · exact .inr (Nat.le_refl _)
    · exact .inl ha
  · intro b hb i hi
    have hbase := b.base_le_fp
    have hfix := b.fixed_le_top
    exact hold b hb i (by omega)

end Sound

end WinArmVm.Process
