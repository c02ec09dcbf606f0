import WinArmVm.ProcessSteps

namespace WinArmVm.Process

open List Function

theorem serialBits_kind (w : Int) (kind : MarkerKind) : Frame.serialBits (w % 2 ^ 32 + match kind with
      | .ensure => 0
      | .ifCurtailed => 2 ^ 32) = Frame.serialBits w := by
  unfold Frame.serialBits
  cases kind <;> simp only <;> congr 2 <;> omega

namespace Sound

variable {vm vm' : Vm}

theorem top_of_current {a : Activation} {rest : List Activation} (hc : vm.history.current = a :: rest) :
    vm.history.live = a :: (rest ++ vm.history.outer.flatten) := live_of_current _ hc

theorem clearMarker (h : Sound vm) {a : Activation} {rest : List Activation} (hc : vm.history.current = a :: rest) :
    Extends vm { vm with stack := (Frame.mk a.fp).clearMarker vm.stack } := by
  obtain ⟨w, hw, hbits⟩ := (h.header_current hc).serial
  have hserial : ((Frame.mk a.fp).clearMarker vm.stack).slots (a.fp + FRAME_SERIAL) = .smi w :=
    (update_of_ne (by simp [FRAME_SERIAL, FRAME_MARKER]) _ _).trans hw
  have hnil : ((Frame.mk a.fp).clearMarker vm.stack).slots (a.fp + FRAME_MARKER) = .nil := update_self ..
  refine h.top_marker (top_of_current hc) hserial hbits (.inl hnil) (fun _ => hnil) ?_ rfl rfl rfl
  intro i _ hi
  exact update_of_ne hi _ _

theorem setMarker_some (h : Sound vm) {a : Activation} {rest : List Activation} (v : Oop)
    (kind : MarkerKind) (hc : vm.history.current = a :: rest) :
    ∃ stack, (Frame.mk a.fp).setMarker vm.stack v kind = some stack ∧
      stack.sp = vm.stack.sp ∧ stack.fp = vm.stack.fp ∧ stack.hasFrame = vm.stack.hasFrame ∧
      stack.slots (a.fp + FRAME_MARKER) = v ∧
      (∃ n, stack.slots (a.fp + FRAME_SERIAL) = .smi n ∧ Frame.serialBits n = UInt32.ofNat a.id) ∧
      ∀ i, i ≠ a.fp + 5 → i ≠ a.fp + 6 → stack.slots i = vm.stack.slots i := by
  obtain ⟨w, hw, hbits⟩ := (h.header_current hc).serial
  unfold Frame.setMarker Frame.serialWord ProcessStack.get
  rw [hw]
  refine ⟨_, rfl, rfl, rfl, rfl, update_self .., ?_, ?_⟩
  · exact ⟨_, (update_of_ne (by simp [FRAME_SERIAL, FRAME_MARKER]) _ _).trans
      (update_self ..), (serialBits_kind w kind).trans hbits⟩
  · intro i h1 h2
    exact (update_of_ne h2 _ _).trans (update_of_ne h1 _ _)

theorem setMarker (h : Sound vm) {a : Activation} {rest : List Activation} {v : Oop}
    {kind : MarkerKind} {stack : ProcessStack} (hc : vm.history.current = a :: rest)
    (hv : Marked vm.closures v) (hne : vm.stack.slots (a.fp + FRAME_MARKER) ≠ .nil)
    (hs : (Frame.mk a.fp).setMarker vm.stack v kind = some stack) :
    Extends vm { vm with stack := stack } := by
  obtain ⟨stack', hs', hsp, hfp, hframe, hmark, ⟨n, hn, hbits⟩, hother⟩ := h.setMarker_some v kind hc
  cases (hs.symm.trans hs')
  refine h.top_marker (top_of_current hc) hn hbits ?_ (fun hnil => absurd hnil hne) hother hsp hfp hframe
  rw [hmark]
  exact hv

theorem markerClass_live (h : Sound vm) {a : Activation} (ha : a ∈ vm.history.live) :
    vm.stack.slots (a.fp + FRAME_MARKER) = .nil ∧ vm.markerClass ⟨a.fp⟩ = some .none ∨
      (∃ c cl, vm.stack.slots (a.fp + FRAME_MARKER) = .closure c ∧
        vm.markerClass ⟨a.fp⟩ = some (.handler c) ∧ vm.closures[c]? = some cl ∧
        cl.method.argc = 0) ∨
      ∃ t, vm.stack.slots (a.fp + FRAME_MARKER) = .array t ∧
        vm.markerClass ⟨a.fp⟩ = some (.token t) := by
  unfold Vm.markerClass Frame.marker ProcessStack.get
  obtain hm | ⟨c, cl, hm, hcl, hargc⟩ | ⟨t, hm⟩ := h.markers a ha
  · exact .inl ⟨hm, by simp only [hm]⟩
  · exact .inr (.inl ⟨c, cl, hm, by simp only [hm], hcl, hargc⟩)
  · exact .inr (.inr ⟨t, hm, by simp only [hm]⟩)

end Sound

theorem Pops.of_stack {vm : Vm} (h : Sound vm) {cur : List Activation} {stack : ProcessStack}
    (hsuffix : cur <:+ vm.history.current) (hslots : ∀ b ∈ cur ++ vm.history.outer.flatten, ∀ i < b.top,
      stack.slots i = vm.stack.slots i)
    (hplaced : ∀ b ∈ cur ++ vm.history.outer.flatten, b.top ≤ stack.sp)
    (hended : ∀ a ∈ vm.history.current, a ∈ cur ∨ stack.sp ≤ a.fp)
    (hcap : stack.sp ≤ DEFAULT_STACK_CAPACITY)
    (hactive : ∀ a ∈ cur.head?, stack.fp = a.fp ∧ stack.hasFrame = true) :
    Pops vm { vm with stack := stack, history := { vm.history with current := cur } } := by
  obtain ⟨gone, hgone⟩ := hsuffix
  have hlive : cur ++ vm.history.outer.flatten <:+ vm.history.live :=
    ⟨gone, by rw [History.live, ← hgone, append_assoc]⟩
  have hsame : ∀ b ∈ cur ++ vm.history.outer.flatten, ∀ i < b.fp + 7,
      stack.slots i = vm.stack.slots i := by
    intro b hb i hi
    have hfix := b.fixed_le_top
    exact hslots b hb i (by omega)
  have hmarks : ∀ b ∈ cur ++ vm.history.outer.flatten,
      stack.slots (b.fp + FRAME_MARKER) = vm.stack.slots (b.fp + FRAME_MARKER) :=
    fun b hb => hsame b hb _ (by simp [FRAME_MARKER])
  have hseg : ∀ seg : List Activation, (∀ b ∈ seg, b ∈ cur ++ vm.history.outer.flatten) →
      Linked vm.stack.slots seg → Linked stack.slots seg :=
    fun seg hin hl => hl.congr fun a ha i hi => hsame a (hin a ha) i (by omega)
  have hcur : Linked vm.stack.slots cur := by
    have hl := h.linked _ (mem_cons_self)
    rw [← hgone] at hl
    exact hl.drop
  exact
    { sound :=
        { h with
          capacity := hcap
          ids := fun a ha => h.ids a (hlive.subset ha)
          order := h.order.sublist hlive.sublist
          placed := fun a ha => ⟨(h.placed a (hlive.subset ha)).1, hplaced a ha⟩
          linked := by
            intro seg hs
            rcases mem_cons.mp hs with rfl | hs
            · exact hseg _ (fun b hb => mem_append_left _ hb) hcur
            · apply hseg seg _ (h.linked seg (mem_cons_of_mem _ hs))
              intro b hb
              exact mem_append_right _ (mem_flatten.mpr ⟨seg, hs, hb⟩)
          markers := by
            intro a ha
            show Marked vm.closures (stack.slots (a.fp + FRAME_MARKER))
            rw [hmarks a ha]
            exact h.markers a (hlive.subset ha)
          active := hactive
          homes := by
            intro c cl hcl
            obtain ⟨id, fp, hid, hlt, hhome, hplace⟩ := h.homes c cl hcl
            exact ⟨id, fp, hid, hlt, hhome, fun a ha => hplace a (hlive.subset ha)⟩ }
      live := hlive
      ended := by
        intro a ha
        rcases mem_append.mp ha with ha | ha
        · rcases hended a ha with hin | hle
          · exact .inl (mem_append_left _ hin)
          · exact .inr hle
        · exact .inl (mem_append_right _ ha)
      pushed := rfl
      keeps := by
        intro b hb i hi
        have hbase := b.base_le_fp
        exact hsame b hb i (by omega)
      markers := fun b hb hm => (hmarks b hb).trans hm
      closures := rfl
      creators := rfl
      arrays := rfl }

theorem Pops.regs {vm vm' : Vm} (h : Pops vm vm') (m : Option CompiledMethod) (bci : Nat) :
    Pops vm { vm' with method := m, bci := bci } :=
  { h with sound := { h.sound with } }

namespace Vm

def delivered (vm : Vm) (a : Activation) (below : List Activation) (result : Oop) : Vm :=
  { vm with
    stack := match below with
      | [] => ((vm.stack.set a.base result).truncate a.base).deactivate
      | b :: _ => ((vm.stack.set a.base result).truncate (a.base + 1)).activateFrame b.fp
    history := { vm.history with current := below } }

end Vm

namespace Sound

variable {vm vm' : Vm} {a : Activation} {below : List Activation}

section

variable (h : Sound vm) (hc : vm.history.current = a :: below)

include h hc

theorem delivered (result : Oop) : Pops vm (vm.delivered a below result) := by
  have hl := top_of_current hc
  have ha : a ∈ vm.history.live := by simp [hl]
  have hbase := h.base_lt a ha
  have hpl := (h.placed a ha).2
  have hfix := a.fixed_le_top
  have hcap := h.capacity
  have hlow : ∀ b ∈ below ++ vm.history.outer.flatten, b.top ≤ a.base :=
    fun b hb => h.top_le_base hl hb
  have hset : ∀ b ∈ below ++ vm.history.outer.flatten, ∀ i < b.top,
      (vm.stack.set a.base result).slots i = vm.stack.slots i := by
    intro b hb i hi
    have hle := hlow b hb
    exact update_of_ne (by omega) _ _
  have hsuffix : below <:+ vm.history.current := by
    rw [hc]
    exact suffix_cons _ _
  unfold Vm.delivered
  apply Pops.of_stack h hsuffix
  · cases below <;> exact hset
  · intro b hb
    have hle := hlow b hb
    cases below with
    | nil => exact hle
    | cons x xs => exact hle.trans (Nat.le_succ _)
  · intro x hx
    rw [hc] at hx
    rcases mem_cons.mp hx with rfl | hx
    · refine .inr ?_
      cases below with
      | nil => exact hbase.le
      | cons y ys => exact hbase
    · exact .inl hx
  · cases below with
    | nil =>
      show a.base ≤ DEFAULT_STACK_CAPACITY
      omega
    | cons y ys =>
      show a.base + 1 ≤ DEFAULT_STACK_CAPACITY
      omega
  · intro b hb
    cases below with
    | nil => cases hb
    | cons y ys =>
      cases hb
      exact ⟨rfl, rfl⟩

theorem parked_current : Parked a below := by
  have hl := h.linked _ (mem_cons_self)
  rw [hc] at hl
  exact hl.2.1

theorem savedFp_current : (Frame.mk a.fp).savedFp vm.stack = some (link below) := by
  unfold Frame.savedFp ProcessStack.get
  rw [(h.header_current hc).savedFp]
  rfl

theorem savedBci_current : (Frame.mk a.fp).savedBci vm.stack = some a.savedBci := by
  unfold Frame.savedBci ProcessStack.get
  rw [(h.header_current hc).savedBci]
  rfl

theorem popAndDeliver (result : Oop) : vm.popAndDeliver result =
      if below = [] then some (vm.delivered a below result, .entryReturned result)
      else (vm.delivered a below result).resumeAt a.savedBci := by
  unfold Vm.popAndDeliver Vm.currentFrame
  simp only [h.fp_current hc, h.method_current hc, h.savedFp_current hc, h.savedBci_current hc]
  cases below with
  | nil =>
    simp only [link, if_true]
    simp [Vm.delivered, History.closed, hc, Activation.base, ProcessStack.truncate]
  | cons b rest =>
    have hne : ((b.fp : Int) = ENTRY_FRAME_SENTINEL) = False := by
      simp only [ENTRY_FRAME_SENTINEL, eq_iff_iff, iff_false]
      omega
    simp only [link, hne, if_false, reduceCtorEq]
    simp [Vm.delivered, History.closed, hc, Activation.base]

end

end Sound

namespace Vm

variable {vm : Vm}

/-- The frames of a run that a scan toward `homeFp` passes. -/
def scanFrames (slots : Nat → Oop) (homeFp : Nat) : List Activation → Option ScanResult
  | [] => none
  | a :: rest =>
    if a.fp = homeFp then some .reachedHome
    else
      match slots (a.fp + FRAME_MARKER), rest with
      | .closure c, _ => some (.marked a.fp c)
      | _, [] => some (.crossedBoundary a.fp)
      | _, _ :: _ => scanFrames slots homeFp rest

end Vm

namespace Sound

variable {vm : Vm}

theorem fp_lt_of_suffix (h : Sound vm) {xs rest : List Activation} {a b : Activation}
    (hc : vm.history.current = xs ++ a :: b :: rest) : b.fp < a.fp := by
  have hb : a ∈ vm.history.live := by simp [History.live, hc]
  have ho := h.order
  rw [History.live, hc, append_assoc] at ho
  have ho' := (pairwise_append.mp ho).2.1
  have hle := ((pairwise_cons.mp ho').1 b (by simp)).2
  have hbase := h.base_lt a hb
  have hfix := b.fixed_le_top
  omega

theorem header_suffix (h : Sound vm) {xs rest : List Activation} {a : Activation}
    (hc : vm.history.current = xs ++ a :: rest) : Header vm.stack.slots a (link rest) := by
  have hl := h.linked _ (mem_cons_self)
  rw [hc] at hl
  exact hl.drop.1

theorem savedFp_suffix (h : Sound vm) {xs rest : List Activation} {a : Activation}
    (hc : vm.history.current = xs ++ a :: rest) :
    (Frame.mk a.fp).savedFp vm.stack = some (link rest) := by
  unfold Frame.savedFp ProcessStack.get
  rw [(h.header_suffix hc).savedFp]
  rfl

theorem scanMarked (h : Sound vm) {homeFp fuel : Nat} {xs rest : List Activation}
    {a : Activation} (hc : vm.history.current = xs ++ a :: rest) (hfuel : a.fp < fuel) :
    vm.scanMarked homeFp fuel a.fp = Vm.scanFrames vm.stack.slots homeFp (a :: rest) := by
  induction rest generalizing xs a fuel with
  | nil =>
    obtain ⟨fuel, rfl⟩ := Nat.exists_eq_succ_of_ne_zero (Nat.ne_of_gt (Nat.zero_lt_of_lt hfuel))
    have ha : a ∈ vm.history.live := by simp [History.live, hc]
    unfold Vm.scanMarked Vm.scanFrames
    split
    next => rfl
    next =>
      rcases h.markerClass_live ha with ⟨hm, hcls⟩ | ⟨c, cl, hm, hcls, -⟩ | ⟨t, hm, hcls⟩
      · simp only [hm, hcls, h.savedFp_suffix hc, link, if_true]
      · simp only [hm, hcls]
      · simp only [hm, hcls, h.savedFp_suffix hc, link, if_true]
  | cons b rest ih =>
    obtain ⟨fuel, rfl⟩ := Nat.exists_eq_succ_of_ne_zero (Nat.ne_of_gt (Nat.zero_lt_of_lt hfuel))
    have ha : a ∈ vm.history.live := by simp [History.live, hc]
    have hlt := h.fp_lt_of_suffix hc
    have hnext := @ih fuel (xs ++ [a]) b (by simp [hc]) (by omega)
    have hne : ((b.fp : Int) = ENTRY_FRAME_SENTINEL) = False := by
      simp only [ENTRY_FRAME_SENTINEL, eq_iff_iff, iff_false]
      omega
    unfold Vm.scanMarked Vm.scanFrames
    split
    next => rfl
    next =>
      rcases h.markerClass_live ha with ⟨hm, hcls⟩ | ⟨c, cl, hm, hcls, -⟩ | ⟨t, hm, hcls⟩
      · simp only [hm, hcls, h.savedFp_suffix hc, link, hne, if_false, Int.toNat_natCast, hnext]
      · simp only [hm, hcls]
      · simp only [hm, hcls, h.savedFp_suffix hc, link, hne, if_false, Int.toNat_natCast, hnext]

theorem walkTo (h : Sound vm) {fuel : Nat} {xs ys rest : List Activation} {a b : Activation}
    (hc : vm.history.current = xs ++ (a :: ys) ++ rest) (hb : (a :: ys).getLast? = some b)
    (hfuel : a.fp < fuel) : vm.walkTo b.fp fuel a.fp = some () := by
  induction ys generalizing xs a fuel with
  | nil =>
    obtain ⟨fuel, rfl⟩ := Nat.exists_eq_succ_of_ne_zero (Nat.ne_of_gt (Nat.zero_lt_of_lt hfuel))
    cases hb
    simp [Vm.walkTo]
  | cons x ys ih =>
    obtain ⟨fuel, rfl⟩ := Nat.exists_eq_succ_of_ne_zero (Nat.ne_of_gt (Nat.zero_lt_of_lt hfuel))
    have hc' : vm.history.current = xs ++ a :: x :: (ys ++ rest) := by simp [hc]
    have hlt := h.fp_lt_of_suffix hc'
    have hnext := @ih fuel (xs ++ [a]) x (by simp [hc]) (by simpa using hb) (by omega)
    unfold Vm.walkTo
    split
    next => rfl
    next => simp only [h.savedFp_suffix hc', link, Int.toNat_natCast, hnext]

end Sound

namespace Vm

/-- The state with `b` on top and its operands gone. -/
def unwoundTo (vm : Vm) (b : Activation) (below : List Activation) : Vm :=
  { vm with
    stack := (vm.stack.activateFrame b.fp).truncate b.top
    history := { vm.history with current := b :: below } }

end Vm

namespace Sound

variable {vm : Vm} {xs below : List Activation} {b : Activation}

theorem unwoundTo (h : Sound vm) (hc : vm.history.current = xs ++ b :: below) : Pops vm (vm.unwoundTo b below) := by
  have hlive : vm.history.live = xs ++ (b :: (below ++ vm.history.outer.flatten)) := by
    simp [History.live, hc]
  have ho := h.order
  rw [hlive] at ho
  obtain ⟨-, htail, hcross⟩ := pairwise_append.mp ho
  have hb : b ∈ vm.history.live := by simp [hlive]
  have hbase := b.base_le_fp
  have hfix := b.fixed_le_top
  have hpl := (h.placed b hb).2
  have hcap := h.capacity
  unfold Vm.unwoundTo
  apply Pops.of_stack h ⟨xs, hc.symm⟩
  · exact fun _ _ _ _ => rfl
  · intro x hx
    rcases mem_cons.mp hx with rfl | hx
    · exact Nat.le_refl _
    · have hle := ((pairwise_cons.mp htail).1 x hx).2
      show x.top ≤ b.top
      omega
  · intro x hx
    rw [hc] at hx
    rcases mem_append.mp hx with hx | hx
    · have hle := (hcross x hx b (by simp)).2
      have hxbase := x.base_le_fp
      exact .inr (hle.trans hxbase)
    · exact .inl hx
  · show b.top ≤ DEFAULT_STACK_CAPACITY
    omega
  · intro x hx
    cases hx
    exact ⟨rfl, rfl⟩

theorem popFramesAbove (h : Sound vm) (hc : vm.history.current = xs ++ b :: below) :
    vm.popFramesAbove b.fp = some (vm.unwoundTo b below) := by
  have hb : b ∈ vm.history.live := by simp [History.live, hc]
  have hmethod : (Frame.mk b.fp).method vm.stack = some b.method := by
    unfold Frame.method ProcessStack.get
    rw [(h.header_suffix hc).method]
    rfl
  have hwalk : vm.walkTo b.fp (vm.stack.fp + 1) vm.stack.fp = some () := by
    cases xs with
    | nil =>
      have hc' : vm.history.current = [] ++ (b :: []) ++ below := hc
      rw [h.fp_current hc]
      exact h.walkTo hc' rfl (Nat.lt_succ_self _)
    | cons a xs =>
      have hc' : vm.history.current = [] ++ (a :: (xs ++ [b])) ++ below := by simp [hc]
      have hlast : (a :: (xs ++ [b])).getLast? = some b := by
        rw [← cons_append]
        exact List.getLast?_concat
      rw [h.fp_current hc]
      exact h.walkTo hc' hlast (Nat.lt_succ_self _)
  have hdrop : vm.history.current.dropWhile (fun a => decide (a.fp ≠ b.fp)) = b :: below := by
    rw [hc, dropWhile_append_of_pos]
    · simp
    · intro x hx
      have hxl : x ∈ vm.history.live := by simp [History.live, hc, hx]
      have ho := h.order
      rw [History.live, hc, append_assoc] at ho
      have hle := ((pairwise_append.mp ho).2.2 x hx b (by simp)).2
      have hbase := h.base_lt x hxl
      have hfix := b.fixed_le_top
      simp only [decide_eq_true_eq]
      omega
  unfold Vm.popFramesAbove
  rw [hwalk, hmethod]
  simp only [hdrop]
  rfl

end Sound

end WinArmVm.Process
