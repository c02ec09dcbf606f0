import WinArmVm.UnwindCalls

namespace WinArmVm.Process

open List Option Function

namespace Sound

variable {vm vm' : Vm} {a : Activation} {below : List Activation}

theorem resumeAt (hc : vm.history.current = a :: below) {bci : Nat} {c : Call}
    (hensure : bci = BCI_RESUME_ENSURE_RET → vm.floor + 2 ≤ vm.stack.sp)
    (hunwind : vm.floor + 1 ≤ vm.stack.sp) (hres : vm.resumeAt bci = some (vm', c)) :
    ((vm' = vm) ∨ ∃ m, vm' = { vm with method := some m, bci := bci }) ∧ vm'.CallOk c := by
  have hne : vm.history.current ≠ [] := by simp [hc]
  unfold Vm.resumeAt at hres
  split at hres
  next heq =>
    cases hres
    exact ⟨.inl rfl, hne, hensure heq⟩
  next =>
    split at hres
    next =>
      cases hres
      exact ⟨.inl rfl, hne, hunwind⟩
    next =>
      obtain ⟨-, hres⟩ := ite_none_left_eq_some.mp hres
      split at hres
      next => cases hres
      next m _ =>
        cases hres
        exact ⟨.inr ⟨m, rfl⟩, trivial⟩

section

variable (h : Sound vm)

include h

variable {c : Call} {result : Oop} {id : Nat}

theorem call_popAndDeliver (hc : vm.history.current = a :: below) (hres : vm.popAndDeliver result = some (vm', c)) :
    Pops vm vm' ∧ vm'.CallOk c := by
  have hp := h.delivered hc result
  rw [h.popAndDeliver hc] at hres
  cases below with
  | nil =>
    cases hres
    exact ⟨hp, trivial⟩
  | cons b rest =>
    rw [if_neg (by simp)] at hres
    have hcur : (vm.delivered a (b :: rest) result).history.current = b :: rest := rfl
    have hfloor := floor_current hcur
    have hle := h.top_le_base (top_of_current hc) (mem_append_left _ mem_cons_self)
    have hpark := h.parked_current hc
    have hsp : (vm.delivered a (b :: rest) result).stack.sp = a.base + 1 := rfl
    have hensure : a.savedBci = BCI_RESUME_ENSURE_RET → (vm.delivered a (b :: rest) result).floor + 2 ≤
          (vm.delivered a (b :: rest) result).stack.sp := by
      intro heq
      have hlt := hpark heq b rfl
      omega
    obtain ⟨rfl | ⟨m, rfl⟩, hok⟩ := resumeAt hcur hensure (by omega) hres
    · exact ⟨hp, hok⟩
    · exact ⟨hp.regs _ _, hok⟩

theorem call_doReturn (hc : vm.history.current = a :: below)
    (hres : vm.doReturn result = some (vm', c)) : Extends vm vm' ∧ vm'.CallOk c := by
  have hne : vm.history.current ≠ [] := by simp [hc]
  rcases h.doReturn hc result with ⟨-, heq⟩ | ⟨-, heq⟩ |
    ⟨e, cl, -, hcl, hargc, ⟨-, heq⟩ | ⟨-, heq⟩⟩
  · rw [heq] at hres
    cases hres
    exact ⟨Extends.refl h, hne⟩
  · rw [heq] at hres
    cases hres
  · rw [heq] at hres
    cases hres
    exact ⟨h.clearMarker hc, hne⟩
  · rcases h.interceptEnsureReturn hc hcl hargc result with ⟨hnone, -⟩ | ⟨vm1, hsome, hint⟩
    · rw [heq, hnone] at hres
      cases hres
    · rw [heq, hsome] at hres
      cases hres
      exact ⟨hint.extended, trivial⟩

theorem call {c c' : Call} (hok : vm.CallOk c)
    (hres : vm.call c = some (vm', c')) : Advances vm vm' ∧ vm'.CallOk c' := by
  cases c with
  | doReturn result =>
    obtain ⟨a, below, hc⟩ := exists_cons_of_ne_nil hok
    obtain ⟨hx, hok'⟩ := h.call_doReturn hc hres
    exact ⟨.inl hx, hok'⟩
  | popAndDeliver result =>
    obtain ⟨a, below, hc⟩ := exists_cons_of_ne_nil hok
    obtain ⟨hp, hok'⟩ := h.call_popAndDeliver hc hres
    exact ⟨.inr hp, hok'⟩
  | resumeEnsureRet =>
    obtain ⟨hne, hroom⟩ := hok
    obtain ⟨hx, heq⟩ := h.resumeEnsureRet hroom
    cases (show vm.resumeEnsureRet = some (vm', c') from hres).symm.trans heq
    exact ⟨.inl hx, hne⟩
  | resumeUnwind =>
    obtain ⟨hne, hroom⟩ := hok
    obtain ⟨a, below, hc⟩ := exists_cons_of_ne_nil hne
    obtain ⟨hx, t, home, value, -, -, rfl, rfl⟩ := h.resumeUnwind hc hroom hres
    exact ⟨.inl hx, .inl hne⟩
  | continueUnwind home value closure => exact h.continueUnwind hok hres
  | suspendUnwind mfp handler home value =>
    obtain ⟨a, below, cl, hc, rfl, hm, hcl, hargc⟩ := hok
    rcases h.suspendUnwind hc hm hcl hargc home value with ⟨hnone, -⟩ | ⟨vm1, hsome, hsus⟩
    · cases hres.symm.trans hnone
    · cases hres.symm.trans hsome
      exact ⟨.inl hsus.extended, trivial⟩
  | dispatch => cases hres
  | ranHandler handler => cases hres
  | cannotReturn => cases hres
  | entryReturned result => cases hres
  | escaped => cases hres

theorem act_value {cId savedBci : Nat}
    (hres : vm.act (.value cId savedBci) = some (vm', c)) : Extends vm vm' ∧ c = .dispatch := by
  unfold Vm.act at hres
  dsimp only at hres
  split at hres
  next => cases hres
  next cl hcl =>
    obtain ⟨hg, hres⟩ := ite_none_right_eq_some.mp hres
    obtain ⟨hroom, -, hbci, hf⟩ := hg
    have hx := h.setBci savedBci
    rcases hx.sound.activateBlockInterp hcl hroom hf
      (fun heq => absurd hbci (by rw [show savedBci = BCI_RESUME_ENSURE_RET from heq]; decide))
      with ⟨hnone, -⟩ | ⟨vm1, hsome, hact⟩
    · rw [hnone] at hres
      cases hres
    · rw [hsome] at hres
      cases hres
      exact ⟨hx.trans hact.extended, rfl⟩

omit h in
theorem arm {vm1 : Vm} (hx : Extends vm vm1) (hc : vm1.history.current = a :: below)
    (hnew : a ∉ vm.history.live) {v : Oop} {kind : MarkerKind} {stack : ProcessStack}
    (hv : Marked vm1.closures v) (hs : (Frame.mk a.fp).setMarker vm1.stack v kind = some stack) :
    Extends vm { vm1 with stack := stack } := by
  have h1 := hx.sound
  have hl := top_of_current hc
  obtain ⟨stack', hs', hsp, hfp, hframe, hmark, ⟨n, hn, hbits⟩, hother⟩ := h1.setMarker_some v kind hc
  cases (hs.symm.trans hs')
  have hmem : a ∈ vm1.history.live := by simp [hl]
  have hv' : Marked vm1.closures (stack.slots (a.fp + FRAME_MARKER)) := by
    rw [hmark]
    exact hv
  obtain ⟨hlinked, hmarks⟩ := h1.marker_write hmem hn hbits hv' hother
  have hbelow : ∀ b ∈ vm.history.live, b ≠ a ∧ b.base ≤ a.fp := by
    intro b hb
    have hb1 := hx.live.subset hb
    rw [hl] at hb1
    have hbase := a.base_le_fp
    have hfix := b.fixed_le_top
    have hbbase := b.base_le_fp
    rcases mem_cons.mp hb1 with rfl | hb1
    · exact absurd hb hnew
    · have hle := h1.top_le_base hl hb1
      refine ⟨?_, by omega⟩
      rintro rfl
      exact hnew hb
  refine
    { sound := h1.of_stack hlinked (fun b hb => (hmarks b hb).1)
        (fun b hb => by rw [hsp]; exact (h1.placed b hb).2) (by rw [hsp]; exact h1.capacity)
        hfp hframe
      live := hx.live, fresh := hx.fresh, pushed := hx.pushed, keeps := ?_, markers := ?_
      closures := hx.closures, creators := hx.creators, arrays := hx.arrays, made := hx.made }
  · intro b hb i hi
    have hle := (hbelow b hb).2
    exact (hother i (by omega) (by omega)).trans (hx.keeps b hb i hi)
  · intro b hb hm
    exact ((hmarks b (hx.live.subset hb)).2 (hbelow b hb).1).trans (hx.markers b hb hm)

theorem primEnsureLike {kind : MarkerKind} {r : PrimResult} (hroom : vm.floor + 2 ≤ vm.stack.sp)
    (hf : vm.history.current ≠ [] ∨ vm.stack.fp = NO_FRAME) (hbci : vm.bci ≠ BCI_RESUME_ENSURE_RET)
    (hres : vm.primEnsureLike kind = some (r, vm')) : Extends vm vm' := by
  unfold Vm.primEnsureLike at hres
  split at hres
  next p e hp he =>
    split at hres
    next protected_ handler hpcl hecl =>
      split at hres
      next =>
        cases hres
        exact Extends.refl h
      next hargc =>
        simp only [ne_eq, not_or, Decidable.not_not] at hargc
        have htrunc := h.truncate (by omega) (Nat.sub_le vm.stack.sp 1)
        have hroom' : vm.floor + protected_.method.argc + 1 ≤ vm.stack.sp - 1 := by omega
        rcases htrunc.sound.activateBlockInterp hpcl hroom' hf (fun heq => absurd heq hbci) with
          ⟨hnone, -⟩ | ⟨vm1, hsome, hact⟩
        · rw [hargc.1] at hnone
          rw [hnone] at hres
          cases hres
        · rw [hargc.1] at hsome
          rw [hsome] at hres
          obtain ⟨stack, hset, heq⟩ := map_eq_some_iff.mp hres
          cases heq
          have hx := htrunc.trans hact.extended
          have hc : vm1.history.current = ⟨vm.history.pushed, vm.stack.sp - 1, protected_.method,
              vm.bci⟩ :: vm.history.current := by
            rw [hact.history]
            rfl
          have hnew : (⟨vm.history.pushed, vm.stack.sp - 1, protected_.method, vm.bci⟩ :
              Activation) ∉ vm.history.live :=
            fun hm => Nat.lt_irrefl _ (h.ids _ hm)
          have hv : Marked vm1.closures (.closure e) := by
            rw [hact.closures]
            exact .inr (.inl ⟨e, handler, rfl, hecl, hargc.2⟩)
          unfold Vm.currentFrame at hset
          rw [hx.sound.fp_current hc] at hset
          exact arm hx hc hnew hv hset
    next => cases hres
  next =>
    cases hres
    exact Extends.refl h

theorem homeForNewClosure (hc : vm.history.current = a :: below) {home : Int}
    (hhome : vm.homeRefForNewClosure = some home) (hid : vm.homeOfNewClosure = some id) :
    ∃ fp, unpackHomeRef home = ⟨0, UInt32.ofNat id, fp⟩ ∧ id < vm.history.pushed ∧
      (∀ x ∈ vm.history.live, x.id = id → x.fp = fp ∧ x.method.isBlock = false) ∧
      ((∃ (e : Nat) (old : Closure), vm.closures[e]? = some old ∧ old.home = home ∧
        vm.history.creators[e]? = some id) ∨ a.id = id) := by
  have hmem := mem_current hc
  unfold Vm.homeRefForNewClosure Vm.currentFrame at hhome
  unfold Vm.homeOfNewClosure at hid
  simp only [h.fp_current hc, hc, h.method_current hc] at hhome hid
  split at hhome
  next hb =>
    rw [if_pos hb] at hid
    split at hid
    next x hslot =>
      rw [hslot] at hhome
      obtain ⟨old, hold, rfl⟩ := map_eq_some_iff.mp hhome
      obtain ⟨id', fp, hid', hlt, hu, hplace⟩ := h.homes x old hold
      cases some.inj (hid'.symm.trans hid)
      exact ⟨fp, hu, hlt, hplace, .inl ⟨x, old, hold, rfl, hid⟩⟩
    next => cases hid
  next hb =>
    rw [if_neg hb] at hid
    cases some.inj hid
    obtain ⟨w, hw, hbits⟩ := (h.header_current hc).serial
    have hser : (Frame.mk a.fp).serial vm.stack = some (UInt32.ofNat a.id) := by
      unfold Frame.serial Frame.serialWord ProcessStack.get
      simp only [hw, Oop.smallInt, map_some, hbits]
    rw [hser] at hhome
    cases some.inj hhome
    have hcap := h.fp_lt hmem
    refine ⟨a.fp, ?_, h.ids a hmem, ?_, .inr rfl⟩
    · apply unpackHomeRef_packHomeRef
      show a.fp ≤ HOME_REF_FP_MAX
      simp only [DEFAULT_STACK_CAPACITY] at hcap
      simp only [HOME_REF_FP_MAX, HOME_REF_FP_BITS]
      omega
    · intro x hx heq
      cases h.live_inj hx hmem (.inr heq)
      exact ⟨rfl, by simpa using hb⟩

theorem addClosure (hc : vm.history.current = a :: below) {cl : Closure}
    (hhome : vm.homeRefForNewClosure = some cl.home) (hid : vm.homeOfNewClosure = some id) (hwf : cl.WellFormed) :
    Extends vm { vm with
      closures := vm.closures ++ [cl]
      history := { vm.history with creators := vm.history.creators ++ [id] } } := by
  obtain ⟨fp, hu, hlt, hplace, hmade⟩ := h.homeForNewClosure hc hhome hid
  have hsized := h.sized
  have hold : ∀ {c : Nat} {x : Closure}, (vm.closures ++ [cl])[c]? = some x → vm.closures[c]? = some x ∧
          (vm.history.creators ++ [id])[c]? = vm.history.creators[c]? ∨
        x = cl ∧ (vm.history.creators ++ [id])[c]? = some id := by
    intro c x hx
    by_cases hlt : c < vm.closures.length
    · rw [List.getElem?_append_left hlt] at hx
      exact .inl ⟨hx, List.getElem?_append_left (by omega)⟩
    · have heq : c = vm.closures.length := by
        have hb := (List.getElem?_eq_some_iff.mp hx).1
        simp only [length_append, length_singleton] at hb
        omega
      subst heq
      rw [List.getElem?_concat_length] at hx
      rw [← hsized, List.getElem?_concat_length]
      exact .inr ⟨(some.inj hx).symm, rfl⟩
  have hprefix : vm.closures <+: vm.closures ++ [cl] := prefix_append _ _
  exact
    { sound :=
        { h with
          markers := fun b hb => (h.markers b hb).mono hprefix
          homes := by
            intro c x hx
            rcases hold hx with ⟨hx', hcr⟩ | ⟨rfl, hcr⟩
            · obtain ⟨id', fp', hid', rest⟩ := h.homes c x hx'
              exact ⟨id', fp', hcr.trans hid', rest⟩
            · exact ⟨id, fp, hcr, hlt, hu, hplace⟩
          closures := by
            intro x hx
            rcases mem_append.mp hx with hx | hx
            · exact h.closures x hx
            · cases mem_singleton.mp hx
              exact hwf
          sized := by
            show (vm.history.creators ++ [id]).length = (vm.closures ++ [cl]).length
            simp [hsized] }
      live := suffix_refl _
      fresh := fun _ hx => .inl hx
      pushed := Nat.le_refl _
      keeps := fun _ _ _ _ => rfl
      markers := fun _ _ hm => hm
      closures := hprefix
      creators := prefix_append _ _
      arrays := prefix_refl _
      made := by
        intro c x hx
        rcases hold hx with ⟨hx', hcr⟩ | ⟨rfl, hcr⟩
        · exact .inl ⟨c, x, hx', rfl, hcr.symm⟩
        · rcases hmade with ⟨e, old, he, hhome', hid'⟩ | heq
          · exact .inl ⟨e, old, he, hhome', hid'.trans hcr.symm⟩
          · refine .inr ⟨a, mem_current hc, ?_⟩
            rw [heq]
            exact hcr }

theorem makeClosure (hc : vm.history.current = a :: below) {blk : CompiledMethod}
    {n e : Nat} (hblk : blk.isBlock = true) (hn : n ≤ blk.ntemps)
    (hroom : vm.floor + n ≤ vm.stack.sp) (hres : vm.makeClosure blk n = some (e, vm')) :
    Extends vm vm' := by
  have htrunc := h.truncate (by omega) (Nat.sub_le vm.stack.sp n)
  unfold Vm.makeClosure at hres
  dsimp only at hres
  split at hres
  next home id hhome hid =>
    cases hres
    refine htrunc.trans (htrunc.sound.addClosure hc hhome hid ⟨hblk, n, hn, ?_⟩)
    cases blk.capturesCtx <;> simp <;> omega
  next => cases hres

theorem enter : Extends vm vm.enter := by
  have hlive : vm.enter.history.live = vm.history.live := by
    simp [Vm.enter, History.live]
  exact
    { sound :=
        { h with
          ids := by rw [hlive]; exact h.ids
          order := by rw [hlive]; exact h.order
          placed := by rw [hlive]; exact h.placed
          linked := by
            intro seg hseg
            rcases mem_cons.mp hseg with rfl | hseg
            · trivial
            · exact h.linked seg hseg
          markers := by rw [hlive]; exact h.markers
          active := fun x hx => by cases hx
          suspended := by
            refine List.Forall₂.cons ?_ h.suspended
            intro x hx
            obtain ⟨hfp, hframe⟩ := h.active x hx
            show FrameActivation.mk vm.stack.fp vm.stack.hasFrame = _
            rw [hfp, hframe]
          homes := by rw [hlive]; exact h.homes }
      live := by rw [hlive]
      fresh := fun x hx => .inl (by rwa [hlive] at hx)
      pushed := Nat.le_refl _
      keeps := fun _ _ _ _ => rfl
      markers := fun _ _ hm => hm
      closures := prefix_refl _
      creators := prefix_refl _
      arrays := prefix_refl _
      made := fun c cl hcl => .inl ⟨c, cl, hcl, rfl, rfl⟩ }

theorem leave (hnil : vm.history.current = []) (hres : vm.leave = some vm') : Extends vm vm' := by
  unfold Vm.leave at hres
  split at hres
  next saved suspended seg outer hsus hout =>
    cases hres
    have hlive : seg ++ outer.flatten = vm.history.live := by
      simp [History.live, hnil, hout]
    have hlinked := h.linked
    rw [hnil, hout] at hlinked
    have hf := h.suspended
    rw [hsus, hout] at hf
    cases hf with
    | cons hseg hrest =>
      exact
        { sound :=
            { h with
              ids := fun x hx => h.ids x (hlive ▸ hx)
              order := by
                show (seg ++ outer.flatten).Pairwise _
                rw [hlive]
                exact h.order
              placed := fun x hx => h.placed x (hlive ▸ hx)
              linked := fun s hs => hlinked s (mem_cons_of_mem _ hs)
              markers := fun x hx => h.markers x (hlive ▸ hx)
              active := by
                intro x hx
                rw [hseg x hx]
                exact ⟨rfl, rfl⟩
              suspended := hrest
              homes := by
                intro c cl hcl
                obtain ⟨id, fp, hid, hlt, hu, hplace⟩ := h.homes c cl hcl
                exact ⟨id, fp, hid, hlt, hu, fun x hx => hplace x (hlive ▸ hx)⟩ }
          live := by
            show vm.history.live <:+ seg ++ outer.flatten
            rw [hlive]
          fresh := fun x hx => .inl (hlive ▸ hx)
          pushed := Nat.le_refl _
          keeps := fun _ _ _ _ => rfl
          markers := fun _ _ hm => hm
          closures := prefix_refl _
          creators := prefix_refl _
          arrays := prefix_refl _
          made := fun c cl hcl => .inl ⟨c, cl, hcl, rfl, rfl⟩ }
  next => cases hres

theorem osrPop (hc : vm.history.current = a :: below) (hres : vm.osrPop = some vm') : Pops vm vm' := by
  have hl := top_of_current hc
  have hmem : a ∈ vm.history.live := by simp [hl]
  have hbase := a.base_le_fp
  have hpl := (h.placed a hmem).2
  have hfix := a.fixed_le_top
  have hcap := h.capacity
  have hsuffix : below <:+ vm.history.current := by
    rw [hc]
    exact suffix_cons _ _
  have hended : ∀ x ∈ vm.history.current, x ∈ below ∨ a.base ≤ x.fp := by
    intro x hx
    rw [hc] at hx
    rcases mem_cons.mp hx with rfl | hx
    · exact .inr hbase
    · exact .inl hx
  have hlow : ∀ b ∈ below ++ vm.history.outer.flatten, b.top ≤ a.base :=
    fun b hb => h.top_le_base hl hb
  have hclosed : vm.history.closed = { vm.history with current := below } := by
    simp [History.closed, hc]
  unfold Vm.osrPop Vm.currentFrame at hres
  simp only [h.fp_current hc, h.method_current hc, h.savedFp_current hc, h.savedBci_current hc, hclosed] at hres
  cases below with
  | nil =>
    cases hres
    exact Pops.of_stack h hsuffix (fun _ _ _ _ => rfl) hlow hended (by show a.base ≤ _; omega) (fun x hx => by cases hx)
  | cons b rest =>
    have hne : ((b.fp : Int) = ENTRY_FRAME_SENTINEL) = False := by
      simp only [ENTRY_FRAME_SENTINEL, eq_iff_iff, iff_false]
      omega
    obtain ⟨m, -, rfl⟩ := map_eq_some_iff.mp hres
    have hp : Pops vm { vm with
        stack := (vm.stack.truncate a.base).activateFrame b.fp
        history := { vm.history with current := b :: rest } } := by
      refine Pops.of_stack h hsuffix (fun _ _ _ _ => rfl) hlow hended (by show a.base ≤ _; omega) ?_
      intro x hx
      cases hx
      exact ⟨rfl, rfl⟩
    exact hp.regs _ _

theorem restoreBaseline {sp : Nat} (hsp : sp ≤ vm.stack.sp)
    (hbase : ∀ a ∈ vm.history.live, sp ≤ a.base) : Pops vm (vm.restoreBaseline sp) where
  sound :=
    { h with
      capacity := hsp.trans h.capacity
      ids := fun x hx => by cases hx
      order := List.Pairwise.nil
      placed := fun x hx => by cases hx
      linked := fun seg hseg => by
        cases mem_singleton.mp hseg
        trivial
      markers := fun x hx => by cases hx
      active := fun x hx => by cases hx
      suspended := List.Forall₂.nil
      homes := by
        intro c cl hcl
        obtain ⟨id, fp, hid, hlt, hu, -⟩ := h.homes c cl hcl
        exact ⟨id, fp, hid, hlt, hu, fun x hx => by cases hx⟩ }
  live := nil_suffix
  ended x hx := .inr ((hbase x hx).trans x.base_le_fp)
  pushed := rfl
  keeps x hx := by cases hx
  markers x hx := by cases hx
  closures := rfl
  creators := rfl
  arrays := rfl

theorem setReceiver (hc : vm.history.current = a :: below) (v : Oop) :
    Extends vm { vm with stack := vm.stack.set (vm.stack.fp + FRAME_RECEIVER) v } := by
  have hbase := a.base_le_fp
  rw [h.fp_current hc]
  exact h.set_loose (h.loose_current hc (by simp only [FRAME_RECEIVER]; omega) (.inr (.inr (.inr rfl)))) v

end

end Sound

/-- An error takes the marker of one frame, which may not be the top one. -/
structure Curtails (vm vm' : Vm) : Prop where
  sound : Sound vm'
  history : vm'.history = vm.history
  closures : vm'.closures = vm.closures

theorem Sound.act_clearMarker {vm vm' : Vm} (h : Sound vm) {fp : Nat} {c : Call}
    (hres : vm.act (.clearMarker fp) = some (vm', c)) : Curtails vm vm' ∧ c = .dispatch := by
  obtain ⟨hmem, hres⟩ := ite_none_right_eq_some.mp hres
  cases hres
  obtain ⟨a, ha, rfl⟩ := mem_map.mp hmem
  have hlive : a ∈ vm.history.live := mem_append_left _ ha
  obtain ⟨saved, hh⟩ := h.header_live hlive
  obtain ⟨w, hw, hbits⟩ := hh.serial
  have hserial : ((Frame.mk a.fp).clearMarker vm.stack).slots (a.fp + FRAME_SERIAL) = .smi w :=
    (update_of_ne (by simp [FRAME_SERIAL, FRAME_MARKER]) _ _).trans hw
  have hnil : ((Frame.mk a.fp).clearMarker vm.stack).slots (a.fp + FRAME_MARKER) = .nil := update_self ..
  obtain ⟨hlinked, hmarks⟩ := h.marker_write hlive hserial hbits (.inl hnil)
    (fun i _ hi => update_of_ne hi _ _)
  exact ⟨⟨h.of_stack hlinked (fun b hb => (hmarks b hb).1) (fun b hb => (h.placed b hb).2)
    h.capacity rfl rfl, rfl, rfl⟩, rfl⟩

theorem Sound.act {vm vm' : Vm} (h : Sound vm) {action : Action} {c : Call}
    (hne : ∀ fp, action ≠ .clearMarker fp) (hres : vm.act action = some (vm', c)) :
    Advances vm vm' ∧ vm'.CallOk c := by
  have hcur : vm.history.current ≠ [] → ∃ a below, vm.history.current = a :: below := exists_cons_of_ne_nil
  cases action with
  | push v =>
    obtain ⟨stack, hp, heq⟩ := map_eq_some_iff.mp hres
    cases heq
    exact ⟨.inl (h.push hp), trivial⟩
  | truncate sp =>
    obtain ⟨hg, hres⟩ := ite_none_right_eq_some.mp hres
    cases hres
    exact ⟨.inl (h.truncate hg.1 hg.2), trivial⟩
  | setOperand i v =>
    obtain ⟨hg, hres⟩ := ite_none_right_eq_some.mp hres
    cases hres
    exact ⟨.inl (h.set_loose (h.loose_of_floor hg.1) v), trivial⟩
  | setTemp t v =>
    unfold Vm.act at hres
    dsimp only at hres
    split at hres
    next => cases hres
    next a below hc =>
      obtain ⟨-, hres⟩ := ite_none_right_eq_some.mp hres
      obtain ⟨stack, hs, heq⟩ := map_eq_some_iff.mp hres
      cases heq
      unfold Vm.currentFrame at hs
      rw [h.fp_current hc] at hs
      exact ⟨.inl (h.setTemp hc hs), trivial⟩
  | setContext v =>
    obtain ⟨hcne, hres⟩ := ite_none_left_eq_some.mp hres
    cases hres
    obtain ⟨a, below, hc⟩ := hcur hcne
    have hx := h.setContext v hc
    rw [← h.fp_current hc] at hx
    exact ⟨.inl hx, trivial⟩
  | setReceiver v =>
    obtain ⟨hcne, hres⟩ := ite_none_left_eq_some.mp hres
    cases hres
    obtain ⟨a, below, hc⟩ := hcur hcne
    exact ⟨.inl (h.setReceiver hc v), trivial⟩
  | send m savedBci =>
    obtain ⟨hg, hres⟩ := ite_none_right_eq_some.mp hres
    obtain ⟨hcne, hroom, hbci⟩ := hg
    obtain ⟨vm1, hact, heq⟩ := map_eq_some_iff.mp hres
    cases heq
    have hx := h.setBci savedBci
    have hbci' : savedBci ≠ BCI_RESUME_ENSURE_RET := by
      rintro rfl
      exact absurd hbci (by decide)
    exact ⟨.inl (hx.trans (hx.sound.activateMethod hroom hcne hbci' hact)), trivial⟩
  | value e savedBci =>
    obtain ⟨hx, rfl⟩ := h.act_value hres
    exact ⟨.inl hx, trivial⟩
  | ensureLike kind savedBci =>
    obtain ⟨hg, hres⟩ := ite_none_right_eq_some.mp hres
    obtain ⟨hroom, hbci, hf⟩ := hg
    obtain ⟨⟨r, vm1⟩, hprim, heq⟩ := map_eq_some_iff.mp hres
    cases heq
    have hx := h.setBci savedBci
    have hbci' : savedBci ≠ BCI_RESUME_ENSURE_RET := by
      rintro rfl
      exact absurd hbci (by decide)
    exact ⟨.inl (hx.trans (hx.sound.primEnsureLike hroom hf hbci' hprim)), trivial⟩
  | pushClosure blk n =>
    obtain ⟨hg, hres⟩ := ite_none_right_eq_some.mp hres
    obtain ⟨hcne, hroom, hblk, hn⟩ := hg
    obtain ⟨a, below, hc⟩ := hcur hcne
    split at hres
    next => cases hres
    next e vm1 hmake =>
      obtain ⟨stack, hp, heq⟩ := map_eq_some_iff.mp hres
      cases heq
      have hx := h.makeClosure hc hblk hn hroom hmake
      exact ⟨.inl (hx.trans (hx.sound.push hp)), trivial⟩
  | doReturn result =>
    obtain ⟨hcne, hres⟩ := ite_none_left_eq_some.mp hres
    cases hres
    exact ⟨.inl (Extends.refl h), hcne⟩
  | nlrTos value =>
    obtain ⟨hcne, hres⟩ := ite_none_left_eq_some.mp hres
    split at hres
    next => cases hres
    next e he =>
      obtain ⟨cl, -, heq⟩ := map_eq_some_iff.mp hres
      cases heq
      exact ⟨.inl (Extends.refl h), .inl hcne⟩
  | enter =>
    cases hres
    exact ⟨.inl h.enter, trivial⟩
  | activateEntry m =>
    obtain ⟨hg, hres⟩ := ite_none_right_eq_some.mp hres
    obtain ⟨vm1, hact, heq⟩ := map_eq_some_iff.mp hres
    cases heq
    exact ⟨.inl (h.activateEntry hg.2 hg.1 hact), trivial⟩
  | leave =>
    obtain ⟨hnil, hres⟩ := ite_none_right_eq_some.mp hres
    obtain ⟨vm1, hleave, heq⟩ := map_eq_some_iff.mp hres
    cases heq
    exact ⟨.inl (h.leave hnil hleave), trivial⟩
  | osr =>
    obtain ⟨hcne, hres⟩ := ite_none_left_eq_some.mp hres
    obtain ⟨a, below, hc⟩ := hcur hcne
    obtain ⟨vm1, hosr, heq⟩ := map_eq_some_iff.mp hres
    cases heq
    exact ⟨.inr (h.osrPop hc hosr), trivial⟩
  | originate e value =>
    unfold Vm.act at hres
    dsimp only at hres
    split at hres
    next =>
      cases hres
      exact ⟨.inl (h.park _), trivial⟩
    next => cases hres
  | resume =>
    unfold Vm.act at hres
    dsimp only at hres
    split at hres
    next => cases hres
    next st =>
      obtain ⟨hg, hres⟩ := ite_none_right_eq_some.mp hres
      cases hres
      exact ⟨.inl (h.park _), hg⟩
  | clearMarker fp => exact absurd rfl (hne fp)
  | restoreBaseline sp =>
    obtain ⟨hg, hres⟩ := ite_none_right_eq_some.mp hres
    cases hres
    exact ⟨.inr (h.restoreBaseline hg.1 hg.2), trivial⟩
  | tick => cases hres

namespace Machine

variable {m m' : Machine} {a : Action}

structure Ok (m : Machine) : Prop where
  sound : Sound m.vm
  call : m.vm.CallOk m.call

theorem start_ok (crm : Option { m : CompiledMethod // m.argc = 1 }) : (start crm).Ok where
  sound :=
    { serial := rfl
      capacity := Nat.zero_le _
      ids := fun x hx => by cases hx
      order := List.Pairwise.nil
      placed := fun x hx => by cases hx
      linked := fun seg hseg => by
        cases mem_singleton.mp hseg
        trivial
      markers := fun x hx => by cases hx
      active := fun x hx => by cases hx
      suspended := List.Forall₂.nil
      homes := fun c cl hcl => by cases hcl
      closures := fun cl hcl => by cases hcl
      sized := rfl }
  call := trivial

theorem step_cases (h : m.step a = some m') : m.vm.act a = some (m'.vm, m'.call) ∧ m.call.settled = true ∨
      a = .tick ∧ m.vm.call m.call = some (m'.vm, m'.call) := by
  unfold step at h
  split at h
  all_goals first
    | (obtain ⟨r, hr, rfl⟩ := map_eq_some_iff.mp h
       exact .inl ⟨hr, by simp_all [Call.settled]⟩)
    | (split at h
       next heq =>
         obtain ⟨r, hr, rfl⟩ := map_eq_some_iff.mp h
         first
           | exact .inl ⟨hr, by simp_all [Call.settled]⟩
           | exact .inr ⟨heq, hr⟩
       next => cases h)

theorem Ok.step (h : m.Ok) (hs : m.step a = some m') : m'.Ok ∧ (Advances m.vm m'.vm ∨ Curtails m.vm m'.vm) := by
  rcases step_cases hs with ⟨hact, -⟩ | ⟨-, hcall⟩
  · by_cases hclear : ∃ fp, a = .clearMarker fp
    · obtain ⟨fp, rfl⟩ := hclear
      obtain ⟨hcur, hc⟩ := h.sound.act_clearMarker hact
      refine ⟨⟨hcur.sound, ?_⟩, .inr hcur⟩
      rw [hc]
      trivial
    · obtain ⟨hadv, hok⟩ := h.sound.act (fun fp heq => hclear ⟨fp, heq⟩) hact
      exact ⟨⟨hadv.sound, hok⟩, .inl hadv⟩
  · obtain ⟨hadv, hok⟩ := h.sound.call h.call hcall
    exact ⟨⟨hadv.sound, hok⟩, .inl hadv⟩

theorem Ok.run {as : List Action} (h : m.Ok) (hr : m.run as = some m') : m'.Ok := by
  induction as generalizing m with
  | nil =>
    cases hr
    exact h
  | cons a as ih =>
    unfold Machine.run at hr
    split at hr
    next => cases hr
    next mid hmid => exact ih (h.step hmid).1 hr

def armed (slots : Nat → Oop) (a : Activation) : Option ScanResult :=
  match slots (a.fp + FRAME_MARKER) with
  | .closure c => some (.marked a.fp c)
  | _ => none

theorem scanFrames_armed {slots : Nat → Oop} {b : Activation} {xs : List Activation} (below : List Activation)
    (hne : ∀ a ∈ xs, a.fp ≠ b.fp) :
    Vm.scanFrames slots b.fp (xs ++ b :: below) = some ((xs.findSome? (armed slots)).getD .reachedHome) := by
  induction xs with
  | nil => exact if_pos rfl
  | cons a xs ih =>
    obtain ⟨ha, hrest⟩ := forall_mem_cons.mp hne
    obtain ⟨x, rest, hx⟩ : ∃ x rest, xs ++ b :: below = x :: rest := by
      cases xs <;> exact ⟨_, _, rfl⟩
    rw [cons_append, findSome?_cons, armed]
    rw [hx] at ih ⊢
    cases hm : slots (a.fp + FRAME_MARKER) with
    | closure c => simp [Vm.scanFrames, ha, hm]
    | _ => simpa [Vm.scanFrames, ha, hm] using ih hrest

/-- In every state reached, an unwind toward a frame of its run stops at the innermost armed frame above
it, and popping the frames above it leaves it and those below as they were. -/
theorem unwind_innermost {crm : Option { m : CompiledMethod // m.argc = 1 }} {as : List Action}
    (hrun : (start crm).run as = some m) {xs below : List Activation} {b : Activation}
    (hc : m.vm.history.current = xs ++ b :: below) :
    m.vm.innermostMarkedFrame m.vm.stack.fp b.fp = some ((xs.findSome? (armed m.vm.stack.slots)).getD .reachedHome) ∧
      m.vm.popFramesAbove b.fp = some (m.vm.unwoundTo b below) := by
  have h := ((start_ok crm).run hrun).sound
  refine ⟨?_, h.popFramesAbove hc⟩
  have hne : ∀ a ∈ xs, a.fp ≠ b.fp := by
    intro a ha
    have hlive : m.vm.history.live = xs ++ (b :: (below ++ m.vm.history.outer.flatten)) := by
      simp [History.live, hc]
    have ho := h.order
    rw [hlive] at ho
    have hle := ((pairwise_append.mp ho).2.2 a ha b mem_cons_self).2
    have hbase := a.base_le_fp
    have htop := b.fixed_le_top
    omega
  rw [← scanFrames_armed below hne]
  obtain ⟨a, rest, ha⟩ : ∃ a rest, xs ++ b :: below = a :: rest := by
    cases xs <;> exact ⟨_, _, rfl⟩
  rw [ha] at hc ⊢
  unfold Vm.innermostMarkedFrame
  rw [h.fp_current hc]
  exact h.scanMarked (show _ = [] ++ _ from hc) (Nat.lt_succ_self _)

/-- `[..] ensure: [..]` in `main`: an unwind toward `main` runs the handler, closure 1, first. -/
def ensureRun : List Action :=
  let main : CompiledMethod := ⟨0, 1, false, false, false⟩
  let blk : CompiledMethod := ⟨0, 0, true, false, false⟩
  [.enter, .push .nil, .activateEntry main, .pushClosure blk 0, .pushClosure blk 0, .ensureLike .ensure 0]

theorem unwind_innermost_ensure : ∃ (m : Machine) (a b : Activation),
    (start none).run ensureRun = some m ∧ m.vm.history.current = [a, b] ∧
      m.vm.innermostMarkedFrame m.vm.stack.fp b.fp = some (.marked a.fp 1) ∧
      m.vm.popFramesAbove b.fp = some (m.vm.unwoundTo b []) :=
  ⟨_, _, _, rfl, rfl, @unwind_innermost _ none ensureRun rfl [_] [] _ rfl⟩

end Machine

end WinArmVm.Process
