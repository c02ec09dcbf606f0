import WinArmVm.ProcessSound

namespace WinArmVm.Process

def Oop.CarriesSerial (v : Oop) (home : HomeRef) : Prop := ∃ s, v.smallInt = some s ∧ Frame.serialBits s = home.serial

namespace Vm

variable {vm vm' : Vm}

def HomeOnChain (vm : Vm) (c : Nat) (home : HomeRef) : Prop :=
  ∃ a ∈ vm.history.live, vm.history.creators[c]? = some a.id ∧ a.fp = home.fp

def Unforged (vm : Vm) : Prop := ∀ (c : Nat) (cl : Closure), vm.closures[c]? = some cl →
    (∀ a ∈ vm.history.live, vm.history.creators[c]? ≠ some a.id) →
    vm.stack.sp ≤ (unpackHomeRef cl.home).fp + FRAME_SERIAL ∨
      ¬ (vm.stack.slots ((unpackHomeRef cl.home).fp + FRAME_SERIAL)).CarriesSerial (unpackHomeRef cl.home)

end Vm

namespace Machine

variable {m m' : Machine} {a : Action}

/-- The step leaves `v` in slot `i`, which was not on the stack or held something else. -/
def Writes (m : Machine) (a : Action) (i : Nat) (v : Oop) : Prop :=
  ∃ m', m.step a = some m' ∧ i < m'.vm.stack.sp ∧ m'.vm.stack.slots i = v ∧ (m.vm.stack.sp ≤ i ∨ m.vm.stack.slots i ≠ v)

/-- The step writes no smi with the serial number of an activation that has ended, over the slot
where that activation kept it. -/
def Clean (m : Machine) (a : Action) : Prop := ∀ (c : Nat) (cl : Closure), m.vm.closures[c]? = some cl →
    (∀ x ∈ m.vm.history.live, m.vm.history.creators[c]? ≠ some x.id) →
    ∀ v, m.Writes a ((unpackHomeRef cl.home).fp + FRAME_SERIAL) v → ¬ v.CarriesSerial (unpackHomeRef cl.home)

def CleanRun (m : Machine) : List Action → Prop
  | [] => True
  | a :: as => m.Clean a ∧ ∀ m', m.step a = some m' → m'.CleanRun as

end Machine

namespace Sound

variable {vm : Vm}

theorem homeIsLive_of_live (h : Sound vm) {c : Nat} {cl : Closure}
    (hcl : vm.closures[c]? = some cl) {a : Activation} (ha : a ∈ vm.history.live)
    (hid : vm.history.creators[c]? = some a.id) :
    vm.homeIsLive (unpackHomeRef cl.home) = true ∧ a.fp = (unpackHomeRef cl.home).fp := by
  obtain ⟨id, fp, hid', -, hu, hplace⟩ := h.homes c cl hcl
  cases (hid'.symm.trans hid)
  obtain ⟨rfl, -⟩ := hplace a ha rfl
  obtain ⟨saved, hh⟩ := h.header_live ha
  obtain ⟨w, hw, hbits⟩ := hh.serial
  have hpl := (h.placed a ha).2
  have hfix := a.fixed_le_top
  rw [hu]
  refine ⟨?_, rfl⟩
  unfold Vm.homeIsLive ProcessStack.get
  rw [if_neg (by simp), if_neg (by simp only [FRAME_MARKER]; omega)]
  simp [hw, Oop.smallInt, hbits]

theorem homeIsLive_iff_of_unforged (h : Sound vm) (hf : vm.Unforged) {c : Nat} {cl : Closure}
    (hcl : vm.closures[c]? = some cl) :
    vm.homeIsLive (unpackHomeRef cl.home) = true ↔ vm.HomeOnChain c (unpackHomeRef cl.home) := by
  constructor
  · intro hlive
    by_cases hend : ∀ a ∈ vm.history.live, vm.history.creators[c]? ≠ some a.id
    · unfold Vm.homeIsLive at hlive
      split at hlive
      next => cases hlive
      next =>
        split at hlive
        next => cases hlive
        next hsp =>
          split at hlive
          next s hs =>
            rcases hf c cl hcl hend with hle | hno
            · simp only [FRAME_MARKER, FRAME_SERIAL] at hsp hle
              omega
            · exact absurd ⟨s, hs, by simpa using hlive⟩ hno
          next => cases hlive
    · have hend' : ∃ a ∈ vm.history.live, vm.history.creators[c]? = some a.id := by
        by_contra hno
        exact hend fun a ha heq => hno ⟨a, ha, heq⟩
      obtain ⟨a, ha, heq⟩ := hend'
      exact ⟨a, ha, heq, (h.homeIsLive_of_live hcl ha heq).2⟩
  · rintro ⟨a, ha, hid, -⟩
    exact (h.homeIsLive_of_live hcl ha hid).1

end Sound

namespace Vm

variable {vm vm' : Vm}

theorem made_or_live (hadv : Advances vm vm' ∨ Curtails vm vm') {c : Nat} {cl : Closure}
    (hcl : vm'.closures[c]? = some cl) :
    (∃ (e : Nat) (old : Closure), vm.closures[e]? = some old ∧ old.home = cl.home ∧
      vm.history.creators[e]? = vm'.history.creators[c]?) ∨
    ∃ a ∈ vm'.history.live, vm'.history.creators[c]? = some a.id := by
  rcases hadv with (hx | hp) | hc
  · exact hx.made c cl hcl
  · rw [hp.closures] at hcl
    exact .inl ⟨c, cl, hcl, rfl, by rw [hp.creators]⟩
  · rw [hc.closures] at hcl
    exact .inl ⟨c, cl, hcl, rfl, by rw [hc.history]⟩

theorem live_or_above (hadv : Advances vm vm' ∨ Curtails vm vm') {a : Activation}
    (ha : a ∈ vm.history.live) : a ∈ vm'.history.live ∨ vm'.stack.sp ≤ a.fp := by
  rcases hadv with (hx | hp) | hc
  · exact .inl (hx.live.subset ha)
  · exact hp.ended a ha
  · exact .inl (by rwa [hc.history])

end Vm

namespace Machine

variable {m m' : Machine} {a : Action}

theorem Ok.unforged_step (h : m.Ok) (hf : m.vm.Unforged) (hclean : m.Clean a)
    (hs : m.step a = some m') : m'.vm.Unforged := by
  obtain ⟨-, hadv⟩ := h.step hs
  intro c cl hcl hend
  rcases Vm.made_or_live hadv hcl with ⟨e, old, hold, hhome, hid⟩ | ⟨x, hx, heq⟩
  · rw [← hhome]
    by_cases hended : ∀ x ∈ m.vm.history.live, m.vm.history.creators[e]? ≠ some x.id
    · by_contra hno
      obtain ⟨hsp, hcarries⟩ := not_or.mp hno
      have hcarries := Classical.not_not.mp hcarries
      by_cases hsame : m.vm.stack.sp ≤ (unpackHomeRef old.home).fp + FRAME_SERIAL ∨
          m.vm.stack.slots ((unpackHomeRef old.home).fp + FRAME_SERIAL) ≠
            m'.vm.stack.slots ((unpackHomeRef old.home).fp + FRAME_SERIAL)
      · exact hclean e old hold hended _ ⟨m', hs, by omega, rfl, hsame⟩ hcarries
      · obtain ⟨hlt, heq⟩ := not_or.mp hsame
        rw [← Classical.not_not.mp heq] at hcarries
        rcases hf e old hold hended with hle | hnot
        · exact hlt hle
        · exact hnot hcarries
    · have hlive : ∃ x ∈ m.vm.history.live, m.vm.history.creators[e]? = some x.id := by
        by_contra hno
        exact hended fun x hx heq => hno ⟨x, hx, heq⟩
      obtain ⟨x, hx, heq⟩ := hlive
      have hfp := (h.sound.homeIsLive_of_live hold hx heq).2
      rcases Vm.live_or_above hadv hx with hin | hle
      · exact absurd (hid.symm.trans heq) (hend x hin)
      · exact .inl (by omega)
  · exact absurd heq (hend x hx)

variable {as : List Action}

theorem Ok.unforged_run (h : m.Ok) (hf : m.vm.Unforged) (hclean : m.CleanRun as)
    (hr : m.run as = some m') : m'.vm.Unforged := by
  induction as generalizing m with
  | nil =>
    cases hr
    exact hf
  | cons a as ih =>
    unfold Machine.run at hr
    split at hr
    next => cases hr
    next mid hmid =>
      exact ih (h.step hmid).1 (h.unforged_step hf hclean.1 hmid) (hclean.2 mid hmid) hr

/-- In every clean run `home_is_live` tells exactly the homes that are still on the chain. -/
theorem homeIsLive_exact {crm : Option { m : CompiledMethod // m.argc = 1 }} {as : List Action}
    (hrun : (start crm).run as = some m) (hclean : (start crm).CleanRun as) {c : Nat}
    {cl : Closure} (hcl : m.vm.closures[c]? = some cl) :
    m.vm.homeIsLive (unpackHomeRef cl.home) = true ↔
      m.vm.HomeOnChain c (unpackHomeRef cl.home) := by
  have hok := start_ok crm
  have hstart : (start crm).vm.Unforged := fun c cl hcl => by cases hcl
  exact (hok.run hrun).sound.homeIsLive_iff_of_unforged (hok.unforged_run hstart hclean hrun) hcl

theorem clean_of_homes_live (hsized : m.vm.history.creators.length = m.vm.closures.length)
    (hlive : ∀ id ∈ m.vm.history.creators, id ∈ m.vm.history.live.map Activation.id) :
    m.Clean a := by
  intro c cl hcl hend
  have hlt := (List.getElem?_eq_some_iff.mp hcl).1
  rw [← hsized] at hlt
  obtain ⟨x, hx, hid⟩ := List.mem_map.mp (hlive _ (List.getElem_mem hlt))
  exact absurd (by rw [hid, List.getElem?_eq_getElem hlt]) (hend x hx)

theorem cleanRun_cons (hc : m.Clean a) (hs : m.step a = some m') (hr : m'.CleanRun as) : m.CleanRun (a :: as) := by
  refine ⟨hc, fun mid hmid => ?_⟩
  cases (hs.symm.trans hmid)
  exact hr

end Machine

/-- `main` of one temp sends `mk`, which answers a block. -/
def mkBlock : List Action :=
  let main : CompiledMethod := ⟨0, 1, false, false, false⟩
  let mk : CompiledMethod := ⟨0, 0, false, false, false⟩
  let blk : CompiledMethod := ⟨0, 0, true, false, false⟩
  [.enter, .push .nil, .activateEntry main, .push .nil, .send mk 0, .pushClosure blk 0,
    .doReturn (.closure 0), .tick, .tick]

namespace Machine

theorem homeIsLive_exact_mkBlock : ∃ (m : Machine) (cl : Closure),
    (start none).run mkBlock = some m ∧ m.vm.closures[0]? = some cl ∧ (m.vm.homeIsLive (unpackHomeRef cl.home) = true ↔
        m.vm.HomeOnChain 0 (unpackHomeRef cl.home)) := by
  refine ⟨_, _, rfl, rfl, @homeIsLive_exact _ none mkBlock rfl ?_ 0 _ rfl⟩
  unfold mkBlock
  repeat
    refine cleanRun_cons (clean_of_homes_live rfl (by decide)) rfl ?_
  trivial

/-- `mk` has returned, and `main` has the block and its own operands for another send above the
receiver: a 1 comes to lie where `mk` had its serial, which was 1. -/
theorem returned_home_passes : ∃ (m : Machine) (cl : Closure),
    (start none).run (mkBlock ++ [.setTemp 0 (.closure 0), .push .nil, .push .nil, .push .nil,
      .push .nil, .push .nil, .push (.smi 1), .push .nil, .push (.closure 0)]) = some m ∧
      m.vm.closures[0]? = some cl ∧ m.vm.homeIsLive (unpackHomeRef cl.home) = true ∧
      ¬ m.vm.HomeOnChain 0 (unpackHomeRef cl.home) := by
  refine ⟨_, _, rfl, rfl, by decide, ?_⟩
  rintro ⟨a, ha, hid, -⟩
  revert a
  decide

end Machine

end WinArmVm.Process
