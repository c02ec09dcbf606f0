import WinArmVm.ControlFlowExact

namespace WinArmVm.BytecodeBuilder

open List Option Bytecode

variable {Obj Sel : Type} {checked : Bool} {its : List (BuilderItem Obj Sel)} {cs : List (BuilderCall Obj Sel)}
  {b : BytecodeBuilder Obj Sel}
  {m : BytecodeMethod Obj Sel} {argc ntemps : Nat} {selector : Sel}

theorem Chain.unique {p q q' : Nat} (h : Chain p its q) (h' : Chain p its q') : q = q' := by
  induction its generalizing p with
  | nil => exact Eq.trans (Eq.symm h) h'
  | cons it its ih => exact ih h.2.2 h'.2.2

theorem steps_place {b b' : BytecodeBuilder Obj Sel}
    (hlaid : b.Laid its) (hrun : b.run checked cs = some b') : ∀ s ∈ b.steps checked cs,
    s.1.code.length = b'.code.length ∨
      ∃ s' ∈ (b.steps checked cs).filter (fun s => s.2.emits), s'.1.code.length = s.1.code.length := by
  induction cs generalizing b its with
  | nil => exact fun s hs => nomatch hs
  | cons c cs ih =>
    obtain ⟨b₁, hcall, hrest⟩ := bind_eq_some_iff.mp hrun
    obtain ⟨-, hlaid₁⟩ := hlaid.call hcall
    have hsteps : b.steps checked (c :: cs) = (b, c) :: b₁.steps checked cs := by
      rw [steps, hcall]
    have hlater : ∀ s ∈ b₁.steps checked cs, s.1.code.length = b'.code.length ∨
        ∃ s' ∈ (b.steps checked (c :: cs)).filter (fun s => s.2.emits), s'.1.code.length = s.1.code.length := by
      intro s hs
      obtain hend | ⟨s', hs', hplace⟩ := ih hlaid₁ hrest s hs
      · exact .inl hend
      · obtain ⟨hmem, hemits⟩ := mem_filter.mp hs'
        rw [hsteps]
        exact .inr ⟨s', mem_filter.mpr ⟨mem_cons_of_mem _ hmem, hemits⟩, hplace⟩
    intro s hs
    rw [hsteps] at hs
    obtain rfl | hs := mem_cons.mp hs
    · cases hemits : c.emits with
      | true =>
        rw [hsteps]
        exact .inr ⟨(b, c), mem_filter.mpr ⟨mem_cons_self, hemits⟩, rfl⟩
      | false =>
        -- the call leaves the code as long as it was; the next call is made at the same place
        have hsame : b₁.code.length = b.code.length := by
          have hchain := hlaid₁.chain
          unfold itemOf at hchain
          rw [if_neg (by rw [hemits]; exact Bool.false_ne_true), append_nil] at hchain
          exact hchain.unique hlaid.chain
        cases cs with
        | nil =>
          cases hrest
          exact .inl hsame.symm
        | cons c' cs =>
          have hfirst : (b₁, c') ∈ b₁.steps checked (c' :: cs) := mem_cons_self
          have hat := hlater (b₁, c') hfirst
          rw [hsame] at hat
          exact hat
    · exact hlater s hs

theorem finish_last (h : b.finish checked selector argc ntemps = some m) :
    b.code ≠ [] ∧ ∃ last, (decodeAll b.code).bind List.getLast? = some last ∧ isReturn last.2.1 = true := by
  obtain ⟨-, h⟩ := ite_none_left_eq_some.mp h
  obtain ⟨-, h⟩ := ite_none_left_eq_some.mp h
  obtain ⟨-, h⟩ := ite_none_left_eq_some.mp h
  obtain ⟨-, h⟩ := ite_none_left_eq_some.mp h
  obtain ⟨hne, h⟩ := ite_none_left_eq_some.mp h
  split at h
  next => cases h
  next last hlast =>
    split at h
    next hreturn => exact ⟨hne, last, hlast, hreturn⟩
    next => cases h

theorem straight_leaders {c : BuilderCall Obj Sel} {op : Opcode} {operand : List UInt8} {i : Instr} {next : Nat}
    (h : c.straight = some (op, operand, i)) : ∀ l ∈ Cfg.leadersOf next i, l = next := by
  cases c <;> cases h <;> simp [Cfg.leadersOf]

theorem leadersOf_fwdJump (kind : FwdJump) (next d : Nat) : Cfg.leadersOf next (kind.instr d) = [next + d, next] := by
  cases kind <;> rfl

theorem finish_formed (hrun : new.run checked cs = some b)
    (hfinish : b.finish checked selector argc ntemps = some m) : ∃ walk, Cfg.Formed m.code walk := by
  obtain ⟨hbound, hcode, -, -⟩ := finish_spec hfinish
  obtain ⟨hne, last, hlast, hreturn⟩ := finish_last hfinish
  obtain ⟨-, its, hlaid, hits⟩ := run_laid laid_new hrun
  rw [nil_append] at hlaid
  have hturns : its.length < b.code.length + 1 := by
    have := hlaid.chain.length_le
    omega
  obtain ⟨walk, hwalk, hall⟩ := decodeFrom_chain hlaid.chain (hlaid.settled hbound) hturns
  have hdecoded : decodeAll b.code = some walk := hwalk
  rw [hdecoded, bind_some] at hlast
  have hthread := Cfg.decodeFrom_threaded (Nat.zero_le _) hwalk
  rw [hcode]
  -- each place a call was made at is an instruction or the end
  have hplace : ∀ s ∈ (new : BytecodeBuilder Obj Sel).steps checked cs,
      s.1.code.length = b.code.length ∨ ∃ r ∈ walk, r.1 = s.1.code.length := by
    intro s hs
    obtain hend | ⟨s', hs', hat⟩ := steps_place laid_new hrun s hs
    · exact .inl hend
    · rw [← hits] at hs'
      obtain ⟨it, hit, rfl⟩ := mem_map.mp hs'
      obtain ⟨i, hi, rfl⟩ := mem_iff_getElem.mp hit
      have hi' : i < walk.length := by rw [← hall.length_eq]; exact hi
      have hr := (hall.get hi hi').1
      rw [get_eq_getElem, get_eq_getElem] at hr
      exact .inr ⟨walk[i], getElem_mem hi', hr.trans hat⟩
  have hlabel : ∀ l t : Nat, b.labels[l]? = some (LabelState.bound t) → t = b.code.length ∨ ∃ r ∈ walk, r.1 = t := by
    intro l t hl
    obtain hnew | hfound := find_binding laid_new hrun hl
    · simp [new] at hnew
    · obtain ⟨s, hs, rfl⟩ := map_eq_some_iff.mp hfound
      exact hplace s (mem_of_find?_eq_some hs)
  refine ⟨walk, hne, hdecoded, ?_, ?_⟩
  · intro r hr l hl
    have hfollows : l = r.2.2 → l = b.code.length ∨ ∃ r' ∈ walk, r'.1 = l := by
      rintro rfl
      exact hthread.follows r hr
    obtain ⟨i, hi', rfl⟩ := mem_iff_getElem.mp hr
    have hi : i < its.length := by rw [hall.length_eq]; exact hi'
    obtain ⟨-, hnext, hreads, bytes, hdec⟩ := hall.get hi hi'
    rw [get_eq_getElem] at hnext hreads hdec
    rw [get_eq_getElem] at hnext hreads hdec
    generalize walk[i] = r at *
    generalize its[i] = it at *
    have hpos : it.pos = it.before.code.length := rfl
    generalize hcall : it.call = call at hreads
    generalize hinstr : r.2.1 = instr at hreads hl hdec
    cases hreads with
    | straight hstraight => exact hfollows (straight_leaders hstraight l hl)
    | literal _ _ => cases hl
    | global _ _ => cases hl
    | storeGlobal _ _ => cases hl
    | closure _ => cases hl
    | send _ => cases hl
    | sendSuper _ => cases hl
    | @fwdJump kind label target hbound hle =>
      have hwidth := decode_jump_width hdec (.inl ⟨kind, _, rfl⟩)
      rw [leadersOf_fwdJump] at hl
      obtain rfl | hl := mem_cons.mp hl
      · have htarget : r.2.2 + (target - (it.before.code.length + 3)) = target := by omega
        rw [htarget]
        exact hlabel label target hbound
      · exact hfollows (mem_singleton.mp hl)
    | @jumpBack label target hbound hle =>
      have hwidth := decode_jump_width hdec (.inr ⟨_, rfl⟩)
      obtain rfl | hl := mem_cons.mp hl
      · have htarget : r.2.2 - (it.before.code.length + 3 - target) = target := by omega
        rw [htarget]
        exact hlabel label target hbound
      · exact hfollows (mem_singleton.mp hl)
  · intro r hr hend tos
    have hlastmem := mem_of_getLast? hlast
    have hlastend : last.2.2 = b.code.length := by
      obtain ⟨front, rfl⟩ := List.getLast?_eq_some_iff.mp hlast
      obtain ⟨e, -, -, -, -, hstop⟩ := hthread.append
      exact hstop
    have hbounds := hthread.bounds r hr
    have hlastbounds := hthread.bounds last hlastmem
    obtain rfl | hbefore | hafter := hthread.disjoint r hr last hlastmem
    · revert hreturn
      cases r.2.1 <;> simp [isReturn, Instr.flow]
    · omega
    · omega

/-- The decoder makes the blocks of every method the builder finishes, unless a jump leads past its last instruction. -/
theorem decode_exact {cs : List (BuilderCall Obj Sel)} {b : BytecodeBuilder Obj Sel} {m : BytecodeMethod Obj Sel}
    {selector : Sel} {argc ntemps : Nat} (hrun : new.run checked cs = some b)
    (hfinish : b.finish checked selector argc ntemps = some m) :
    ∃ walk, decodeAll m.code = some walk ∧ (Cfg.decode m.code = none ↔ Cfg.JumpsOut m.code walk) ∧
      ∀ cfg, Cfg.decode m.code = some cfg → Cfg.Exact m.code walk cfg := by
  obtain ⟨walk, hformed⟩ := finish_formed hrun hfinish
  exact ⟨walk, hformed.decoded, hformed.decode_none, fun _ hd => hformed.exact hd⟩

def countLoop : List (BuilderCall Nat Nat) :=
  [.newLabel, .newLabel, .bind 0, .pushTrue, .fwdJump .brFalse 1, .pushSmiI8 1, .pop, .jumpBack 0, .bind 1, .retSelf]

theorem decode_exact_loop : ∃ b m walk cfg, new.run true countLoop = some b ∧ b.finish true 3 0 0 = some m ∧
    decodeAll m.code = some walk ∧ Cfg.decode m.code = some cfg ∧ Cfg.Exact m.code walk cfg ∧
    cfg.blocks = [⟨0, 4, true, .branch 1 2⟩, ⟨4, 10, false, .jump 0 true⟩, ⟨10, 11, false, .return⟩] := by
  obtain ⟨b, hrun⟩ : ∃ b, new.run true countLoop = some b := ⟨_, rfl⟩
  have hsome : ((new.run true countLoop).bind fun b => b.finish true 3 0 0).isSome = true := by decide +kernel
  have hcfg : (((new.run true countLoop).bind fun b => b.finish true 3 0 0).bind fun m => Cfg.decode m.code) =
      some ⟨[⟨0, 4, true, .branch 1 2⟩, ⟨4, 10, false, .jump 0 true⟩, ⟨10, 11, false, .return⟩]⟩ := by decide +kernel
  obtain ⟨m, hm⟩ := isSome_iff_exists.mp hsome
  rw [hm, bind_some] at hcfg
  rw [hrun, bind_some] at hm
  obtain ⟨walk, hwalk, -, hexact⟩ := decode_exact hrun hm
  exact ⟨b, m, walk, _, hrun, hm, hwalk, hcfg, hexact _ hcfg, rfl⟩

def jumpPastEnd : List (BuilderCall Nat Nat) := [.newLabel, .pushTrue, .fwdJump .brTrue 0, .retSelf, .bind 0]

theorem decode_panics_past_end : ¬ ∀ (cs : List (BuilderCall Nat Nat)) b m, new.run true cs = some b →
    b.finish true 3 0 0 = some m → ∃ cfg, Cfg.decode m.code = some cfg := by
  intro h
  obtain ⟨b, hrun⟩ : ∃ b, new.run true jumpPastEnd = some b := ⟨_, rfl⟩
  have hsome : ((new.run true jumpPastEnd).bind fun b => b.finish true 3 0 0).isSome = true := by decide +kernel
  have hnone : (((new.run true jumpPastEnd).bind fun b => b.finish true 3 0 0).bind fun m => Cfg.decode m.code) = none := by
    decide +kernel
  obtain ⟨m, hm⟩ := isSome_iff_exists.mp hsome
  rw [hm, bind_some] at hnone
  rw [hrun, bind_some] at hm
  obtain ⟨cfg, hcfg⟩ := h jumpPastEnd b m hrun hm
  rw [hnone] at hcfg
  cases hcfg

end WinArmVm.BytecodeBuilder
