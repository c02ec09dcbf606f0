import WinArmVm.InlineCacheRuns

namespace WinArmVm

open List Option Function

/-- What the lookup answered, for every key, when the nmethod in a slot was installed. -/
abbrev CompiledUnder := NmethodId → KlassOop → SymbolOop → Option MethodOop

namespace Nmethod

def assumptions (nm : Nmethod) : List (KlassOop × SymbolOop) := (nm.keyKlass, nm.keySelector) :: nm.inlineDeps

end Nmethod

namespace VmState

/-- Histories of a VM: methods are installed anywhere in the hierarchy, any code is installed, retired and
flushed, a record is relinked, and whatever else happens leaves klasses, dictionaries and records alone. -/
inductive DepsReach : VmState → CompiledUnder → Prop
  | boot (image : Image) (sites : MethodOop → Nat → SymbolOop × Nat) (jit : Option Nat) (under : CompiledUnder) :
      DepsReach (boot image sites jit) under
  | install {vm vm' : VmState} {under : CompiledUnder} {k : KlassOop} {sel : SymbolOop} {m : MethodOop} :
      DepsReach vm under → vm.installMethod k sel m = some vm' → DepsReach vm' under
  | compile {vm : VmState} {under : CompiledUnder} {nm : Nmethod} : DepsReach vm under → nm.state = .alive →
      DepsReach { vm with codeTable := (vm.codeTable.install nm).2 }
        (Function.update under vm.codeTable.freeSlot vm.lookupUncached)
  | retire {vm : VmState} {under : CompiledUnder} (id : NmethodId) : DepsReach vm under → DepsReach (vm.retire id) under
  | flush {vm : VmState} {under : CompiledUnder} (id : NmethodId) : DepsReach vm under →
      DepsReach { vm with codeTable := vm.codeTable.flush id } under
  | relink {vm : VmState} {under : CompiledUnder} (id : NmethodId) (f : Nmethod → Nmethod) : DepsReach vm under →
      (∀ nm, (f nm).keyKlass = nm.keyKlass ∧ (f nm).keySelector = nm.keySelector ∧ (f nm).state = nm.state ∧
        (f nm).blockMethod = nm.blockMethod ∧ (f nm).inlineDeps = nm.inlineDeps) →
      DepsReach { vm with codeTable := vm.codeTable.modify id f } under
  | other {vm vm' : VmState} {under : CompiledUnder} : DepsReach vm under → vm'.image = vm.image →
      vm'.methods = vm.methods → vm'.codeTable = vm.codeTable → DepsReach vm' under

structure Assumed (vm : VmState) (under : CompiledUnder) : Prop where
  dicts : vm.DictsValid
  table : vm.codeTable.Wf
  holds : ∀ id nm, vm.codeTable.slots id = some nm → nm.state = .alive →
    ∀ dep ∈ nm.assumptions, vm.lookupUncached dep.1 dep.2 = under id dep.1 dep.2

variable {vm vm' : VmState} {under : CompiledUnder} {k : KlassOop} {sel : SymbolOop} {m : MethodOop}

theorem lookup_off_chain (hown : ∀ s x, vm'.ownMethod s x = if x = k ∧ s = sel then some m else vm.ownMethod s x)
    (himage : vm'.image = vm.image) {dep : KlassOop × SymbolOop}
    (hd : ¬ (dep.2 = sel ∧ vm.superchainContains dep.1 k = true)) :
    vm'.lookupUncached dep.1 dep.2 = vm.lookupUncached dep.1 dep.2 := by
  unfold lookupUncached
  rw [himage]
  apply Forest.firstOn_congr
  intro b hb
  rw [hown]
  split
  next hc =>
    obtain ⟨rfl, hs⟩ := hc
    exact absurd ⟨hs, hb⟩ hd
  next => rfl

variable {id : NmethodId} {holder : KlassOop} {t : CodeTable} {nm : Nmethod}

theorem not_dependsOn (hd : vm.dependsOn nm holder sel = false) :
    ∀ dep ∈ nm.assumptions, ¬ (dep.2 = sel ∧ vm.superchainContains dep.1 holder = true) := by
  unfold dependsOn at hd
  obtain ⟨hkey, hdeps⟩ := Bool.or_eq_false_iff.mp hd
  intro dep hdep hc
  obtain ⟨hsel, hchain⟩ := hc
  rcases mem_cons.mp hdep with rfl | hdep
  · rw [hchain, Bool.and_true] at hkey
    exact of_decide_eq_false hkey hsel
  · have hno := any_eq_false.mp hdeps dep hdep
    rw [hchain, Bool.and_true] at hno
    exact hno (decide_eq_true hsel)

theorem affectedByInstall_nodup (vm : VmState) (holder : KlassOop) (sel : SymbolOop) :
    (vm.affectedByInstall holder sel).Nodup := by
  unfold affectedByInstall
  apply List.Nodup.filter
  apply List.Nodup.map _ nodup_range
  intro i j h
  exact congrArg NmethodId.index h

theorem affectedByInstall_alive (h : id ∈ vm.affectedByInstall holder sel) :
    ∃ nm, vm.codeTable.slots id = some nm ∧ nm.state = .alive := by
  obtain ⟨_, hid⟩ := mem_filter.mp h
  obtain ⟨nm, hs, hnm⟩ := (any_eq_true _ _).mp hid
  exact ⟨nm, hs, of_decide_eq_true ((Bool.and_eq_true _ _).mp hnm).1⟩

theorem retired_other {ids : List NmethodId} (h : id ∉ ids) :
    (ids.foldl CodeTable.setNotEntrant t).slots id = t.slots id := by
  induction ids generalizing t with
  | nil => rfl
  | cons first rest ih =>
    rw [foldl_cons, ih fun hm => h (mem_cons_of_mem first hm), CodeTable.setNotEntrant_slots,
      if_neg fun (e : id = first) => h (mem_cons.mpr (.inl e))]

theorem retired_once {before after : List NmethodId}
    (hnodup : (before ++ id :: after).Nodup) (hs : t.slots id = some nm) :
    (before.foldl CodeTable.setNotEntrant t).slots id = some nm ∧
      (((before ++ id :: after)).foldl CodeTable.setNotEntrant t).slots id =
        some { nm with state := .notEntrant } := by
  obtain ⟨_, htail, hapart⟩ := nodup_append.mp hnodup
  obtain ⟨hafter, _⟩ := nodup_cons.mp htail
  have hbefore : id ∉ before := fun hm => hapart id hm id mem_cons_self rfl
  have hturn : (before.foldl CodeTable.setNotEntrant t).slots id = some nm := by
    rw [retired_other hbefore, hs]
  refine ⟨hturn, ?_⟩
  rw [foldl_append, foldl_cons, retired_other hafter, CodeTable.setNotEntrant_slots, if_pos rfl, hturn, map_some]

theorem Assumed.installMethod (h : vm.Assumed under) (hi : vm.installMethod k sel m = some vm') :
    vm'.Assumed under ∧ ∀ id nm, vm.codeTable.slots id = some nm → nm.state = .alive →
      id ∉ vm.affectedByInstall k sel → vm'.codeTable.slots id = some nm := by
  obtain ⟨vm₁, he, hdicts, hown⟩ := installMethod_spec h.dicts k sel m
  rw [hi] at he
  cases he
  obtain ⟨dict, _, hi⟩ := bind_eq_some_iff.mp hi
  cases hi
  refine ⟨⟨hdicts, retired_wf h.table _, ?_⟩, ?_⟩
  · intro id nm hs ha dep hdep
    obtain ⟨hold, hnot⟩ := retired_slots hs ha
    have hd : vm.dependsOn nm k sel = false := by
      by_contra hd
      exact hnot (mem_affectedByInstall h.table hold ha (Bool.eq_true_of_not_eq_false hd))
    exact (lookup_off_chain hown rfl (not_dependsOn hd dep hdep)).trans (h.holds id nm hold ha dep hdep)
  · intro id nm hs ha hnot
    exact (retired_other hnot).trans hs

theorem DepsReach.assumed (h : DepsReach vm under) : vm.Assumed under := by
  induction h with
  | boot image sites jit under =>
    refine ⟨(boot_coherent image sites jit).dicts, CodeTable.new_wf, ?_⟩
    intro id nm hs
    cases hs
  | install _ hi ih => exact (ih.installMethod hi).1
  | @compile vm under nm _ ha ih =>
    refine ⟨ih.dicts, ih.table.install ha, ?_⟩
    intro id nm' hs ha' dep hdep
    change (vm.codeTable.install nm).2.slots id = some nm' at hs
    rw [CodeTable.install_slots] at hs
    split at hs
    next he =>
      cases hs
      rw [he, update_self]
      rfl
    next he =>
      rw [update_of_ne he]
      exact ih.holds id nm' hs ha' dep hdep
  | @retire vm under id _ ih =>
    refine ⟨ih.dicts, ih.table.setNotEntrant id, ?_⟩
    intro id' nm' hs ha' dep hdep
    have hs : ([id].foldl CodeTable.setNotEntrant vm.codeTable).slots id' = some nm' := hs
    obtain ⟨hold, _⟩ := retired_slots hs ha'
    exact ih.holds id' nm' hold ha' dep hdep
  | @flush vm under id _ ih =>
    refine ⟨ih.dicts, ih.table.flush id, ?_⟩
    intro id' nm' hs ha' dep hdep
    change (vm.codeTable.flush id).slots id' = some nm' at hs
    rw [CodeTable.flush_slots] at hs
    split at hs
    next => cases hs
    next => exact ih.holds id' nm' hs ha' dep hdep
  | @relink vm under id f _ hf ih =>
    refine ⟨ih.dicts, ?_, ?_⟩
    · exact ih.table.modify id (fun nm => (hf nm).1) (fun nm => (hf nm).2.1) (fun nm => (hf nm).2.2.1)
        fun nm => (hf nm).2.2.2.1
    · intro id' nm' hs ha' dep hdep
      change (vm.codeTable.modify id f).slots id' = some nm' at hs
      rw [CodeTable.modify_slots] at hs
      split at hs
      next he =>
        obtain ⟨nm, hold, rfl⟩ := map_eq_some_iff.mp hs
        obtain ⟨hklass, hsel, hstate, _, hdeps⟩ := hf nm
        rw [he]
        unfold Nmethod.assumptions at hdep
        rw [hklass, hsel, hdeps] at hdep
        exact ih.holds id nm hold (hstate ▸ ha') dep hdep
      next => exact ih.holds id' nm' hs ha' dep hdep
  | @other vm vm' under _ himage hmethods htable ih =>
    refine ⟨?_, htable ▸ ih.table, ?_⟩
    · intro x dict hx
      rw [hmethods] at hx
      rw [himage]
      exact ih.dicts x dict hx
    · intro id nm hs
      rw [htable] at hs
      rw [lookupUncached_congr himage hmethods]
      exact ih.holds id nm hs

/-- Invalidation is complete: an install retires each victim once, while it is live, and under every live
nmethod that is none, which stays as it is, all lookups it was compiled with answer what they did then. -/
theorem invalidation_complete (h : DepsReach vm under) (k : KlassOop) (sel : SymbolOop) (m : MethodOop) :
    ∃ vm', vm.installMethod k sel m = some vm' ∧
      (∀ id nm, vm.codeTable.get id = some nm → nm.state = .alive → id ∉ vm.affectedByInstall k sel →
        vm'.codeTable.get id = some nm ∧
          ∀ dep ∈ nm.assumptions, vm'.lookupUncached dep.1 dep.2 = under id dep.1 dep.2) ∧
      vm'.codeTable = (vm.affectedByInstall k sel).foldl CodeTable.setNotEntrant vm.codeTable ∧
      ∀ before id after, vm.affectedByInstall k sel = before ++ id :: after →
        ∃ nm, nm.state = .alive ∧ (before.foldl CodeTable.setNotEntrant vm.codeTable).get id = some nm ∧
          vm'.codeTable.get id = some { nm with state := .notEntrant } ∧ id ∉ before ∧ id ∉ after := by
  have ha := h.assumed
  obtain ⟨vm', hi, _⟩ := installMethod_spec ha.dicts k sel m
  obtain ⟨hassumed, hkept⟩ := ha.installMethod hi
  have htable : vm'.codeTable = (vm.affectedByInstall k sel).foldl CodeTable.setNotEntrant vm.codeTable := by
    obtain ⟨dict, _, hi⟩ := bind_eq_some_iff.mp hi
    cases hi
    rfl
  refine ⟨vm', hi, ?_, htable, ?_⟩
  · intro id nm hs halive hnot
    have hs' := hkept id nm hs halive hnot
    exact ⟨hs', hassumed.holds id nm hs' halive⟩
  · intro before id after hsplit
    have hnodup := affectedByInstall_nodup vm k sel
    have hid : id ∈ vm.affectedByInstall k sel := hsplit ▸ mem_append_right before mem_cons_self
    obtain ⟨nm, hs, halive⟩ := affectedByInstall_alive hid
    rw [hsplit] at hnodup
    obtain ⟨hturn, hafter⟩ := retired_once hnodup hs
    obtain ⟨_, htail, hapart⟩ := nodup_append.mp hnodup
    refine ⟨nm, halive, hturn, ?_, fun hm => hapart id hm id mem_cons_self rfl, (nodup_cons.mp htail).1⟩
    rw [htable, hsplit]
    exact hafter

def calleeCode : Nmethod where
  keyKlass := ⟨16⟩
  keySelector := ⟨40⟩
  ownsDynamicKey := true
  blockMethod := none
  method := ⟨64⟩
  state := .alive
  version := 0
  halfWarmOsr := false
  selfDevirt := false
  inlineDeps := [(⟨16⟩, ⟨24⟩)]
  icSites := []

/-- Code that has inlined a callee is installed, and then the callee is redefined. -/
theorem invalidation_complete_inlined :
    let vm : VmState := { boot (.flat fun _ => ⟨24⟩) (fun _ _ => (⟨24⟩, 0)) none with
      codeTable := (CodeTable.new.install calleeCode).2 }
    ∃ vm', vm.installMethod ⟨16⟩ ⟨24⟩ ⟨32⟩ = some vm' ∧ vm.affectedByInstall ⟨16⟩ ⟨24⟩ = [⟨0⟩] ∧
      vm'.codeTable.get ⟨0⟩ = some { calleeCode with state := .notEntrant } := by
  intro vm
  have hreach : DepsReach vm _ :=
    (DepsReach.boot (.flat fun _ => ⟨24⟩) (fun _ _ => (⟨24⟩, 0)) none fun _ _ _ => none).compile rfl
  have hvictims : vm.affectedByInstall ⟨16⟩ ⟨24⟩ = [⟨0⟩] := by decide
  obtain ⟨vm', hi, _, _, honce⟩ := invalidation_complete hreach ⟨16⟩ ⟨24⟩ ⟨32⟩
  obtain ⟨nm, _, hbefore, hafter, _⟩ := honce [] ⟨0⟩ [] hvictims
  have hnm : (CodeTable.new.install calleeCode).2.get ⟨0⟩ = some calleeCode := rfl
  cases (hnm.symm.trans hbefore)
  exact ⟨vm', hi, hvictims, hafter⟩

end VmState

end WinArmVm
