import WinArmVm.SnapshotCounts

namespace WinArmVm.ProfileGraph

open Bytecode List

def Block (g : ProfileGraph) (m blk : MethodOop) : Prop :=
  ∃ lit ncopied, .pushClosure lit ncopied ∈ g.instrs m ∧ g.literalMethod m lit.toNat = some blk

def Target (g : ProfileGraph) (isSuper : Bool) (m target : MethodOop) : Prop :=
  ∃ ic, .send ic isSuper ∈ g.instrs m ∧ target ∈ (g.vm.readSendSite m ic).targets

/-- The methods that many call and closure steps from the root. -/
inductive Within (g : ProfileGraph) (root : MethodOop) : Nat → MethodOop → Prop
  | root : Within g root 0 root
  | call {k : Nat} {m target : MethodOop} {isSuper : Bool} : Within g root k m → g.Target isSuper m target →
      Within g root (k + 1) target
  | closure {k : Nat} {m blk : MethodOop} : Within g root k m → g.Block m blk → Within g root (k + 1) blk

structure SameHeap (g g' : ProfileGraph) : Prop where
  image : VmState.SameImage g.vm g'.vm
  code : g'.code = g.code
  literalMethod : g'.literalMethod = g.literalMethod
  methods : g'.methods = g.methods

structure Drifted (g g' : ProfileGraph) : Prop extends SameHeap g g' where
  sites : ∀ m ic, (g'.vm.ics m ic).uncounted = (g.vm.ics m ic).uncounted

structure Rewired (g g' : ProfileGraph) (m : MethodOop) (ic : Nat) : Prop extends SameHeap g g' where
  others : ∀ m' ic', m' ≠ m ∨ ic' ≠ ic → (g'.vm.ics m' ic').uncounted = (g.vm.ics m' ic').uncounted
  state : (g'.vm.ics m ic).icState.tag ≠ (g.vm.ics m ic).icState.tag

/-- The snapshot covers the graft reach: the state of every send site in reach is in its stream, and no
call count is. -/
structure SnapshotCovers (g : ProfileGraph) (root : MethodOop) : Prop where
  state : ∀ k m, k ≤ graftSnapshotDepth → g.Within root k m → ∀ ic isSuper, .send ic isSuper ∈ g.instrs m →
    ∀ g', g.Rewired g' m ic → g'.snapshotStream root ≠ g.snapshotStream root
  counts : ∀ g', g.Drifted g' → g'.snapshotStream root = g.snapshotStream root

/-- Where the depth-first order gets to: the root, the literal blocks of the methods it meets, and the
targets of those it first meets below the graft depth. -/
def Covered (g : ProfileGraph) (root m : MethodOop) : Prop := m = root ∨ ∃ out, g.order root = some out ∧
    ∃ p ∈ out, g.Block p.1 m ∨ p.2 < graftSnapshotDepth ∧ g.Target false p.1 m

variable {g g' : ProfileGraph} {root m : MethodOop}

theorem mem_children {depth : Nat} {c : MethodOop} :
    c ∈ g.children m depth ↔ g.Block m c ∨ depth < graftSnapshotDepth ∧ g.Target false m c := by
  unfold children Block Target
  rw [mem_flatMap]
  constructor
  · rintro ⟨i, hi, hc⟩
    unfold CallSites.followed at hc
    split at hc
    next ic =>
      split at hc
      next hd => exact .inr ⟨hd, ic, hi, hc⟩
      next => cases hc
    next lit ncopied => exact .inl ⟨lit, ncopied, hi, Option.mem_toList.mp hc⟩
    next => cases hc
  · rintro (⟨lit, ncopied, hi, hc⟩ | ⟨hd, ic, hi, hc⟩)
    · exact ⟨_, hi, Option.mem_toList.mpr hc⟩
    · refine ⟨_, hi, ?_⟩
      unfold CallSites.followed
      dsimp only
      rwa [if_pos hd]

theorem visited_iff {out : List (MethodOop × Nat)} (hout : g.order root = some out) :
    m ∈ out.map Prod.fst ↔ g.Covered root m := by
  rw [DepthFirst.visit_met hout]
  unfold Covered
  constructor
  · rintro (rfl | ⟨q, hq, hc⟩)
    · exact .inl rfl
    · exact .inr ⟨out, hout, q, hq, mem_children.mp hc⟩
  · rintro (rfl | ⟨out', hout', q, hq, hc⟩)
    · exact .inl rfl
    · cases (hout.symm.trans hout')
      exact .inr ⟨q, hq, mem_children.mpr hc⟩

theorem SameHeap.decoded (h : g.SameHeap g') (m : MethodOop) : g'.decoded m = g.decoded m := by
  unfold CallSites.decoded
  rw [h.code]

theorem SameHeap.sameSites (h : g.SameHeap g') {i : Instr}
    (hi : ∀ ic, i = .send ic false → (g'.vm.ics m ic).uncounted = (g.vm.ics m ic).uncounted) :
    CallSites.SameSites g.toCallSites g'.toCallSites m i := by
  constructor
  · unfold CallSites.siteBytes
    split
    next ic => rw [IcShape.uncounted_tag (hi ic rfl)]
    next => rfl
  · intro depth
    unfold CallSites.followed
    split
    next ic => rw [h.image.targets (g.distinct m ic) (g'.distinct m ic) (hi ic rfl)]
    next => rw [h.literalMethod]
    next => rfl

theorem SameHeap.stream_eq (h : g.SameHeap g') (root : MethodOop)
    (hi : ∀ m ic, .send ic false ∈ g.instrs m → (g'.vm.ics m ic).uncounted = (g.vm.ics m ic).uncounted) :
    g'.snapshotStream root = g.snapshotStream root := by
  unfold snapshotStream
  rw [h.methods, CallSites.snapshotInto_congr h.decoded]
  intro m _ i hmem
  exact h.sameSites fun ic he => hi m ic (he ▸ hmem)

theorem Drifted.stream_eq (h : g.Drifted g') (root : MethodOop) : g'.snapshotStream root = g.snapshotStream root :=
  h.toSameHeap.stream_eq root fun m ic _ => h.sites m ic

variable {ic : Nat}

theorem Rewired.oneSite (h : g.Rewired g' m ic) : CallSites.OneSite g.toCallSites g'.toCallSites m ic := by
  refine ⟨h.decoded, fun m' i hne => h.sameSites fun ic' he => h.others m' ic' ?_, h.state⟩
  rcases hne with hm | hi
  · exact .inl hm
  · exact .inr fun hic => hi (hic ▸ he)

theorem Rewired.stream_ne_iff (h : g.Rewired g' m ic) (hroot : root ∈ g.methods) :
    g'.snapshotStream root ≠ g.snapshotStream root ↔ .send ic false ∈ g.instrs m ∧ g.Covered root m := by
  constructor
  · intro hne
    have hsite : .send ic false ∈ g.instrs m := by
      by_contra hsite
      refine hne (h.toSameHeap.stream_eq root fun m' ic' hmem => h.others m' ic' ?_)
      by_contra hsame
      rw [not_or, not_not, not_not] at hsame
      rw [hsame.1, hsame.2] at hmem
      exact hsite hmem
    obtain ⟨w, hw, hs, out, hout, hv⟩ := g.snapshot_total hroot
    obtain ⟨w', hw', hs', _⟩ := g'.snapshot_total (h.methods ▸ hroot)
    rw [h.methods] at hw'
    rcases h.oneSite.parted hsite _ _ _ _ _ _ _ (.inl ⟨rfl, not_mem_nil⟩) hw hw' with ⟨he, _⟩ | ⟨hm, _⟩
    · rw [hs, hs', he] at hne
      exact absurd rfl hne
    · rw [hv, visited_iff hout] at hm
      exact ⟨hsite, hm⟩
  · rintro ⟨hsite, hcov⟩ he
    obtain ⟨w, hw, hs, out, hout, hv⟩ := g.snapshot_total hroot
    obtain ⟨w', hw', hs', _⟩ := g'.snapshot_total (h.methods ▸ hroot)
    rw [h.methods] at hw'
    rcases h.oneSite.parted hsite _ _ _ _ _ _ _ (.inl ⟨rfl, not_mem_nil⟩) hw hw' with ⟨_, hm⟩ | ⟨_, hd⟩
    · rw [hv, visited_iff hout] at hm
      exact hm hcov
    · rw [hs, hs'] at he
      exact hd.ne (Option.some.inj he).symm

def restated (ic : InterpreterIc) : InterpreterIc :=
  if ic.icState = .mega then ic.setEmpty else ic.setMega

theorem tag_mega {s : IcState} (h : s ≠ .mega) : IcState.tag .mega ≠ s.tag := by
  cases s with
  | mega => exact absurd rfl h
  | empty => decide
  | mono => decide
  | poly arity => exact (by decide : (3 : UInt8) ≠ 2)

variable (ic : InterpreterIc)

theorem restated_tag : (restated ic).icState.tag ≠ ic.icState.tag := by
  unfold restated
  split
  next h =>
    rw [h]
    exact (tag_mega (s := .empty) (fun h => by cases h)).symm
  next h => exact tag_mega h

theorem restated_shape : (restated ic).shape = .empty ∨ (restated ic).shape = .mega := by
  unfold restated
  split
  next => exact .inl rfl
  next => exact .inr rfl

def restateIn (vm : VmState) (m : MethodOop) (ic : Nat) : VmState := vm.setIc m ic (restated (vm.ics m ic))

variable (g : ProfileGraph) (vm : VmState) (m : MethodOop)

theorem restateIn_self (ic : Nat) : (restateIn vm m ic).ics m ic = restated (vm.ics m ic) := by
  unfold restateIn
  rw [VmState.setIc_ics, if_pos ⟨rfl, rfl⟩]

theorem restateIn_other {m m' : MethodOop} {ic ic' : Nat} (h : ¬ (m' = m ∧ ic' = ic)) :
    (restateIn vm m ic).ics m' ic' = vm.ics m' ic' := by
  unfold restateIn
  rw [VmState.setIc_ics, if_neg h]

theorem restateIn_image (ic : Nat) : VmState.SameImage vm (restateIn vm m ic) := ⟨rfl, rfl, rfl⟩

theorem restateIn_distinct (m m' : MethodOop) (ic ic' : Nat) (pairs : PolyPairs)
    (hs : ((restateIn g.vm m ic).ics m' ic').shape = .poly pairs) : (pairs.arms.map PolyArm.klass).Nodup := by
  by_cases h : m' = m ∧ ic' = ic
  · obtain ⟨rfl, rfl⟩ := h
    rw [restateIn_self] at hs
    rcases restated_shape (g.vm.ics m' ic') with he | he
    · rw [he] at hs
      cases hs
    · rw [he] at hs
      cases hs
  · rw [restateIn_other _ h] at hs
    exact g.distinct m' ic' pairs hs

theorem restateIn_targets {m m' target : MethodOop} {ic ic' : Nat}
    (h : target ∈ ((restateIn g.vm m ic).readSendSite m' ic').targets) :
    target ∈ (g.vm.readSendSite m' ic').targets := by
  by_cases he : m' = m ∧ ic' = ic
  · obtain ⟨rfl, rfl⟩ := he
    have hnone : ((restateIn g.vm m' ic').readSendSite m' ic').targets = [] := by
      unfold VmState.readSendSite
      dsimp only
      rw [restateIn_self]
      rcases restated_shape (g.vm.ics m' ic') with hs | hs
      · rw [hs]
        rfl
      · rw [hs]
        rfl
    rw [hnone] at h
    cases h
  · rwa [(restateIn_image g.vm m ic).targets (g.distinct m' ic') (restateIn_distinct g m m' ic ic')
      (by rw [restateIn_other _ he])] at h

def restate (g : ProfileGraph) (m : MethodOop) (ic : Nat) : ProfileGraph where
  vm := restateIn g.vm m ic
  code := g.code
  literalMethod := g.literalMethod
  methods := g.methods
  decodes := g.decodes
  distinct m' ic' := restateIn_distinct g m m' ic ic'
  closed := by
    intro m' hm' i hi target ht
    refine g.closed m' hm' i hi target ?_
    unfold CallSites.followed at ht ⊢
    split at ht
    next ic' =>
      split at ht
      next hd =>
        rw [if_pos hd]
        exact restateIn_targets g ht
      next => cases ht
    next => exact ht
    next => cases ht

theorem restate_rewired (ic : Nat) : g.Rewired (g.restate m ic) m ic := by
  refine ⟨⟨restateIn_image g.vm m ic, rfl, rfl, rfl⟩, ?_, ?_⟩
  · intro m' ic' h
    have hne : ¬ (m' = m ∧ ic' = ic) := fun he => h.elim (fun h => h he.1) (fun h => h he.2)
    exact congrArg _ (restateIn_other g.vm hne)
  · have h : (g.restate m ic).vm.ics m ic = restated (g.vm.ics m ic) := restateIn_self g.vm m ic
    rw [h]
    exact restated_tag _

/-- The snapshot covers the reach exactly when no send site within it is a super send's or stands in a
method the depth-first order leaves out. -/
theorem snapshot_covers_iff (g : ProfileGraph) {root : MethodOop} (hroot : root ∈ g.methods) :
    g.SnapshotCovers root ↔ ∀ k m, k ≤ graftSnapshotDepth → g.Within root k m → ∀ ic isSuper,
      .send ic isSuper ∈ g.instrs m → .send ic false ∈ g.instrs m ∧ g.Covered root m := by
  constructor
  · intro h k m hk hw ic isSuper hi
    have hr := g.restate_rewired m ic
    exact (hr.stream_ne_iff hroot).mp (h.state k m hk hw ic isSuper hi _ hr)
  · intro h
    constructor
    · intro k m hk hw ic isSuper hi g' hr
      exact (hr.stream_ne_iff hroot).mpr (h k m hk hw ic isSuper hi)
    · exact fun g' hd => hd.stream_eq root

def monoSites (calls : MethodOop → Nat → Option MethodOop) : VmState :=
  { VmState.boot (.flat fun _ => ⟨8⟩) (fun _ _ => (⟨8⟩, 0)) none with
    ics := fun m ic => ⟨⟨8⟩, 0, 0, match calls m ic with
      | some target => .mono ⟨target.raw⟩ target
      | none => .empty⟩ }

theorem monoSites_distinct (calls : MethodOop → Nat → Option MethodOop) (m : MethodOop) (ic : Nat)
    (pairs : PolyPairs) (h : ((monoSites calls).ics m ic).shape = .poly pairs) :
    (pairs.arms.map PolyArm.klass).Nodup := by
  unfold monoSites at h
  dsimp only at h
  split at h
  next => cases h
  next => cases h

def recursive : ProfileGraph where
  vm := monoSites fun _ _ => some ⟨8⟩
  code := fun _ => [0x20, 0]
  literalMethod := fun _ _ => none
  methods := [⟨8⟩]
  decodes := by decide +kernel
  closed := by decide +kernel
  distinct := monoSites_distinct _

theorem snapshot_covers_recursive : recursive.SnapshotCovers ⟨8⟩ := by
  refine (snapshot_covers_iff recursive (by decide)).mpr ?_
  intro k m _ hw ic isSuper hi
  have hm : m = ⟨8⟩ := by
    cases hw with
    | root => rfl
    | call _ ht =>
      obtain ⟨_, _, ht⟩ := ht
      exact mem_singleton.mp ht
    | closure _ hb =>
      obtain ⟨_, _, _, hb⟩ := hb
      cases hb
  subst hm
  have hone : recursive.instrs ⟨8⟩ = [.send 0 false] := by decide +kernel
  refine ⟨?_, .inl rfl⟩
  rw [hone] at hi ⊢
  cases mem_singleton.mp hi
  exact mem_singleton_self _

def shortcut : ProfileGraph where
  vm := monoSites fun m ic => match m.raw, ic with
    | 8, 1 => some ⟨40⟩
    | raw, _ => if raw < 48 then some ⟨raw + 8⟩ else none
  code := fun m => if m.raw = 8 then [0x20, 0, 0x20, 1] else [0x20, 0]
  literalMethod := fun _ _ => none
  methods := [⟨8⟩, ⟨16⟩, ⟨24⟩, ⟨32⟩, ⟨40⟩, ⟨48⟩]
  decodes := by decide +kernel
  closed := by decide +kernel
  distinct := monoSites_distinct _

/-- The sixth method is two calls from the first, and its site is not in the stream: the fifth was first
met at the graft depth, and is not followed when it is met again. -/
theorem shortcut_not_covered : ¬ ∀ (g : ProfileGraph) (root : MethodOop), root ∈ g.methods → g.SnapshotCovers root := by
  intro hclaim
  have h := hclaim shortcut ⟨8⟩ (by decide)
  have hfifth : shortcut.Target false ⟨8⟩ ⟨40⟩ := ⟨1, by decide +kernel, by decide +kernel⟩
  have hsixth : shortcut.Target false ⟨40⟩ ⟨48⟩ := ⟨0, by decide +kernel, by decide +kernel⟩
  refine h.state 2 ⟨48⟩ (by decide) (.call (.call .root hfifth) hsixth) 0 false (by decide +kernel) _ (shortcut.restate_rewired ⟨48⟩ 0) ?_
  decide +kernel

end WinArmVm.ProfileGraph
