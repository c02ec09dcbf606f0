import WinArmVm.CodeSpaceFlush

namespace WinArmVm

open List Option

/-- What the VM does to its code between two moments: publishing a compile, linking
a call, a frame entered or left, an nmethod retired (eagerly or lazily), and code freed
by the weak sweep or by the zombie sweep. -/
inductive CodeAct
  | install (blob : CodeBlob) (sites : List NewSite)
  | resolve (caller : NmethodId) (idx : Nat) (k : KlassOop) (callee old : Choice)
  | repoint (caller : NmethodId) (idx : Nat) (k : KlassOop) (selector : SymbolOop) (id : NmethodId) (callee : Choice)
  | enter (id : NmethodId)
  | leave (id : NmethodId)
  | retire (id : NmethodId)
  | flush (id : NmethodId)
  | sweep

namespace CodeSpace

variable {s s' : CodeSpace}

def idleNotEntrant (s : CodeSpace) : List NmethodId := s.notEntrantIds.filter fun id => s.activations id = 0

/-- Both entries of a retired nmethod branch to `not_entrant_stub`, so a frame is
entered only for a live one; nothing that a frame runs is flushed. -/
def step (s : CodeSpace) : CodeAct → Option CodeSpace
  | .install blob sites => (s.install blob sites).map Prod.snd
  | .resolve caller idx k callee old => (s.rtResolveSend caller idx k callee old).map Prod.snd
  | .repoint caller idx k selector id callee => s.repointSite caller idx k selector id callee
  | .enter id => do
    let nm ← s.slots id
    if nm.state = .alive then pure (s.enter id) else none
  | .leave id => if 0 < s.activations id then some (s.leave id) else none
  | .retire id => do
    let nm ← s.slots id
    if nm.state = .alive then pure (s.makeNotEntrant id) else none
  | .flush id => if s.activations id = 0 then some (s.flushNmethod id) else none
  | .sweep => some s.sweepNotEntrantZombies

def frees (s : CodeSpace) : CodeAct → List NmethodId
  | .flush id => [id]
  | .sweep => s.idleNotEntrant
  | _ => []

/-- The states of runs in which every freed nmethod met `ok` when it was freed. -/
inductive CodeReach (ok : CodeSpace → NmethodId → Prop) : CodeSpace → Prop
  | boot {cap : Nat} {blobs : StubBlobs} {s : CodeSpace} (h : boot cap blobs = some s) : CodeReach ok s
  | step {s s' : CodeSpace} {a : CodeAct} (h : CodeReach ok s) (hs : s.step a = some s')
      (hok : ∀ id ∈ s.frees a, ok s id) : CodeReach ok s'

def run (s : CodeSpace) : List CodeAct → Option CodeSpace
  | [] => some s
  | a :: rest => (s.step a).bind fun s' => s'.run rest

variable {ok : CodeSpace → NmethodId → Prop} {acts : List CodeAct}

theorem CodeReach.run (hquiet : ∀ a ∈ acts, ∀ s : CodeSpace, s.frees a = []) (h : CodeReach ok s)
    (hr : s.run acts = some s') : CodeReach ok s' := by
  induction acts generalizing s with
  | nil =>
    cases hr
    exact h
  | cons a rest ih =>
    obtain ⟨s₁, hs, hr⟩ := bind_eq_some_iff.mp hr
    have hnone := hquiet a mem_cons_self s
    refine ih (fun b hb => hquiet b (mem_cons_of_mem a hb)) (h.step hs fun id hid => ?_) hr
    rw [hnone] at hid
    cases hid

theorem Linked.step (h : s.Linked) {a : CodeAct} (hs : s.step a = some s')
    (hno : ∀ id ∈ s.frees a, ¬ s.Orphans id) : s'.Linked := by
  cases a with
  | install blob sites =>
    obtain ⟨⟨id, s₁⟩, hi, rfl⟩ := map_eq_some_iff.mp hs
    exact h.install hi
  | resolve caller idx k callee old =>
    obtain ⟨⟨t, s₁⟩, hr, rfl⟩ := map_eq_some_iff.mp hs
    exact h.rtResolveSend hr
  | repoint caller idx k selector id callee => exact h.repointSite hs
  | enter id =>
    obtain ⟨nm, hn, hs⟩ := bind_eq_some_iff.mp hs
    split at hs
    next ha =>
      cases hs
      exact h.enter hn ha
    next => cases hs
  | leave id =>
    dsimp only [CodeSpace.step] at hs
    split at hs
    next =>
      cases hs
      exact h.leave
    next => cases hs
  | retire id =>
    obtain ⟨nm, hn, hs⟩ := bind_eq_some_iff.mp hs
    split at hs
    next ha =>
      cases hs
      exact h.makeNotEntrant hn ha
    next => cases hs
  | flush id =>
    dsimp only [CodeSpace.step] at hs
    split at hs
    next =>
      cases hs
      exact h.flushNmethod (hno id (mem_singleton.mpr rfl))
    next => cases hs
  | sweep =>
    cases hs
    exact h.flushAll hno

theorem CodeReach.linked (h : CodeReach (fun s id => ¬ s.Orphans id) s) : s.Linked := by
  induction h with
  | boot h => exact boot_linked h
  | step _ hs hno ih => exact ih.step hs hno

def blocksOf (s : CodeSpace) : LinkState → List CodeHandle
  | .unresolved => []
  | .mono _ t => [t.block]
  | .pic stub => stub :: (s.pairsOf stub).map fun p => p.2.block
  | .mega stub => [stub]

theorem Placed.blocks_live (hp : s.Placed) {state : LinkState} (hl : s.StateLive state) :
    ∀ block ∈ s.blocksOf state, block ∈ s.cache.live := by
  intro block hb
  cases state with
  | unresolved => cases hb
  | mono k t =>
    cases mem_singleton.mp hb
    exact (hp.holds_live hl.2).1
  | mega stub =>
    obtain ⟨sel, hs⟩ := hl
    rw [mem_singleton.mp hb]
    exact (hp.megas sel stub hs).1
  | pic stub =>
    obtain ⟨desc, hd, hh, hpairs⟩ := hl
    rcases mem_cons.mp hb with he | hb
    · rw [he, ← hh]
      exact (hp.pics _ _ hd).2.1
    · obtain ⟨p, hm, rfl⟩ := mem_map.mp hb
      unfold pairsOf at hm
      rw [hd] at hm
      exact (hp.holds_live (hpairs p hm).2).1

/-- No dangling call targets: in a run that frees nothing a retired, running nmethod
still goes into, every site of an nmethod that may execute is linked to a block still
its owner's, in memory that is neither free nor anyone else's. The condition is exact:
a flush that breaks it leaves such a site. -/
theorem no_dangling_call_targets (h : CodeReach (fun s id => ¬ s.Orphans id) s) :
    (∀ id nm, s.slots id = some nm → s.MayExecute id nm → ∀ site ∈ nm.icSites,
      s.StateLive site.state ∧ ∀ block ∈ s.blocksOf site.state, block ∈ s.cache.live) ∧
    s.cache.Valid ∧
    ∀ id, s.activations id = 0 → ((s.flushNmethod id).Safe ↔ ¬ s.Orphans id) := by
  have hl := h.linked
  refine ⟨fun id nm hn hm site hs => ?_, hl.placed.valid, fun id hidle => ⟨fun hsafe ho => ?_,
    fun hno => (hl.flushNmethod hno).safe⟩⟩
  · have hlive := hl.safe id nm hn hm site hs
    exact ⟨hlive, hl.placed.blocks_live hlive⟩
  · exact hl.flush_dangles hidle ho hsafe

theorem Placed.not_orphans (hp : s.Placed) (hidle : ∀ id ∈ s.notEntrantIds, s.activations id = 0)
    (id : NmethodId) : ¬ s.Orphans id := by
  intro ho
  obtain ⟨_, caller, nm', _, _, _, hn', hne, hpos, _⟩ := ho
  have hlt : caller.index < s.size := by
    by_contra hge
    rw [hp.bounded caller (by omega)] at hn'
    cases hn'
  have hmem : caller ∈ s.notEntrantIds := by
    refine mem_filter.mpr ⟨mem_map.mpr ⟨caller.index, mem_range.mpr hlt, rfl⟩, ?_⟩
    rw [hn']
    exact decide_eq_true hne
  have := hidle caller hmem
  omega

def smallStubs : StubBlobs where
  shared := [16]
  adapter := 16
  mega := 16
  pic := fun n => 16 * (n + 1)
  shared_pos := by decide
  adapter_pos := by decide
  mega_pos := by decide
  pic_pos := fun n => by omega

def smallBlob : CodeBlob := ⟨64, 0, 8, by decide, by decide⟩

/-- An nmethod, and a running one whose only site is linked to it. -/
def linkedPair : List CodeAct := [.install smallBlob [], .install smallBlob [⟨⟨24⟩, none, none⟩],
    .resolve ⟨1⟩ 0 ⟨16⟩ (.code ⟨0⟩) (.code ⟨0⟩), .enter ⟨1⟩]

theorem linkedPair_reach (hquiet : ∀ a ∈ acts, ∀ s : CodeSpace, s.frees a = [])
    (hr : ((boot 4096 smallStubs).bind fun s => s.run (linkedPair ++ acts)) = some s) :
    CodeReach ok s := by
  obtain ⟨s₀, h₀, hr⟩ := bind_eq_some_iff.mp hr
  refine CodeReach.run (fun a ha => ?_) (CodeReach.boot h₀) hr
  rcases mem_append.mp ha with ha | ha
  · unfold linkedPair at ha
    simp only [mem_cons, not_mem_nil, or_false] at ha
    rcases ha with rfl | rfl | rfl | rfl
    all_goals exact fun _ => rfl
  · exact hquiet a ha

/-- The callee is retired and swept while its caller runs on: the site is reset. -/
theorem no_dangling_call_targets_after_sweep : ∃ s : CodeSpace,
    s.siteAt ⟨1⟩ 0 = some ⟨⟨24⟩, none, .unresolved⟩ ∧ s.slots ⟨0⟩ = none ∧
    (∀ id nm, s.slots id = some nm → s.MayExecute id nm → ∀ site ∈ nm.icSites,
      s.StateLive site.state ∧ ∀ block ∈ s.blocksOf site.state, block ∈ s.cache.live) ∧
    s.cache.Valid ∧
    ∀ id, s.activations id = 0 → ((s.flushNmethod id).Safe ↔ ¬ s.Orphans id) := by
  have hrun : (((boot 4096 smallStubs).bind fun s => s.run (linkedPair ++ [.retire ⟨0⟩])).map
      fun s => (s.notEntrantIds.all fun id => s.activations id = 0,
        s.sweepNotEntrantZombies.siteAt ⟨1⟩ 0, (s.sweepNotEntrantZombies.slots ⟨0⟩).isNone)) =
      some (true, some ⟨⟨24⟩, none, .unresolved⟩, true) := by decide +kernel
  obtain ⟨s, hs, he⟩ := map_eq_some_iff.mp hrun
  obtain ⟨hidle, he⟩ := Prod.mk.inj he
  obtain ⟨hsite, hnone⟩ := Prod.mk.inj he
  have hreach : CodeReach (fun s id => ¬ s.Orphans id) s := by
    refine linkedPair_reach (fun a ha => ?_) hs
    cases mem_singleton.mp ha
    exact fun _ => rfl
  have hno : ∀ id ∈ s.frees .sweep, ¬ s.Orphans id := by
    intro id _
    refine hreach.linked.placed.not_orphans (fun id' hid => ?_) id
    exact of_decide_eq_true (all_eq_true.mp hidle id' hid)
  exact ⟨s.sweepNotEntrantZombies, hsite, isNone_iff_eq_none.mp hnone,
    no_dangling_call_targets (hreach.step (a := .sweep) rfl hno)⟩

/-- Caller and callee are both retired, lazily; the caller runs on, its site linked
to the code that the sweep frees. -/
theorem swept_callee_dangles : ¬ ∀ s, CodeReach (fun _ _ => True) s → s.Safe := by
  intro hclaim
  have hrun : (((boot 4096 smallStubs).bind fun s =>
      s.run (linkedPair ++ [.retire ⟨1⟩, .retire ⟨0⟩])).bind fun s =>
        (s.slots ⟨0⟩).bind fun nm => (s.slots ⟨1⟩).bind fun nm' =>
          (s.siteAt ⟨1⟩ 0).map fun site => (decide (nm'.state = .notEntrant),
            decide (0 < s.activations ⟨1⟩), s.activations ⟨0⟩, s.idleNotEntrant,
            decide (site.state = .mono ⟨16⟩ nm.entry))) =
      some (true, true, 0, [⟨0⟩], true) := by decide +kernel
  obtain ⟨s, hs, hrun⟩ := bind_eq_some_iff.mp hrun
  obtain ⟨nm, hn, hrun⟩ := bind_eq_some_iff.mp hrun
  obtain ⟨nm', hn', hrun⟩ := bind_eq_some_iff.mp hrun
  obtain ⟨site, hsite, he⟩ := map_eq_some_iff.mp hrun
  obtain ⟨hne, he⟩ := Prod.mk.inj he
  obtain ⟨hpos, he⟩ := Prod.mk.inj he
  obtain ⟨hidle, he⟩ := Prod.mk.inj he
  obtain ⟨hswept, hmono⟩ := Prod.mk.inj he
  have hreach : ∀ ok, CodeReach ok s := by
    intro ok
    refine linkedPair_reach (fun a ha => ?_) hs
    simp only [mem_cons, not_mem_nil, or_false] at ha
    rcases ha with rfl | rfl
    all_goals exact fun _ => rfl
  have ho : s.Orphans ⟨0⟩ := by
    refine ⟨nm, ⟨1⟩, nm', 0, site, hn, hn', of_decide_eq_true hne, of_decide_eq_true hpos, hsite, ?_⟩
    rw [of_decide_eq_true hmono]
    rfl
  have hflush : s.sweepNotEntrantZombies = s.flushNmethod ⟨0⟩ := by
    change s.idleNotEntrant.foldl CodeSpace.flushNmethod s = s.flushNmethod ⟨0⟩
    rw [hswept]
    rfl
  apply (hreach _).linked.flush_dangles hidle ho
  rw [← hflush]
  exact hclaim _ ((hreach _).step (a := .sweep) rfl fun _ _ => trivial)

end CodeSpace

end WinArmVm
