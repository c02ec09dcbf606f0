import WinArmVm.CodeSpace

namespace WinArmVm.CodeSpace

open Option Function List

def MayExecute (s : CodeSpace) (id : NmethodId) (nm : CodeRecord) : Prop :=
  nm.state = .alive ∨ nm.state = .notEntrant ∧ 0 < s.activations id

def Holds (s : CodeSpace) (h : CodeHandle) : Prop :=
  (∃ id nm, s.slots id = some nm ∧ nm.code = h) ∨ h ∈ s.stubs ∨ ∃ m, s.adapters m = some h

def TargetLive (s : CodeSpace) (t : LinkTarget) : Prop := t.off < t.block.len ∧ s.Holds t.block

/-- Every address a site in this state may jump to is in a block that is still
allocated to what the site was linked to. -/
def StateLive (s : CodeSpace) : LinkState → Prop
  | .unresolved => True
  | .mono _ t => s.TargetLive t
  | .pic stub => ∃ desc, s.pics stub.base = some desc ∧ desc.handle = stub ∧ ∀ p ∈ desc.pairs, s.TargetLive p.2
  | .mega stub => ∃ sel, s.megas sel = some stub

def Safe (s : CodeSpace) : Prop :=
  ∀ id nm, s.slots id = some nm → s.MayExecute id nm → ∀ site ∈ nm.icSites, s.StateLive site.state

/-- Every table owns live blocks, granted for its purpose; a PIC belongs to one site. -/
structure Placed (s : CodeSpace) : Prop where
  valid : s.cache.Valid
  bounded : ∀ id : NmethodId, s.size ≤ id.index → s.slots id = none
  codes : ∀ id nm, s.slots id = some nm → nm.code ∈ s.cache.live ∧ nm.code.use = .code ∧
    nm.entryOff < nm.code.len ∧ nm.verifiedEntryOff < nm.code.len
  codes_inj : ∀ id id' nm nm', s.slots id = some nm → s.slots id' = some nm' → nm.code = nm'.code → id = id'
  stubs : ∀ h ∈ s.stubs, h ∈ s.cache.live ∧ h.use = .stub
  adapters : ∀ m h, s.adapters m = some h → h ∈ s.cache.live ∧ h.use = .adapter
  megas : ∀ sel h, s.megas sel = some h → h ∈ s.cache.live ∧ h.use = .mega
  pics : ∀ b desc, s.pics b = some desc → desc.handle.base = b ∧ desc.handle ∈ s.cache.live ∧ desc.handle.use = .pic
  owned : ∀ id idx site stub, s.siteAt id idx = some site → site.state = .pic stub →
    ∃ desc, s.pics stub.base = some desc ∧ desc.handle = stub
  unshared : ∀ id idx id' idx' site site' stub, s.siteAt id idx = some site →
    s.siteAt id' idx' = some site' → site.state = .pic stub → site'.state = .pic stub →
    id = id' ∧ idx = idx'

variable {s s' : CodeSpace} {state : LinkState} {h : CodeHandle} {caller : NmethodId} {stub : CodeHandle} {idx : Nat}
  {site : LinkedSite}
  {t : LinkTarget}

theorem Placed.holds_live (hp : s.Placed) (hh : s.Holds h) : h ∈ s.cache.live ∧ h.use ≠ .pic := by
  rcases hh with ⟨id, nm, hs, rfl⟩ | hs | ⟨m, hm⟩
  · obtain ⟨hl, hu, _⟩ := hp.codes id nm hs
    exact ⟨hl, by rw [hu]; simp⟩
  · obtain ⟨hl, hu⟩ := hp.stubs h hs
    exact ⟨hl, by rw [hu]; simp⟩
  · obtain ⟨hl, hu⟩ := hp.adapters m h hm
    exact ⟨hl, by rw [hu]; simp⟩

def Refers (s : CodeSpace) (state : LinkState) (h : CodeHandle) : Prop :=
  match state with
  | .mono _ t => t.block = h
  | .pic stub => ∃ desc, s.pics stub.base = some desc ∧ ∃ p ∈ desc.pairs, p.2.block = h
  | _ => False

theorem StateLive.transfer (hl : s.StateLive state) (hh : ∀ h, s.Refers state h → s.Holds h → s'.Holds h)
    (hpic : ∀ stub desc, state = .pic stub → s.pics stub.base = some desc → s'.pics stub.base = some desc)
    (hmega : ∀ sel h, s.megas sel = some h → s'.megas sel = some h) : s'.StateLive state := by
  cases state with
  | unresolved => trivial
  | mono k t => exact ⟨hl.1, hh t.block rfl hl.2⟩
  | pic stub =>
    obtain ⟨desc, hd, he, hpairs⟩ := hl
    refine ⟨desc, hpic stub desc rfl hd, he, fun p hp => ?_⟩
    have hlive := hpairs p hp
    exact ⟨hlive.1, hh p.2.block ⟨desc, hd, p, hp, rfl⟩ hlive.2⟩
  | mega stub =>
    obtain ⟨sel, hs⟩ := hl
    exact ⟨sel, hmega sel stub hs⟩

structure Grows (s s' : CodeSpace) : Prop where
  slots : s'.slots = s.slots
  stubs : s'.stubs = s.stubs
  activations : s'.activations = s.activations
  blobs : s'.blobs = s.blobs
  adapters : ∀ m h, s.adapters m = some h → s'.adapters m = some h
  megas : ∀ sel h, s.megas sel = some h → s'.megas sel = some h
  pics : ∀ b desc, s.pics b = some desc → s'.pics b = some desc

theorem Grows.refl (s : CodeSpace) : Grows s s := ⟨rfl, rfl, rfl, rfl, fun _ _ h => h, fun _ _ h => h, fun _ _ h => h⟩

theorem Grows.trans {s'' : CodeSpace} (h : Grows s s') (h' : Grows s' s'') : Grows s s'' :=
  ⟨h'.slots.trans h.slots, h'.stubs.trans h.stubs, h'.activations.trans h.activations,
    h'.blobs.trans h.blobs, fun m x hx => h'.adapters m x (h.adapters m x hx),
    fun sel x hx => h'.megas sel x (h.megas sel x hx), fun b x hx => h'.pics b x (h.pics b x hx)⟩

theorem Grows.holds (h : Grows s s') {x : CodeHandle} (hh : s.Holds x) : s'.Holds x := by
  rcases hh with ⟨id, nm, hs, hc⟩ | hs | ⟨m, hm⟩
  · exact .inl ⟨id, nm, by rw [h.slots]; exact hs, hc⟩
  · exact .inr (.inl (by rw [h.stubs]; exact hs))
  · exact .inr (.inr ⟨m, h.adapters m x hm⟩)

theorem Grows.targetLive (h : Grows s s') (ht : s.TargetLive t) : s'.TargetLive t := ⟨ht.1, h.holds ht.2⟩

theorem Grows.stateLive (h : Grows s s') (hl : s.StateLive state) : s'.StateLive state :=
  hl.transfer (fun _ _ hh => h.holds hh) (fun stub desc _ hd => h.pics stub.base desc hd) h.megas

theorem Grows.siteAt (h : Grows s s') (id : NmethodId) (idx : Nat) : s'.siteAt id idx = s.siteAt id idx := by
  unfold CodeSpace.siteAt
  rw [h.slots]

theorem Grows.safe (h : Grows s s') (hs : s.Safe) : s'.Safe := by
  intro id nm hn hm site hsite
  rw [h.slots] at hn
  unfold MayExecute at hm
  rw [h.activations] at hm
  exact h.stateLive (hs id nm hn hm site hsite)

theorem siteAt_mem {id : NmethodId}
    (h : s.siteAt id idx = some site) : ∃ nm, s.slots id = some nm ∧ site ∈ nm.icSites := by
  obtain ⟨nm, hn, hi⟩ := bind_eq_some_iff.mp h
  exact ⟨nm, hn, mem_of_getElem? hi⟩

theorem mem_siteAt {id : NmethodId} {nm : CodeRecord} (hn : s.slots id = some nm)
    (hm : site ∈ nm.icSites) : ∃ idx, s.siteAt id idx = some site := by
  obtain ⟨idx, hi⟩ := mem_iff_getElem?.mp hm
  refine ⟨idx, ?_⟩
  unfold siteAt
  rw [hn]
  exact hi

theorem Placed.grant (hp : s.Placed) {use : BlockUse} {len : Nat}
    {cache : CodeCache} (hg : CodeCache.Grants s.cache use len h cache) :
    { s with cache := cache : CodeSpace }.Placed ∧ h ∉ s.cache.live := by
  have hmono : ∀ x ∈ s.cache.live, x ∈ cache.live := by
    intro x hx
    rw [hg.live]
    exact mem_cons_of_mem h hx
  refine ⟨⟨hg.valid, hp.bounded, fun id nm hs => ?_, hp.codes_inj, fun x hx => ?_,
    fun m x hx => ?_, fun sel x hx => ?_, fun b desc hd => ?_, hp.owned, hp.unshared⟩, fun hm => ?_⟩
  · obtain ⟨hl, hrest⟩ := hp.codes id nm hs
    exact ⟨hmono _ hl, hrest⟩
  · obtain ⟨hl, hu⟩ := hp.stubs x hx
    exact ⟨hmono _ hl, hu⟩
  · obtain ⟨hl, hu⟩ := hp.adapters m x hx
    exact ⟨hmono _ hl, hu⟩
  · obtain ⟨hl, hu⟩ := hp.megas sel x hx
    exact ⟨hmono _ hl, hu⟩
  · obtain ⟨hb, hl, hu⟩ := hp.pics b desc hd
    exact ⟨hb, hmono _ hl, hu⟩
  · have hlt := hp.valid.serials h hm
    rw [hg.fresh] at hlt
    omega

theorem mem_granted {use : BlockUse} {len : Nat} {c cache : CodeCache}
    (hg : CodeCache.Grants c use len h cache) : h ∈ cache.live := by
  rw [hg.live]
  exact mem_cons_self

theorem Placed.adapterFor (hp : s.Placed) {m : MethodOop} (ha : s.adapterFor m = some (h, s')) :
    s'.Placed ∧ Grows s s' ∧ s'.adapters m = some h := by
  unfold CodeSpace.adapterFor at ha
  split at ha
  next h₀ hm =>
    cases ha
    exact ⟨hp, Grows.refl s, hm⟩
  next hm =>
    obtain ⟨⟨h₁, cache⟩, hg, he⟩ := bind_eq_some_iff.mp ha
    cases he
    have hgrant := hp.valid.alloc s.blobs.adapter_pos hg
    obtain ⟨hpc, _⟩ := hp.grant hgrant
    refine ⟨⟨hpc.valid, hpc.bounded, hpc.codes, hpc.codes_inj, hpc.stubs, fun m' x hx => ?_,
      hpc.megas, hpc.pics, hpc.owned, hpc.unshared⟩, ⟨rfl, rfl, rfl, rfl, fun m' x hx => ?_,
      fun _ _ h => h, fun _ _ h => h⟩, update_self ..⟩
    · by_cases he : m' = m
      · subst m'
        have hx : Function.update s.adapters m (some h) m = some x := hx
        rw [update_self] at hx
        cases hx
        exact ⟨mem_granted hgrant, hgrant.use⟩
      · have hx : Function.update s.adapters m (some h) m' = some x := hx
        rw [update_of_ne he] at hx
        exact hpc.adapters m' x hx
    · have hne : m' ≠ m := by
        rintro rfl
        rw [hm] at hx
        cases hx
      change Function.update s.adapters m (some h) m' = some x
      rw [update_of_ne hne]
      exact hx

theorem Placed.resolveTarget (hp : s.Placed) {verified : Bool} {callee : Choice}
    (hr : s.resolveTarget verified callee = some (t, s')) :
    s'.Placed ∧ Grows s s' ∧ s'.TargetLive t := by
  cases callee with
  | stub i =>
    obtain ⟨h, hi, he⟩ := bind_eq_some_iff.mp hr
    cases he
    have hm := mem_of_getElem? hi
    exact ⟨hp, Grows.refl s, hp.valid.live_pos h (hp.stubs h hm).1, .inr (.inl hm)⟩
  | code id =>
    obtain ⟨nm, hs, he⟩ := bind_eq_some_iff.mp hr
    obtain ⟨-, he⟩ := ite_none_right_eq_some.mp he
    cases he
    obtain ⟨_, _, hentry, hverified⟩ := hp.codes id nm hs
    refine ⟨hp, Grows.refl s, ?_⟩
    cases verified with
    | true => exact ⟨hverified, .inl ⟨id, nm, hs, rfl⟩⟩
    | false => exact ⟨hentry, .inl ⟨id, nm, hs, rfl⟩⟩
  | adapter m =>
    obtain ⟨⟨h, s₁⟩, ha, he⟩ := bind_eq_some_iff.mp hr
    cases he
    obtain ⟨hp₁, hg, hm⟩ := hp.adapterFor ha
    exact ⟨hp₁, hg, hp₁.valid.live_pos h (hp₁.adapters m h hm).1, .inr (.inr ⟨m, hm⟩)⟩

theorem Placed.megaFor (hp : s.Placed) {sel : SymbolOop} (hm : s.megaFor sel = some (h, s')) :
    s'.Placed ∧ Grows s s' ∧ s'.megas sel = some h := by
  unfold CodeSpace.megaFor at hm
  split at hm
  next h₀ hs =>
    cases hm
    exact ⟨hp, Grows.refl s, hs⟩
  next hs =>
    obtain ⟨⟨h₁, cache⟩, hg, he⟩ := bind_eq_some_iff.mp hm
    cases he
    have hgrant := hp.valid.alloc s.blobs.mega_pos hg
    obtain ⟨hpc, _⟩ := hp.grant hgrant
    refine ⟨⟨hpc.valid, hpc.bounded, hpc.codes, hpc.codes_inj, hpc.stubs, hpc.adapters,
      fun sel' x hx => ?_, hpc.pics, hpc.owned, hpc.unshared⟩, ⟨rfl, rfl, rfl, rfl,
      fun _ _ h => h, fun sel' x hx => ?_, fun _ _ h => h⟩, update_self ..⟩
    · have hx : Function.update s.megas sel (some h) sel' = some x := hx
      by_cases he : sel' = sel
      · rw [he, update_self] at hx
        cases hx
        exact ⟨mem_granted hgrant, hgrant.use⟩
      · rw [update_of_ne he] at hx
        exact hpc.megas sel' x hx
    · have hne : sel' ≠ sel := by
        rintro rfl
        rw [hs] at hx
        cases hx
      change Function.update s.megas sel (some h) sel' = some x
      rw [update_of_ne hne]
      exact hx

theorem adapterFor_pics {m : MethodOop} (ha : s.adapterFor m = some (h, s')) : s'.pics = s.pics := by
  unfold CodeSpace.adapterFor at ha
  split at ha
  next =>
    cases ha
    rfl
  next =>
    obtain ⟨_, _, he⟩ := bind_eq_some_iff.mp ha
    cases he
    rfl

theorem resolveTarget_pics {verified : Bool} {callee : Choice}
    (hr : s.resolveTarget verified callee = some (t, s')) : s'.pics = s.pics := by
  cases callee with
  | stub i =>
    obtain ⟨_, _, he⟩ := bind_eq_some_iff.mp hr
    cases he
    rfl
  | code id =>
    obtain ⟨_, _, he⟩ := bind_eq_some_iff.mp hr
    split at he
    next =>
      cases he
      rfl
    next => cases he
  | adapter m =>
    obtain ⟨⟨h, s₁⟩, ha, he⟩ := bind_eq_some_iff.mp hr
    cases he
    exact adapterFor_pics ha

theorem megaFor_pics {sel : SymbolOop} (hm : s.megaFor sel = some (h, s')) : s'.pics = s.pics := by
  unfold CodeSpace.megaFor at hm
  split at hm
  next =>
    cases hm
    rfl
  next =>
    obtain ⟨_, _, he⟩ := bind_eq_some_iff.mp hm
    cases he
    rfl

theorem Placed.buildPic (hp : s.Placed) {pairs : List (KlassOop × LinkTarget)}
    (hb : s.buildPic pairs = some (stub, s')) :
    s'.Placed ∧ Grows s s' ∧ s'.pics stub.base = some ⟨stub, pairs⟩ ∧
      (∀ id idx site, s.siteAt id idx = some site → site.state ≠ .pic stub) ∧
      stub ∉ s.cache.live := by
  obtain ⟨⟨h, cache⟩, hg, he⟩ := bind_eq_some_iff.mp hb
  cases he
  have hgrant := hp.valid.alloc (s.blobs.pic_pos pairs.length) hg
  obtain ⟨hpc, hnew⟩ := hp.grant hgrant
  have hstub := mem_granted hgrant
  have hvacant : s.pics stub.base = none := by
    cases hd : s.pics stub.base with
    | none => rfl
    | some desc =>
      exfalso
      obtain ⟨hbase, hl, _⟩ := hp.pics _ _ hd
      have hl' : desc.handle ∈ cache.live := by
        rw [hgrant.live]
        exact mem_cons_of_mem _ hl
      have hne : stub ≠ desc.handle := by
        rintro rfl
        exact hnew hl
      have hsymm : Std.Symm fun a b : CodeHandle => a.span.Apart b.span := ⟨fun _ _ h => CodeCache.apart_symm h⟩
      have hapart := hgrant.valid.live_apart.forall hstub hl' hne
      have hpos := hgrant.valid.live_pos _ hstub
      have hpos' := hgrant.valid.live_pos _ hl'
      unfold Span.Apart Span.stop CodeHandle.span at hapart
      dsimp only at hapart
      omega
  have hpics : ∀ b desc, s.pics b = some desc →
      Function.update s.pics stub.base (some ⟨stub, pairs⟩) b = some desc := by
    intro b desc hd
    have hne : b ≠ stub.base := by
      rintro rfl
      rw [hvacant] at hd
      cases hd
    rw [update_of_ne hne]
    exact hd
  refine ⟨⟨hpc.valid, hpc.bounded, hpc.codes, hpc.codes_inj, hpc.stubs, hpc.adapters, hpc.megas,
    fun b desc hd => ?_, fun id idx site x hs hx => ?_, hpc.unshared⟩, ⟨rfl, rfl, rfl, rfl,
    fun _ _ h => h, fun _ _ h => h, hpics⟩, update_self ..,
    fun id idx site hs hx => ?_, hnew⟩
  · have hd : Function.update s.pics stub.base (some ⟨stub, pairs⟩) b = some desc := hd
    by_cases hb' : b = stub.base
    · rw [hb', update_self] at hd
      cases hd
      exact ⟨hb'.symm, hstub, hgrant.use⟩
    · rw [update_of_ne hb'] at hd
      exact hpc.pics b desc hd
  · obtain ⟨desc, hd, hh⟩ := hp.owned id idx site x hs hx
    exact ⟨desc, hpics _ _ hd, hh⟩
  · obtain ⟨desc, hd, _⟩ := hp.owned id idx site stub hs hx
    rw [hvacant] at hd
    cases hd

theorem patchSite_slots (s : CodeSpace) (caller : NmethodId) (idx : Nat) (state : LinkState)
    (id : NmethodId) : (s.patchSite caller idx state).slots id =
      if id = caller then (s.slots caller).map fun nm =>
        { nm with icSites := nm.icSites.modify idx fun site => { site with state := state } }
      else s.slots id := by
  unfold patchSite
  simp only [update_apply]

theorem patchSite_siteAt (s : CodeSpace) (caller : NmethodId) (idx : Nat) (state : LinkState)
    (id : NmethodId) (i : Nat) : (s.patchSite caller idx state).siteAt id i =
      if id = caller ∧ i = idx then (s.siteAt id i).map fun site => { site with state := state }
      else s.siteAt id i := by
  unfold siteAt
  rw [patchSite_slots]
  by_cases hc : id = caller
  · subst id
    rw [if_pos rfl]
    cases s.slots caller with
    | none => simp
    | some nm =>
      by_cases hi : i = idx
      · subst i
        simp
      · have hne : ¬ idx = i := fun e => hi e.symm
        simp [hi, hne]
  · simp [hc]

theorem patchSite_slot {caller id : NmethodId} {nm' : CodeRecord}
    (h : (s.patchSite caller idx state).slots id = some nm') :
    ∃ nm, s.slots id = some nm ∧ nm'.code = nm.code ∧ nm'.entryOff = nm.entryOff ∧
      nm'.verifiedEntryOff = nm.verifiedEntryOff ∧ nm'.state = nm.state := by
  rw [patchSite_slots] at h
  split at h
  next he =>
    obtain ⟨nm, hn, rfl⟩ := map_eq_some_iff.mp h
    subst id
    exact ⟨nm, hn, rfl, rfl, rfl, rfl⟩
  next => exact ⟨nm', h, rfl, rfl, rfl, rfl⟩

theorem patchSite_holds (hh : s.Holds h) : (s.patchSite caller idx state).Holds h := by
  rcases hh with ⟨id, nm, hs, hc⟩ | hs | ⟨m, hm⟩
  · refine .inl ?_
    by_cases he : id = caller
    · refine ⟨id, { nm with icSites := nm.icSites.modify idx fun site =>
        { site with state := state } }, ?_, hc⟩
      rw [patchSite_slots, if_pos he, ← he, hs]
      rfl
    · exact ⟨id, nm, by rw [patchSite_slots, if_neg he, hs], hc⟩
  · exact .inr (.inl hs)
  · exact .inr (.inr ⟨m, hm⟩)

theorem patchSite_stateLive {state state' : LinkState}
    (hl : s.StateLive state') : (s.patchSite caller idx state).StateLive state' :=
  hl.transfer (fun _ _ hh => patchSite_holds hh) (fun _ _ _ hd => hd) (fun _ _ hm => hm)

def Vacant (s : CodeSpace) (stub : CodeHandle) : Prop := (∃ desc, s.pics stub.base = some desc ∧ desc.handle = stub) ∧
    ∀ id idx site, s.siteAt id idx = some site → site.state ≠ .pic stub

theorem Placed.patchSite (hp : s.Placed) (hstate : ∀ stub, state = .pic stub → s.Vacant stub) :
    (s.patchSite caller idx state).Placed := by
  have hsite : ∀ id i site stub, (s.patchSite caller idx state).siteAt id i = some site → site.state = .pic stub →
      (id = caller ∧ i = idx ∧ state = .pic stub) ∨
        ∃ site₀, s.siteAt id i = some site₀ ∧ site₀.state = .pic stub := by
    intro id i site stub hs hx
    rw [patchSite_siteAt] at hs
    split at hs
    next he =>
      obtain ⟨site₀, _, rfl⟩ := map_eq_some_iff.mp hs
      exact .inl ⟨he.1, he.2, hx⟩
    next => exact .inr ⟨site, hs, hx⟩
  refine ⟨hp.valid, fun id hid => ?_, fun id nm hs => ?_, fun id id' nm nm' hs hs' hc => ?_,
    hp.stubs, hp.adapters, hp.megas, hp.pics, fun id i site stub hs hx => ?_,
    fun id i id' i' site site' stub hs hs' hx hx' => ?_⟩
  · rw [patchSite_slots]
    split
    next he => rw [← he, hp.bounded id hid, map_none]
    next => exact hp.bounded id hid
  · obtain ⟨old, ho, hcode, hentry, hverified, _⟩ := patchSite_slot hs
    rw [hcode, hentry, hverified]
    exact hp.codes id old ho
  · obtain ⟨old, ho, hcode, _⟩ := patchSite_slot hs
    obtain ⟨old', ho', hcode', _⟩ := patchSite_slot hs'
    rw [hcode, hcode'] at hc
    exact hp.codes_inj id id' old old' ho ho' hc
  · rcases hsite id i site stub hs hx with ⟨_, _, hst⟩ | ⟨site₀, h₀, hx₀⟩
    · exact (hstate stub hst).1
    · exact hp.owned id i site₀ stub h₀ hx₀
  · rcases hsite id i site stub hs hx with ⟨hid, hi, hst⟩ | ⟨site₀, h₀, hx₀⟩
    · rcases hsite id' i' site' stub hs' hx' with ⟨hid', hi', _⟩ | ⟨site₁, h₁, hx₁⟩
      · exact ⟨hid.trans hid'.symm, hi.trans hi'.symm⟩
      · exact absurd hx₁ ((hstate stub hst).2 id' i' site₁ h₁)
    · rcases hsite id' i' site' stub hs' hx' with ⟨_, _, hst⟩ | ⟨site₁, h₁, hx₁⟩
      · exact absurd hx₀ ((hstate stub hst).2 id i site₀ h₀)
      · exact hp.unshared id i id' i' site₀ site₁ stub h₀ h₁ hx₀ hx₁

theorem Safe.patchSite (hsafe : s.Safe)
    (hstate : ∀ nm, s.slots caller = some nm → s.MayExecute caller nm → s.StateLive state) :
    (s.patchSite caller idx state).Safe := by
  intro id nm hs hm site hsite
  obtain ⟨i, hi⟩ := mem_siteAt hs hsite
  obtain ⟨old, ho, _, _, _, hst⟩ := patchSite_slot hs
  have hm' : s.MayExecute id old := by
    unfold MayExecute at hm ⊢
    rw [hst] at hm
    exact hm
  rw [patchSite_siteAt] at hi
  split at hi
  next he =>
    obtain ⟨site₀, _, rfl⟩ := map_eq_some_iff.mp hi
    obtain ⟨rfl, rfl⟩ := he
    exact patchSite_stateLive (hstate old ho hm')
  next =>
    obtain ⟨nm₀, hn₀, hmem⟩ := siteAt_mem hi
    rw [ho] at hn₀
    cases hn₀
    exact patchSite_stateLive (hsafe id old ho hm' site hmem)

theorem base_ne {stub stub' : CodeHandle} {desc desc' : PicDesc}
    (hd : s.pics stub.base = some desc) (hh : desc.handle = stub)
    (hd' : s.pics stub'.base = some desc') (hh' : desc'.handle = stub') (hne : stub' ≠ stub) :
    stub'.base ≠ stub.base := by
  intro hb
  rw [hb, hd] at hd'
  cases hd'
  exact hne (hh'.symm.trans hh)

theorem Placed.freePic (hp : s.Placed) (hv : s.Vacant stub) : (s.freePic stub).Placed := by
  obtain ⟨⟨desc, hd, hh⟩, hfree⟩ := hv
  obtain ⟨_, hlive, huse⟩ := hp.pics _ _ hd
  rw [hh] at hlive huse
  obtain ⟨hvalid, hl, _⟩ := hp.valid.release hlive
  have hkeep : ∀ x ∈ s.cache.live, x ≠ stub → x ∈ (s.cache.release stub).live := by
    intro x hx hne
    rw [hl]
    exact (mem_erase_of_ne hne).mpr hx
  have hother : ∀ x : CodeHandle, x.use ≠ .pic → x ≠ stub := by
    intro x hx he
    rw [he] at hx
    exact hx huse
  refine ⟨hvalid, hp.bounded, fun id nm hs => ?_, hp.codes_inj, fun x hx => ?_, fun m x hx => ?_,
    fun sel x hx => ?_, fun b d hb => ?_, fun id i site x hs hx => ?_, hp.unshared⟩
  · obtain ⟨hm, hu, hrest⟩ := hp.codes id nm hs
    exact ⟨hkeep _ hm (hother _ (by rw [hu]; simp)), hu, hrest⟩
  · obtain ⟨hm, hu⟩ := hp.stubs x hx
    exact ⟨hkeep _ hm (hother _ (by rw [hu]; simp)), hu⟩
  · obtain ⟨hm, hu⟩ := hp.adapters m x hx
    exact ⟨hkeep _ hm (hother _ (by rw [hu]; simp)), hu⟩
  · obtain ⟨hm, hu⟩ := hp.megas sel x hx
    exact ⟨hkeep _ hm (hother _ (by rw [hu]; simp)), hu⟩
  · have hb : Function.update s.pics stub.base none b = some d := hb
    by_cases he : b = stub.base
    · rw [he, update_self] at hb
      cases hb
    · rw [update_of_ne he] at hb
      obtain ⟨hbase, hm, hu⟩ := hp.pics b d hb
      refine ⟨hbase, hkeep _ hm ?_, hu⟩
      intro hs
      rw [hs] at hbase
      exact he hbase.symm
  · obtain ⟨d, hdx, hhx⟩ := hp.owned id i site x hs hx
    have hne : x ≠ stub := by
      rintro rfl
      exact hfree id i site hs hx
    refine ⟨d, ?_, hhx⟩
    change Function.update s.pics stub.base none x.base = some d
    rw [update_of_ne (base_ne hd hh hdx hhx hne)]
    exact hdx

theorem freePic_stateLive {desc : PicDesc} (hd : s.pics stub.base = some desc)
    (hh : desc.handle = stub) (hl : s.StateLive state)
    (hne : state ≠ .pic stub) : (s.freePic stub).StateLive state := by
  have hlive := hl
  refine hl.transfer (fun _ _ h => h) (fun x d hx hdx => ?_) (fun _ _ h => h)
  subst hx
  obtain ⟨d', hdx', hhx, _⟩ := hlive
  rw [hdx] at hdx'
  cases hdx'
  have hx : x ≠ stub := by
    rintro rfl
    exact hne rfl
  change Function.update s.pics stub.base none x.base = some d
  rw [update_of_ne (base_ne hd hh hdx hhx hx)]
  exact hdx

theorem Safe.freePic (hsafe : s.Safe) (hv : s.Vacant stub) : (s.freePic stub).Safe := by
  obtain ⟨⟨desc, hd, hh⟩, hfree⟩ := hv
  intro id nm hs hm site hsite
  obtain ⟨i, hi⟩ := mem_siteAt hs hsite
  exact freePic_stateLive hd hh (hsafe id nm hs hm site hsite) (hfree id i site hi)

theorem Placed.vacant_of_patch (hp : s.Placed) (hs : s.siteAt caller idx = some site) (hx : site.state = .pic stub)
    (hne : state ≠ .pic stub) : (s.patchSite caller idx state).Vacant stub := by
  refine ⟨hp.owned caller idx site stub hs hx, fun id i site' hs' hx' => ?_⟩
  rw [patchSite_siteAt] at hs'
  split at hs'
  next =>
    obtain ⟨site₀, _, rfl⟩ := map_eq_some_iff.mp hs'
    exact hne hx'
  next hc =>
    obtain ⟨hid, hi⟩ := hp.unshared caller idx id i site site' stub hs hs' hx hx'
    exact hc ⟨hid.symm, hi.symm⟩

end WinArmVm.CodeSpace
