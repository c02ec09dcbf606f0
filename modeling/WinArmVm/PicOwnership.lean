import WinArmVm.CodeSpaceRuns

namespace WinArmVm.CodeSpace

open List Option Function

variable {s s' : CodeSpace}

/-- The site is in state `Pic` with this stub. -/
def Targets (s : CodeSpace) (x : NmethodId × Nat) (stub : CodeHandle) : Prop :=
  ∃ site, s.siteAt x.1 x.2 = some site ∧ site.state = .pic stub

/-- The entries of the PIC table and the sites in state `Pic` correspond one to one. -/
structure PicsOwned (s : CodeSpace) : Prop where
  registered : ∀ x stub, s.Targets x stub → ∃ desc, s.pics stub.base = some desc ∧ desc.handle = stub
  owner : ∀ b desc, s.pics b = some desc → ∃! x, s.Targets x desc.handle

/-- What every step keeps that frees no code with a PIC of its own. A super site never has one. -/
structure Owned (s : CodeSpace) : Prop where
  placed : s.Placed
  held : ∀ b desc, s.pics b = some desc → ∃ x, s.Targets x desc.handle
  supers : ∀ id idx site, s.siteAt id idx = some site → site.superKlass ≠ none → ∀ stub, site.state ≠ .pic stub

variable {caller : NmethodId} {stub : CodeHandle} {idx : Nat} {state : LinkState} {id : NmethodId} {x : NmethodId × Nat}
  {site : LinkedSite}

theorem Placed.targets_inj (hp : s.Placed) {x y : NmethodId × Nat} (hx : s.Targets x stub)
    (hy : s.Targets y stub) : x = y := by
  obtain ⟨site, hs, hst⟩ := hx
  obtain ⟨site', hs', hst'⟩ := hy
  obtain ⟨hid, hidx⟩ := hp.unshared x.1 x.2 y.1 y.2 site site' stub hs hs' hst hst'
  exact Prod.ext hid hidx

theorem Owned.picsOwned (h : s.Owned) : s.PicsOwned where
  registered := by
    rintro x stub ⟨site, hs, hst⟩
    exact h.placed.owned x.1 x.2 site stub hs hst
  owner := by
    intro b desc hd
    obtain ⟨x, hx⟩ := h.held b desc hd
    exact ⟨x, hx, fun y hy => h.placed.targets_inj hy hx⟩

theorem Grows.targets (hg : Grows s s') : s'.Targets x stub ↔ s.Targets x stub := by
  unfold Targets
  rw [hg.siteAt]

theorem patchSite_targets (hne : x ≠ (caller, idx)) :
    (s.patchSite caller idx state).Targets x stub ↔ s.Targets x stub := by
  have hno : ¬ (x.1 = caller ∧ x.2 = idx) := fun ⟨h₁, h₂⟩ => hne (Prod.ext h₁ h₂)
  unfold Targets
  rw [patchSite_siteAt, if_neg hno]

theorem patchSite_targets_self (hs : s.siteAt caller idx = some site) (stub : CodeHandle) :
    (s.patchSite caller idx (.pic stub)).Targets (caller, idx) stub := by
  refine ⟨{ site with state := .pic stub }, ?_, rfl⟩
  rw [patchSite_siteAt, if_pos ⟨rfl, rfl⟩, hs, map_some]

section

variable (h : s.Owned)

include h

theorem Owned.patchSite_supers (hstate : ∀ site, s.siteAt caller idx = some site → site.superKlass ≠ none → ∀ stub, state ≠ .pic stub) :
    ∀ id i site, (s.patchSite caller idx state).siteAt id i = some site → site.superKlass ≠ none →
      ∀ stub, site.state ≠ .pic stub := by
  intro id i site hs hsup stub
  rw [patchSite_siteAt] at hs
  split at hs
  next he =>
    obtain ⟨old, hold, rfl⟩ := map_eq_some_iff.mp hs
    obtain ⟨rfl, rfl⟩ := he
    exact hstate old hold hsup stub
  next => exact h.supers id i site hs hsup stub

theorem Owned.grows (hp : s'.Placed) (hg : Grows s s') (hpics : s'.pics = s.pics) : s'.Owned where
  placed := hp
  held := by
    intro b desc hd
    rw [hpics] at hd
    obtain ⟨x, hx⟩ := h.held b desc hd
    exact ⟨x, hg.targets.mpr hx⟩
  supers := by
    intro id idx site hs
    rw [hg.siteAt] at hs
    exact h.supers id idx site hs

theorem Owned.patchSite (hold : ∀ stub, ¬ s.Targets (caller, idx) stub) (hnot : ∀ stub, state ≠ .pic stub) :
    (s.patchSite caller idx state).Owned where
  placed := h.placed.patchSite fun stub he => absurd he (hnot stub)
  held := by
    intro b desc hd
    obtain ⟨x, hx⟩ := h.held b desc hd
    have hne : x ≠ (caller, idx) := by
      rintro rfl
      exact hold desc.handle hx
    exact ⟨x, (patchSite_targets hne).mpr hx⟩
  supers := h.patchSite_supers fun _ _ _ => hnot

theorem Owned.firstPic (hs : s.siteAt caller idx = some site) (hnone : site.superKlass = none)
    (hold : ∀ stub, ¬ s.Targets (caller, idx) stub) {pairs : List (KlassOop × LinkTarget)}
    (hb : s.buildPic pairs = some (stub, s')) : (s'.patchSite caller idx (.pic stub)).Owned := by
  obtain ⟨hp, hg, hpic, hunused, _⟩ := h.placed.buildPic hb
  have hs' : s'.siteAt caller idx = some site := by rw [hg.siteAt, hs]
  have hvacant : s'.Vacant stub := by
    refine ⟨⟨_, hpic, rfl⟩, ?_⟩
    intro id i site' hi
    rw [hg.siteAt] at hi
    exact hunused id i site' hi
  constructor
  · apply hp.patchSite
    intro x he
    cases he
    exact hvacant
  · intro b desc hd
    have hd : s'.pics b = some desc := hd
    by_cases hbase : b = stub.base
    · rw [hbase, hpic] at hd
      cases hd
      exact ⟨(caller, idx), patchSite_targets_self hs' stub⟩
    · obtain ⟨⟨h₁, cache⟩, ha, he⟩ := bind_eq_some_iff.mp hb
      cases he
      have hd : Function.update s.pics stub.base (some ⟨stub, pairs⟩) b = some desc := hd
      rw [update_of_ne hbase] at hd
      obtain ⟨x, hx⟩ := h.held b desc hd
      have hne : x ≠ (caller, idx) := by
        rintro rfl
        exact hold desc.handle hx
      exact ⟨x, (patchSite_targets hne).mpr (hg.targets.mpr hx)⟩
  · intro id i site' hi hsup x
    rw [patchSite_siteAt] at hi
    split at hi
    next he =>
      obtain ⟨rfl, rfl⟩ := he
      rw [hs'] at hi
      cases hi
      exact absurd hnone hsup
    next =>
      rw [hg.siteAt] at hi
      exact h.supers id i site' hi hsup x

theorem Owned.patchFree (hx : s.Targets (caller, idx) stub) (hnot : ∀ stub, state ≠ .pic stub) :
    ((s.freePic stub).patchSite caller idx state).Owned := by
  obtain ⟨site, hs, hst⟩ := hx
  have hv := h.placed.vacant_of_patch hs hst (hnot stub)
  have hp : (s.patchSite caller idx state).Placed := h.placed.patchSite fun x he => absurd he (hnot x)
  refine ⟨hp.freePic hv, ?_, h.patchSite_supers fun _ _ _ => hnot⟩
  intro b desc hd
  have hd : Function.update s.pics stub.base none b = some desc := hd
  by_cases hb : b = stub.base
  · rw [hb, update_self] at hd
    cases hd
  · rw [update_of_ne hb] at hd
    obtain ⟨x, hx⟩ := h.held b desc hd
    have hbase := (h.placed.pics b desc hd).1
    have hne : x ≠ (caller, idx) := by
      rintro rfl
      obtain ⟨site', hs', hst'⟩ := hx
      have hs' : s.siteAt caller idx = some site' := hs'
      rw [hs] at hs'
      cases hs'
      rw [hst] at hst'
      cases hst'
      exact hb hbase.symm
    exact ⟨x, (patchSite_targets hne).mpr hx⟩

theorem Owned.replacePic (hs : s.siteAt caller idx = some site) (hnone : site.superKlass = none)
    (hst : site.state = .pic stub) (pairs : List (KlassOop × LinkTarget)) :
    (s.replacePic caller idx stub pairs).Owned := by
  unfold CodeSpace.replacePic
  split
  next new s₁ hb =>
    obtain ⟨hp, hg, hpic, hunused, hnew⟩ := h.placed.buildPic hb
    have hs₁ : s₁.siteAt caller idx = some site := by rw [hg.siteAt, hs]
    obtain ⟨old, hold, hh⟩ := h.placed.owned caller idx site stub hs hst
    have hlive := (h.placed.pics _ _ hold).2.1
    rw [hh] at hlive
    have hne : new ≠ stub := by
      rintro rfl
      exact hnew hlive
    have hvacant : s₁.Vacant new := by
      refine ⟨⟨_, hpic, rfl⟩, ?_⟩
      intro id i site' hi
      rw [hg.siteAt] at hi
      exact hunused id i site' hi
    have hp' : (s₁.patchSite caller idx (.pic new)).Placed := by
      apply hp.patchSite
      intro x he
      cases he
      exact hvacant
    have hstate : LinkState.pic new ≠ .pic stub := fun he => hne (LinkState.pic.inj he)
    have hv := hp.vacant_of_patch hs₁ hst hstate
    refine ⟨hp'.freePic hv, ?_, ?_⟩
    · intro b desc hd
      have hd : Function.update s₁.pics stub.base none b = some desc := hd
      by_cases hb' : b = stub.base
      · rw [hb', update_self] at hd
        cases hd
      rw [update_of_ne hb'] at hd
      by_cases hbn : b = new.base
      · rw [hbn, hpic] at hd
        cases hd
        exact ⟨(caller, idx), patchSite_targets_self hs₁ new⟩
      · obtain ⟨⟨h₁, cache⟩, ha, he⟩ := bind_eq_some_iff.mp hb
        cases he
        have hd : Function.update s.pics new.base (some ⟨new, pairs⟩) b = some desc := hd
        rw [update_of_ne hbn] at hd
        obtain ⟨x, hx⟩ := h.held b desc hd
        have hbase := (h.placed.pics b desc hd).1
        have hx' : x ≠ (caller, idx) := by
          rintro rfl
          obtain ⟨site', hs', hst'⟩ := hx
          have hs' : s.siteAt caller idx = some site' := hs'
          rw [hs] at hs'
          cases hs'
          rw [hst] at hst'
          cases hst'
          exact hb' hbase.symm
        exact ⟨x, (patchSite_targets hx').mpr (hg.targets.mpr hx)⟩
    · intro id i site' hi hsup x
      have hfreed : ((s₁.freePic stub).patchSite caller idx (.pic new)).siteAt id i =
          (s₁.patchSite caller idx (.pic new)).siteAt id i := rfl
      rw [hfreed, patchSite_siteAt] at hi
      split at hi
      next he =>
        obtain ⟨rfl, rfl⟩ := he
        rw [hs₁] at hi
        cases hi
        exact absurd hnone hsup
      next =>
        rw [hg.siteAt] at hi
        exact h.supers id i site' hi hsup x
  next => exact h

theorem Owned.moves (hm : s.Moves caller idx s') : s'.Owned := by
  cases hm with
  | grows hp hg hpics => exact h.grows hp hg hpics
  | @mono s₁ site k t hs hnot hp hg hpics hlive =>
    have h₁ := h.grows hp hg hpics
    apply h₁.patchSite
    · rintro stub ⟨site', hs', hst'⟩
      have hs' : s₁.siteAt caller idx = some site' := hs'
      rw [hg.siteAt, hs] at hs'
      cases hs'
      by_cases hsup : site.superKlass = none
      · exact hnot hsup stub hst'
      · exact h.supers caller idx site hs hsup stub hst'
    · intro stub
      simp
  | @first s₁ s₂ site pairs stub hs hnone hnot hp hg hpics hlive hb =>
    have h₁ := h.grows hp hg hpics
    rw [← hg.siteAt] at hs
    apply h₁.firstPic hs hnone ?_ hb
    rintro x ⟨site', hs', hst'⟩
    have hs' : s₁.siteAt caller idx = some site' := hs'
    rw [hs] at hs'
    cases hs'
    exact hnot x hst'
  | replace hs hnone hx hd hp hg hpics hlive hsub =>
    rw [← hg.siteAt] at hs
    exact (h.grows hp hg hpics).replacePic hs hnone hx _
  | promote hs hnone hx hp hg hpics hreg =>
    rw [← hg.siteAt] at hs
    exact (h.grows hp hg hpics).patchFree ⟨_, hs, hx⟩ fun stub => by simp

end

variable {sites : List NewSite}

theorem resolveSupers_pics {resolved : List (NewSite × Option (KlassOop × LinkTarget))}
    (hr : s.resolveSupers sites = some (resolved, s')) : s'.pics = s.pics := by
  induction sites generalizing s resolved with
  | nil =>
    cases hr
    rfl
  | cons new rest ih =>
    unfold CodeSpace.resolveSupers at hr
    split at hr
    next =>
      obtain ⟨⟨tail, s₁⟩, ht, he⟩ := bind_eq_some_iff.mp hr
      cases he
      exact ih ht
    next =>
      obtain ⟨⟨t₀, s₁⟩, hres, hr⟩ := bind_eq_some_iff.mp hr
      obtain ⟨⟨tail, s₂⟩, ht, he⟩ := bind_eq_some_iff.mp hr
      cases he
      exact (ih ht).trans (resolveTarget_pics hres)

theorem Owned.install (h : s.Owned) {blob : CodeBlob} {id : Option NmethodId}
    (hi : s.install blob sites = some (id, s')) : s'.Owned := by
  have hentry := blob.entry_lt
  obtain ⟨⟨resolved, s₁⟩, hr, hi⟩ := bind_eq_some_iff.mp hi
  obtain ⟨hp₁, hg, hlive⟩ := h.placed.resolveSupers hr
  have h₁ := h.grows hp₁ hg (resolveSupers_pics hr)
  dsimp only at hi
  split at hi
  next =>
    cases some.inj hi
    exact h₁
  next code cache ha =>
    cases hi
    have hgrant := hp₁.valid.alloc (by omega) ha
    have hnew : ∀ site ∈ resolved.map (s₁.linkSite code blob), ∀ stub, site.state ≠ .pic stub := by
      intro site hm stub he
      obtain ⟨new, hn, rfl⟩ := mem_map.mp hm
      rcases hp₁.linkSite hgrant.len_le (hlive new hn) with hst | ⟨k, t, hst, _⟩
      · rw [hst] at he
        cases he
      · rw [hst] at he
        cases he
    constructor
    · exact hp₁.add hgrant rfl blob.entry_lt blob.verified_lt hnew
    · intro b desc hd
      obtain ⟨x, site, hs, hst⟩ := h₁.held b desc hd
      refine ⟨x, site, ?_, hst⟩
      obtain ⟨nm, hn, hidx⟩ := bind_eq_some_iff.mp hs
      refine bind_eq_some_iff.mpr ⟨nm, ?_, hidx⟩
      have hne : x.1 ≠ firstFree s₁.size s₁.slots := by
        intro e
        rw [e, firstFree_none hp₁.bounded] at hn
        cases hn
      exact (update_of_ne hne _ _).trans hn
    · intro id' i site hs hsup stub
      rcases added_siteAt hs with ⟨_, hidx⟩ | hs
      · exact hnew site (mem_of_getElem? hidx) stub
      · exact h₁.supers id' i site hs hsup stub

theorem Owned.sameSites (h : s.Owned) (hp : s'.Placed) (hsites : ∀ id idx, s'.siteAt id idx = s.siteAt id idx)
    (hpics : s'.pics = s.pics) : s'.Owned where
  placed := hp
  held := by
    intro b desc hd
    rw [hpics] at hd
    obtain ⟨x, site, hs, hst⟩ := h.held b desc hd
    exact ⟨x, site, (hsites x.1 x.2).trans hs, hst⟩
  supers := by
    intro id idx site hs
    rw [hsites] at hs
    exact h.supers id idx site hs

/-- The nmethod has a site in state `Pic`. -/
def OwnsPic (s : CodeSpace) (id : NmethodId) : Prop := ∃ idx stub, s.Targets (id, idx) stub

theorem Owned.resetSite (h : s.Owned) (x : NmethodId × Nat) :
    (s.resetSite x).Owned ∧ (∀ y stub, (s.resetSite x).Targets y stub ↔ y ≠ x ∧ s.Targets y stub) := by
  obtain ⟨caller, idx⟩ := x
  have htargets : ∀ t : CodeSpace, t.slots = s.slots → ∀ y stub,
      (t.patchSite caller idx .unresolved).Targets y stub ↔ y ≠ (caller, idx) ∧ s.Targets y stub := by
    intro t hslots y stub
    have hat : ∀ id i, t.siteAt id i = s.siteAt id i := by
      intro id i
      unfold siteAt
      rw [hslots]
    by_cases hy : y = (caller, idx)
    · subst hy
      constructor
      · rintro ⟨site, hs, hst⟩
        have hs : (t.patchSite caller idx .unresolved).siteAt caller idx = some site := hs
        rw [patchSite_siteAt, if_pos ⟨rfl, rfl⟩] at hs
        obtain ⟨old, _, rfl⟩ := map_eq_some_iff.mp hs
        cases hst
      · rintro ⟨hne, _⟩
        exact absurd rfl hne
    · rw [patchSite_targets hy]
      unfold Targets
      rw [hat]
      exact ⟨fun ht => ⟨hy, ht⟩, And.right⟩
  have hplain : (∀ stub, ¬ s.Targets (caller, idx) stub) → (s.patchSite caller idx .unresolved).Owned :=
    fun hno => h.patchSite hno fun stub => by simp
  unfold CodeSpace.resetSite
  cases hs : s.siteAt caller idx with
  | none =>
    refine ⟨hplain ?_, htargets s rfl⟩
    rintro stub ⟨site, hs', _⟩
    cases hs.symm.trans hs'
  | some site =>
    have hother : (∀ stub, site.state ≠ .pic stub) → ∀ stub, ¬ s.Targets (caller, idx) stub := by
      rintro hno stub ⟨site', hs', hst'⟩
      cases (hs.symm.trans hs')
      exact hno stub hst'
    cases hst : site.state with
    | pic stub =>
      simp only [map_some, hst]
      exact ⟨h.patchFree ⟨site, hs, hst⟩ fun x => by simp, htargets (s.freePic stub) rfl⟩
    | unresolved =>
      simp only [map_some, hst]
      exact ⟨hplain (hother fun x => by rw [hst]; simp), htargets s rfl⟩
    | mono k t =>
      simp only [map_some, hst]
      exact ⟨hplain (hother fun x => by rw [hst]; simp), htargets s rfl⟩
    | mega stub =>
      simp only [map_some, hst]
      exact ⟨hplain (hother fun x => by rw [hst]; simp), htargets s rfl⟩

theorem Owned.resetSites (h : s.Owned) (l : List (NmethodId × Nat)) : (l.foldl CodeSpace.resetSite s).Owned ∧
      ∀ y stub, (l.foldl CodeSpace.resetSite s).Targets y stub ↔ y ∉ l ∧ s.Targets y stub := by
  induction l generalizing s with
  | nil => exact ⟨h, fun y stub => by simp⟩
  | cons x rest ih =>
    obtain ⟨h₁, ht₁⟩ := h.resetSite x
    obtain ⟨h₂, ht₂⟩ := ih h₁
    refine ⟨h₂, ?_⟩
    intro y stub
    rw [foldl_cons, ht₂, ht₁]
    simp only [mem_cons, not_or]
    constructor
    · rintro ⟨hrest, hne, ht⟩
      exact ⟨⟨hne, hrest⟩, ht⟩
    · rintro ⟨⟨hne, hrest⟩, ht⟩
      exact ⟨hrest, hne, ht⟩

theorem removeCode_targets {code : CodeHandle} :
    (s.removeCode id code).Targets x stub ↔ x.1 ≠ id ∧ s.Targets x stub := by
  constructor
  · rintro ⟨site, hs, hst⟩
    obtain ⟨hne, hs⟩ := removeCode_siteAt hs
    exact ⟨hne, site, hs, hst⟩
  · rintro ⟨hne, site, hs, hst⟩
    refine ⟨site, ?_, hst⟩
    obtain ⟨nm, hn, hidx⟩ := bind_eq_some_iff.mp hs
    exact bind_eq_some_iff.mpr ⟨nm, (update_of_ne hne _ _).trans hn, hidx⟩

theorem Owned.flush_stages (h : s.Owned) {nm : CodeRecord} (hs : s.slots id = some nm) :
    ∃ (s₂ : CodeSpace) (nm₂ : CodeRecord), s₂.Owned ∧ s₂.slots id = some nm₂ ∧ s.flushNmethod id = s₂.removeCode id nm₂.code ∧
      (∀ y stub, s₂.Targets y stub → s.Targets y stub) ∧
      ∀ idx stub, s₂.Targets (id, idx) stub ↔ s.Targets (id, idx) stub := by
  have hz : (s.setState id .zombie).Owned :=
    h.sameSites (h.placed.setState id .zombie) (setState_siteAt s id .zombie) rfl
  have hzs : (s.setState id .zombie).slots id = some { nm with state := .zombie } := by
    rw [setState_slots, if_pos rfl, hs]
    rfl
  have hzt : ∀ y stub, (s.setState id .zombie).Targets y stub ↔ s.Targets y stub := by
    intro y stub
    unfold Targets
    rw [setState_siteAt]
  obtain ⟨h₂, ht₂⟩ := hz.resetSites ((s.setState id .zombie).staleSites nm.code)
  have hskip : ∀ idx, (id, idx) ∉ (s.setState id .zombie).staleSites nm.code := by
    intro idx hm
    obtain ⟨nm', site, hn', ha, _⟩ := hz.placed.mem_staleSites.mp hm
    rw [hzs] at hn'
    cases hn'
    cases ha
  have hkept : ∀ l : List (NmethodId × Nat), ∀ t : CodeSpace, ∀ x, t.slots id = some x →
      ∃ x', (l.foldl CodeSpace.resetSite t).slots id = some x' ∧ x'.code = x.code := by
    intro l
    induction l with
    | nil => exact fun t x hx => ⟨x, hx, rfl⟩
    | cons y rest ih =>
      intro t x hx
      have hone : ∃ x', (t.resetSite y).slots id = some x' ∧ x'.code = x.code := by
        have hslots : ∃ u : CodeSpace, u.slots = t.slots ∧ t.resetSite y = u.patchSite y.1 y.2 .unresolved := by
          unfold CodeSpace.resetSite
          split
          next stub _ => exact ⟨t.freePic stub, rfl, rfl⟩
          next => exact ⟨t, rfl, rfl⟩
        obtain ⟨u, hu, he⟩ := hslots
        rw [he, patchSite_slots, hu]
        split
        next hy =>
          rw [← hy, hx]
          exact ⟨_, rfl, rfl⟩
        next => exact ⟨x, hx, rfl⟩
      obtain ⟨x', hx', hc⟩ := hone
      obtain ⟨x'', hx'', hc'⟩ := ih (t.resetSite y) x' hx'
      exact ⟨x'', hx'', hc'.trans hc⟩
  obtain ⟨nm₂, hs₂, hcode⟩ := hkept ((s.setState id .zombie).staleSites nm.code) _ _ hzs
  have hcode : nm₂.code = nm.code := hcode
  refine ⟨_, nm₂, h₂, hs₂, ?_, ?_, ?_⟩
  · unfold CodeSpace.flushNmethod
    rw [hs, hcode]
    rfl
  · intro y stub ht
    exact (hzt y stub).mp ((ht₂ y stub).mp ht).2
  · intro idx stub
    rw [ht₂, hzt]
    exact ⟨And.right, fun ht => ⟨hskip idx, ht⟩⟩

theorem Owned.flushNmethod (h : s.Owned) (hno : ¬ s.OwnsPic id) :
    (s.flushNmethod id).Owned ∧ ∀ y stub, (s.flushNmethod id).Targets y stub → s.Targets y stub := by
  cases hs : s.slots id with
  | none =>
    unfold CodeSpace.flushNmethod
    rw [hs]
    exact ⟨h, fun _ _ ht => ht⟩
  | some nm =>
    obtain ⟨s₂, nm₂, h₂, hs₂, hflush, hsub, hself⟩ := h.flush_stages hs
    rw [hflush]
    refine ⟨⟨h₂.placed.removeCode hs₂, ?_, ?_⟩, ?_⟩
    · intro b desc hd
      obtain ⟨x, hx⟩ := h₂.held b desc hd
      refine ⟨x, removeCode_targets.mpr ⟨?_, hx⟩⟩
      rintro rfl
      exact hno ⟨x.2, desc.handle, (hself x.2 desc.handle).mp hx⟩
    · intro id' i site hi
      exact h₂.supers id' i site (removeCode_siteAt hi).2
    · intro y stub ht
      exact hsub y stub (removeCode_targets.mp ht).2

theorem Owned.flush_leaks (h : s.Owned) (ho : s.OwnsPic id) : ¬ (s.flushNmethod id).PicsOwned := by
  obtain ⟨idx, stub, ht⟩ := ho
  obtain ⟨site, hsite, hst⟩ := ht
  obtain ⟨nm, hn, _⟩ := siteAt_mem hsite
  obtain ⟨s₂, nm₂, h₂, hs₂, hflush, hsub, hself⟩ := h.flush_stages hn
  have ht₂ : s₂.Targets (id, idx) stub := (hself idx stub).mpr ⟨site, hsite, hst⟩
  intro howned
  rw [hflush] at howned
  obtain ⟨site₂, hsite₂, hst₂⟩ := ht₂
  obtain ⟨desc, hd, hh⟩ := h₂.placed.owned id idx site₂ stub hsite₂ hst₂
  obtain ⟨y, hy, _⟩ := howned.owner stub.base desc hd
  obtain ⟨hne, hy⟩ := removeCode_targets.mp hy
  rw [hh] at hy
  exact hne (congrArg Prod.fst (h₂.placed.targets_inj hy ⟨site₂, hsite₂, hst₂⟩))

theorem Owned.flushAll (h : s.Owned) {ids : List NmethodId} (hno : ∀ id ∈ ids, ¬ s.OwnsPic id) :
    (ids.foldl CodeSpace.flushNmethod s).Owned := by
  induction ids generalizing s with
  | nil => exact h
  | cons id rest ih =>
    obtain ⟨h₁, hsub⟩ := h.flushNmethod (hno id mem_cons_self)
    apply ih h₁
    rintro id' hid ⟨idx, stub, ht⟩
    exact hno id' (mem_cons_of_mem id hid) ⟨idx, stub, hsub _ _ ht⟩

theorem Owned.step (h : s.Owned) {a : CodeAct} (hs : s.step a = some s')
    (hno : ∀ id ∈ s.frees a, ¬ s.OwnsPic id) : s'.Owned := by
  cases a with
  | install blob sites =>
    obtain ⟨⟨id, s₁⟩, hi, rfl⟩ := map_eq_some_iff.mp hs
    exact h.install hi
  | resolve caller idx k callee old =>
    obtain ⟨⟨t, s₁⟩, hr, rfl⟩ := map_eq_some_iff.mp hs
    exact h.moves (h.placed.rtResolveSend_moves hr)
  | repoint caller idx k selector id callee => exact h.moves (h.placed.repointSite_moves hs)
  | enter id =>
    obtain ⟨nm, hn, hs⟩ := bind_eq_some_iff.mp hs
    split at hs
    next =>
      cases hs
      exact h.sameSites (h.placed.activate _) (fun _ _ => rfl) rfl
    next => cases hs
  | leave id =>
    dsimp only [CodeSpace.step] at hs
    split at hs
    next =>
      cases hs
      exact h.sameSites (h.placed.activate _) (fun _ _ => rfl) rfl
    next => cases hs
  | retire id =>
    obtain ⟨nm, hn, hs⟩ := bind_eq_some_iff.mp hs
    split at hs
    next =>
      cases hs
      exact h.sameSites (h.placed.setState id .notEntrant) (setState_siteAt s id .notEntrant) rfl
    next => cases hs
  | flush id =>
    dsimp only [CodeSpace.step] at hs
    split at hs
    next =>
      cases hs
      exact (h.flushNmethod (hno id (mem_singleton.mpr rfl))).1
    next => cases hs
  | sweep =>
    cases hs
    exact h.flushAll hno

theorem boot_owned {cap : Nat} {blobs : StubBlobs} (h : boot cap blobs = some s) : s.Owned := by
  have hp := (boot_linked h).placed
  obtain ⟨⟨stubs, cache⟩, hs, he⟩ := bind_eq_some_iff.mp h
  cases he
  refine ⟨hp, ?_, ?_⟩
  · intro b desc hd
    cases hd
  · intro id idx site hs
    cases hs

theorem CodeReach.owned (h : CodeReach (fun s id => ¬ s.OwnsPic id) s) : s.Owned := by
  induction h with
  | boot h => exact boot_owned h
  | step _ hs hno ih => exact ih.step hs hno

/-- PIC ownership: in a run that flushes no nmethod with a site in state `Pic`, the entries of the
PIC table are in bijection with such sites. The condition is exact: a flush that breaks it
leaves a PIC that no site owns. -/
theorem pics_owned (h : CodeReach (fun s id => ¬ s.OwnsPic id) s) :
    s.PicsOwned ∧ ∀ id, (s.flushNmethod id).PicsOwned ↔ ¬ s.OwnsPic id := by
  have ho := h.owned
  refine ⟨ho.picsOwned, fun id => ⟨fun hflush hpic => ho.flush_leaks hpic hflush, fun hno => ?_⟩⟩
  exact (ho.flushNmethod hno).1.picsOwned

/-- A callee whose only send has seen two classes, and nothing else. -/
def picCaller : List CodeAct :=
  [.install smallBlob [⟨⟨24⟩, none, none⟩], .resolve ⟨0⟩ 0 ⟨16⟩ (.adapter ⟨1⟩) (.adapter ⟨1⟩),
    .resolve ⟨0⟩ 0 ⟨32⟩ (.adapter ⟨2⟩) (.adapter ⟨1⟩)]

theorem picCaller_reach {ok : CodeSpace → NmethodId → Prop}
    (hr : ((boot 4096 smallStubs).bind fun s => s.run picCaller) = some s) : CodeReach ok s := by
  obtain ⟨s₀, h₀, hr⟩ := bind_eq_some_iff.mp hr
  refine CodeReach.run ?_ (CodeReach.boot h₀) hr
  intro a ha
  unfold picCaller at ha
  simp only [mem_cons, not_mem_nil, or_false] at ha
  rcases ha with rfl | rfl | rfl
  all_goals exact fun _ => rfl

theorem pics_owned_caller : ∃ s : CodeSpace,
    (s.siteAt ⟨0⟩ 0).any (fun site => match site.state with | .pic _ => true | _ => false) = true ∧
    s.PicsOwned ∧ ∀ id, (s.flushNmethod id).PicsOwned ↔ ¬ s.OwnsPic id := by
  have hrun : (((boot 4096 smallStubs).bind fun s => s.run picCaller).map fun s =>
      (s.siteAt ⟨0⟩ 0).any fun site => match site.state with | .pic _ => true | _ => false) = some true := by
    decide +kernel
  obtain ⟨s, hs, hsite⟩ := map_eq_some_iff.mp hrun
  exact ⟨s, hsite, pics_owned (picCaller_reach hs)⟩

/-- The caller is retired and swept: its PIC stays. -/
theorem flushed_caller_leaks_pic : ¬ ∀ s, CodeReach (fun _ _ => True) s → s.PicsOwned := by
  intro hclaim
  have hrun : (((boot 4096 smallStubs).bind fun s => s.run picCaller).map fun s =>
      (decide (s.activations ⟨0⟩ = 0), (s.siteAt ⟨0⟩ 0).any fun site =>
        match site.state with | .pic _ => true | _ => false)) = some (true, true) := by decide +kernel
  obtain ⟨s, hs, he⟩ := map_eq_some_iff.mp hrun
  obtain ⟨hidle, hpic⟩ := Prod.mk.inj he
  have hidle := of_decide_eq_true hidle
  have hreach : ∀ ok, CodeReach ok s := fun ok => picCaller_reach hs
  have ho : s.OwnsPic ⟨0⟩ := by
    obtain ⟨site, hsite, hst⟩ := (any_eq_true _ _).mp hpic
    cases hstate : site.state with
    | pic stub => exact ⟨0, stub, site, hsite, hstate⟩
    | unresolved =>
      rw [hstate] at hst
      cases hst
    | mono k t =>
      rw [hstate] at hst
      cases hst
    | mega stub =>
      rw [hstate] at hst
      cases hst
  apply (hreach fun s id => ¬ s.OwnsPic id).owned.flush_leaks ho
  apply hclaim
  apply (hreach fun _ _ => True).step (a := .flush ⟨0⟩) ?_ fun _ _ => trivial
  dsimp only [CodeSpace.step]
  rw [if_pos hidle]

end WinArmVm.CodeSpace
