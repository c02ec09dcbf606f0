import WinArmVm.CodeSpaceSteps

namespace WinArmVm.CodeSpace

open List Option Function

variable {s s' : CodeSpace}

/-- What resetting the sites of `l` leaves: the records but for those sites, and
every table but the freed PICs. -/
structure Resets (l : List (NmethodId × Nat)) (s s' : CodeSpace) : Prop where
  kept : ∀ id nm, s.slots id = some nm → ∃ nm', s'.slots id = some nm' ∧ nm'.code = nm.code ∧ nm'.state = nm.state
  slot : ∀ id nm', s'.slots id = some nm' → ∃ nm, s.slots id = some nm ∧ nm'.code = nm.code ∧ nm'.state = nm.state
  siteAt : ∀ id idx, s'.siteAt id idx =
    if (id, idx) ∈ l then (s.siteAt id idx).map fun site => { site with state := .unresolved }
    else s.siteAt id idx
  pics : ∀ b desc, s'.pics b = some desc → s.pics b = some desc
  activations : s'.activations = s.activations
  stubs : s'.stubs = s.stubs
  adapters : s'.adapters = s.adapters

theorem Resets.nil (s : CodeSpace) : Resets [] s s where
  kept := fun _ nm h => ⟨nm, h, rfl, rfl⟩
  slot := fun _ nm h => ⟨nm, h, rfl, rfl⟩
  siteAt := fun id idx => by rw [if_neg List.not_mem_nil]
  pics := fun _ _ h => h
  activations := rfl
  stubs := rfl
  adapters := rfl

theorem Resets.trans {s'' : CodeSpace} {l l' : List (NmethodId × Nat)} (h : Resets l s s')
    (h' : Resets l' s' s'') : Resets (l ++ l') s s'' where
  kept := fun id nm hs => by
    obtain ⟨nm₁, h₁, hc₁, hst₁⟩ := h.kept id nm hs
    obtain ⟨nm₂, h₂, hc₂, hst₂⟩ := h'.kept id nm₁ h₁
    exact ⟨nm₂, h₂, hc₂.trans hc₁, hst₂.trans hst₁⟩
  slot := fun id nm hs => by
    obtain ⟨nm₁, h₁, hc₁, hst₁⟩ := h'.slot id nm hs
    obtain ⟨nm₂, h₂, hc₂, hst₂⟩ := h.slot id nm₁ h₁
    exact ⟨nm₂, h₂, hc₁.trans hc₂, hst₁.trans hst₂⟩
  siteAt := fun id idx => by
    rw [h'.siteAt, h.siteAt]
    cases s.siteAt id idx with
    | none => simp
    | some site =>
      by_cases hl : (id, idx) ∈ l
      · simp [hl]
      · simp [hl]
  pics := fun b desc hd => h.pics b desc (h'.pics b desc hd)
  activations := h'.activations.trans h.activations
  stubs := h'.stubs.trans h.stubs
  adapters := h'.adapters.trans h.adapters

theorem resets_patchSite (s : CodeSpace) (caller : NmethodId) (idx : Nat) :
    Resets [(caller, idx)] s (s.patchSite caller idx .unresolved) where
  kept := fun id nm hs => by
    rw [patchSite_slots]
    split
    next he =>
      subst id
      rw [hs]
      exact ⟨_, rfl, rfl, rfl⟩
    next => exact ⟨nm, hs, rfl, rfl⟩
  slot := fun id nm' hs => by
    obtain ⟨nm, hn, hc, _, _, hst⟩ := patchSite_slot hs
    exact ⟨nm, hn, hc, hst⟩
  siteAt := fun id i => by
    rw [patchSite_siteAt]
    simp [Prod.ext_iff]
  pics := fun _ _ h => h
  activations := rfl
  stubs := rfl
  adapters := rfl

variable {id : NmethodId} {l : List (NmethodId × Nat)} {nm : CodeRecord} {site : LinkedSite} {x : CodeHandle}
  {block : CodeHandle} {idx : Nat}

theorem Resets.freePic (h : Resets l s s') (stub : CodeHandle) : Resets l s (s'.freePic stub) where
  kept := h.kept
  slot := h.slot
  siteAt := h.siteAt
  pics := fun b desc hd => by
    have hd : Function.update s'.pics stub.base none b = some desc := hd
    apply h.pics b desc
    by_cases he : b = stub.base
    · rw [he, Function.update_self] at hd
      cases hd
    · rw [Function.update_of_ne he] at hd
      exact hd
  activations := h.activations
  stubs := h.stubs
  adapters := h.adapters

theorem Linked.resetSite (h : s.Linked) (x : NmethodId × Nat) :
    (s.resetSite x).Linked ∧ Resets [x] s (s.resetSite x) := by
  obtain ⟨caller, idx⟩ := x
  have hplain : (s.patchSite caller idx .unresolved).Linked := h.patchSite (fun stub => by simp) trivial
  unfold CodeSpace.resetSite
  cases hs : s.siteAt caller idx with
  | none => exact ⟨hplain, resets_patchSite s caller idx⟩
  | some site =>
    cases hst : site.state with
    | pic stub =>
      simp only [map_some, hst]
      refine ⟨h.patchFree hs hst (by simp) (fun x hx => by cases hx) fun _ _ _ => trivial, ?_⟩
      exact (resets_patchSite s caller idx).freePic stub
    | unresolved =>
      simp only [map_some, hst]
      exact ⟨hplain, resets_patchSite s caller idx⟩
    | mono k t =>
      simp only [map_some, hst]
      exact ⟨hplain, resets_patchSite s caller idx⟩
    | mega stub =>
      simp only [map_some, hst]
      exact ⟨hplain, resets_patchSite s caller idx⟩

theorem Linked.resetSites (h : s.Linked) (l : List (NmethodId × Nat)) :
    (l.foldl CodeSpace.resetSite s).Linked ∧ Resets l s (l.foldl CodeSpace.resetSite s) := by
  induction l generalizing s with
  | nil => exact ⟨h, Resets.nil s⟩
  | cons x rest ih =>
    obtain ⟨h₁, hr₁⟩ := h.resetSite x
    obtain ⟨h₂, hr₂⟩ := ih h₁
    exact ⟨h₂, hr₁.trans hr₂⟩

theorem Placed.mem_staleSites (hp : s.Placed) :
    (id, idx) ∈ s.staleSites block ↔ ∃ nm site, s.slots id = some nm ∧ nm.state = .alive ∧
      s.siteAt id idx = some site ∧ s.hitsFlushed block site = true := by
  constructor
  · intro hm
    obtain ⟨i, _, hi⟩ := mem_flatMap.mp hm
    unfold staleSitesOf at hi
    split at hi
    next => cases hi
    next nm hn =>
      split at hi
      next ha =>
        obtain ⟨j, hj, he⟩ := mem_map.mp hi
        obtain ⟨_, hhit⟩ := mem_filter.mp hj
        cases he
        obtain ⟨site, hsite, hhit⟩ := (any_eq_true _ _).mp hhit
        exact ⟨nm, site, hn, ha, bind_eq_some_iff.mpr ⟨nm, hn, hsite⟩, hhit⟩
      next => cases hi
  · intro hm
    obtain ⟨nm, site, hn, ha, hsite, hhit⟩ := hm
    have hlt : id.index < s.size := by
      by_contra hge
      rw [hp.bounded id (by omega)] at hn
      cases hn
    refine mem_flatMap.mpr ⟨id.index, mem_range.mpr hlt, ?_⟩
    obtain ⟨nm', hn', hi⟩ := bind_eq_some_iff.mp hsite
    rw [hn] at hn'
    cases hn'
    have hidx : idx < nm.icSites.length := (List.getElem?_eq_some_iff.mp hi).1
    unfold staleSitesOf
    rw [hn]
    dsimp only
    rw [if_pos ha]
    refine mem_map.mpr ⟨idx, mem_filter.mpr ⟨mem_range.mpr hidx, ?_⟩, rfl⟩
    rw [hi]
    exact hhit

theorem Placed.inRange (hp : s.Placed) {t : LinkTarget} (hb : block ∈ s.cache.live) (ht : s.TargetLive t) :
    CodeSpace.inRange block t = true ↔ t.block = block := by
  have hoff := ht.1
  constructor
  · intro hin
    by_contra hne
    have hapart := hp.valid.live_apart.forall (hp.holds_live ht.2).1 hb hne
    obtain ⟨hlow, hhigh⟩ := (Bool.and_eq_true _ _).mp hin
    have hlow := of_decide_eq_true hlow
    have hhigh := of_decide_eq_true hhigh
    unfold LinkTarget.addr at hlow hhigh
    unfold Span.Apart Span.stop CodeHandle.span at hapart
    dsimp only at hapart
    omega
  · intro he
    rw [he] at hoff
    refine (Bool.and_eq_true _ _).mpr ⟨decide_eq_true ?_, decide_eq_true ?_⟩
    · unfold LinkTarget.addr
      rw [he]
      omega
    · unfold LinkTarget.addr
      rw [he]
      omega

theorem Placed.hitsFlushed (hp : s.Placed) (hb : block ∈ s.cache.live) (hl : s.StateLive site.state) :
    s.hitsFlushed block site = true ↔ s.Refers site.state block := by
  unfold CodeSpace.hitsFlushed
  cases hst : site.state with
  | unresolved => simp [Refers]
  | mega stub => simp [Refers]
  | mono k t =>
    rw [hst] at hl
    exact hp.inRange hb hl
  | pic stub =>
    rw [hst] at hl
    obtain ⟨desc, hd, _, hpairs⟩ := hl
    unfold pairsOf
    simp only [hd, map_some, getD_some, List.any_eq_true, Refers, Option.some.injEq, exists_eq_left']
    constructor
    · rintro ⟨p, hp', hin⟩
      exact ⟨p, hp', (hp.inRange hb (hpairs p hp')).mp hin⟩
    · rintro ⟨p, hp', he⟩
      exact ⟨p, hp', (hp.inRange hb (hpairs p hp')).mpr he⟩

/-- A retired nmethod that a frame still runs keeps a site linked into `id`'s code. -/
def Orphans (s : CodeSpace) (id : NmethodId) : Prop :=
  ∃ nm caller nm' idx site, s.slots id = some nm ∧ s.slots caller = some nm' ∧
    nm'.state = .notEntrant ∧ 0 < s.activations caller ∧ s.siteAt caller idx = some site ∧
    s.Refers site.state nm.code

def removeCode (s : CodeSpace) (id : NmethodId) (code : CodeHandle) : CodeSpace :=
  { s with slots := Function.update s.slots id none, cache := s.cache.release code }

variable {id id' : NmethodId} {caller : NmethodId} {code : CodeHandle}

theorem removeCode_slot (h : (s.removeCode id code).slots id' = some nm) : id' ≠ id ∧ s.slots id' = some nm := by
  have h : Function.update s.slots id none id' = some nm := h
  by_cases he : id' = id
  · rw [he, update_self] at h
    cases h
  · rw [update_of_ne he] at h
    exact ⟨he, h⟩

theorem removeCode_siteAt (h : (s.removeCode id code).siteAt id' idx = some site) :
    id' ≠ id ∧ s.siteAt id' idx = some site := by
  obtain ⟨nm, hn, hi⟩ := bind_eq_some_iff.mp h
  obtain ⟨hne, hn⟩ := removeCode_slot hn
  exact ⟨hne, bind_eq_some_iff.mpr ⟨nm, hn, hi⟩⟩

section

variable (hp : s.Placed) (hs : s.slots id = some nm)

include hp hs

theorem Placed.removeCode : (s.removeCode id nm.code).Placed := by
  obtain ⟨hlive, huse, _⟩ := hp.codes id nm hs
  obtain ⟨hvalid, hl, _⟩ := hp.valid.release hlive
  have hkeep : ∀ x ∈ s.cache.live, x ≠ nm.code → x ∈ (s.cache.release nm.code).live := by
    intro x hx hne
    rw [hl]
    exact (mem_erase_of_ne hne).mpr hx
  have hother : ∀ x : CodeHandle, x.use ≠ .code → x ≠ nm.code := by
    intro x hx he
    rw [he] at hx
    exact hx huse
  refine ⟨hvalid, fun id' hb => ?_, fun id' x hx => ?_, fun id₁ id₂ x₁ x₂ h₁ h₂ hc => ?_,
    fun x hx => ?_, fun m x hx => ?_, fun sel x hx => ?_, fun b d hd => ?_,
    fun id' i site stub hi hx => ?_, fun id₁ i₁ id₂ i₂ site₁ site₂ stub h₁ h₂ hx₁ hx₂ => ?_⟩
  · cases hx : (s.removeCode id nm.code).slots id' with
    | none => rfl
    | some x =>
      obtain ⟨_, hx⟩ := removeCode_slot hx
      rw [hp.bounded id' hb] at hx
      cases hx
  · obtain ⟨hne, hx⟩ := removeCode_slot hx
    obtain ⟨hm, hrest⟩ := hp.codes id' x hx
    exact ⟨hkeep _ hm fun he => hne (hp.codes_inj id' id x nm hx hs he), hrest⟩
  · exact hp.codes_inj id₁ id₂ x₁ x₂ (removeCode_slot h₁).2 (removeCode_slot h₂).2 hc
  · obtain ⟨hm, hu⟩ := hp.stubs x hx
    exact ⟨hkeep x hm (hother x (by rw [hu]; simp)), hu⟩
  · obtain ⟨hm, hu⟩ := hp.adapters m x hx
    exact ⟨hkeep x hm (hother x (by rw [hu]; simp)), hu⟩
  · obtain ⟨hm, hu⟩ := hp.megas sel x hx
    exact ⟨hkeep x hm (hother x (by rw [hu]; simp)), hu⟩
  · obtain ⟨hb, hm, hu⟩ := hp.pics b d hd
    exact ⟨hb, hkeep _ hm (hother _ (by rw [hu]; simp)), hu⟩
  · exact hp.owned id' i site stub (removeCode_siteAt hi).2 hx
  · exact hp.unshared id₁ i₁ id₂ i₂ site₁ site₂ stub (removeCode_siteAt h₁).2 (removeCode_siteAt h₂).2 hx₁ hx₂

theorem Placed.removeCode_holds : (s.removeCode id nm.code).Holds x ↔ s.Holds x ∧ x ≠ nm.code := by
  obtain ⟨_, huse, _⟩ := hp.codes id nm hs
  constructor
  · intro hh
    rcases hh with ⟨id', nm', hx, hc⟩ | hx | ⟨m, hm⟩
    · obtain ⟨hne, hx⟩ := removeCode_slot hx
      refine ⟨.inl ⟨id', nm', hx, hc⟩, fun he => hne ?_⟩
      exact hp.codes_inj id' id nm' nm hx hs (hc.trans he)
    · refine ⟨.inr (.inl hx), fun he => ?_⟩
      have hu := (hp.stubs x hx).2
      rw [he, huse] at hu
      cases hu
    · refine ⟨.inr (.inr ⟨m, hm⟩), fun he => ?_⟩
      have hu := (hp.adapters m x hm).2
      rw [he, huse] at hu
      cases hu
  · intro hh
    obtain ⟨hh, hne⟩ := hh
    rcases hh with ⟨id', nm', hx, hc⟩ | hx
    · refine .inl ⟨id', nm', ?_, hc⟩
      have hid : id' ≠ id := by
        rintro rfl
        rw [hs] at hx
        cases hx
        exact hne hc.symm
      unfold CodeSpace.removeCode
      dsimp only
      rw [update_of_ne hid]
      exact hx
    · exact .inr hx

theorem Placed.removeCode_stateLive {state : LinkState} (hl : s.StateLive state) :
    (s.removeCode id nm.code).StateLive state ↔ ¬ s.Refers state nm.code := by
  constructor
  · intro hl' href
    cases state with
    | unresolved => exact href
    | mega stub => exact href
    | mono k t =>
      have hh := ((hp.removeCode_holds hs).mp hl'.2).2
      exact hh href
    | pic stub =>
      obtain ⟨desc, hd, p, hpm, he⟩ := href
      obtain ⟨desc', hd', _, hpairs⟩ := hl'
      have hd' : s.pics stub.base = some desc' := hd'
      rw [hd] at hd'
      cases hd'
      exact ((hp.removeCode_holds hs).mp (hpairs p hpm).2).2 he
  · intro href
    refine hl.transfer (fun x hx hh => ?_) (fun _ _ _ hd => hd) (fun _ _ hm => hm)
    refine (hp.removeCode_holds hs).mpr ⟨hh, fun he => href ?_⟩
    rw [← he]
    exact hx

end

theorem Resets.refers (h : Resets l s s') (hp : s'.Placed) (hs : s'.siteAt id idx = some site)
    : s'.Refers site.state x ↔ s.Refers site.state x := by
  cases hst : site.state with
  | unresolved => exact Iff.rfl
  | mono k t => exact Iff.rfl
  | mega stub => exact Iff.rfl
  | pic stub =>
    obtain ⟨desc, hd, _⟩ := hp.owned id idx site stub hs hst
    have hd₀ := h.pics _ _ hd
    simp only [Refers, hd, hd₀]

theorem setState_refers {state : NmState} {st : LinkState} : (s.setState id state).Refers st x ↔ s.Refers st x := by
  cases st with
  | unresolved => exact Iff.rfl
  | mono k t => exact Iff.rfl
  | mega stub => exact Iff.rfl
  | pic stub => exact Iff.rfl

theorem Linked.flush_stages (h : s.Linked) (hs : s.slots id = some nm) :
    (s.setState id .zombie).Linked ∧ ∃ s₂ nm₂, s₂.Linked ∧ s₂.slots id = some nm₂ ∧
      nm₂.code = nm.code ∧ s.flushNmethod id = s₂.removeCode id nm₂.code ∧
      Resets ((s.setState id .zombie).staleSites nm.code) (s.setState id .zombie) s₂ := by
  have hz : (s.setState id .zombie).Linked := by
    refine h.setState fun nm' _ hm => ?_
    rcases hm with ha | ⟨hn, _⟩
    · cases ha
    · cases hn
  have hzs : (s.setState id .zombie).slots id = some { nm with state := .zombie } := by
    rw [setState_slots, if_pos rfl, hs]
    rfl
  obtain ⟨h₂, hr⟩ := hz.resetSites ((s.setState id .zombie).staleSites nm.code)
  obtain ⟨nm₂, hs₂, hcode, _⟩ := hr.kept id _ hzs
  have hcode : nm₂.code = nm.code := hcode
  refine ⟨hz, _, nm₂, h₂, hs₂, hcode, ?_, hr⟩
  unfold CodeSpace.flushNmethod
  rw [hs, hcode]
  rfl

theorem Resets.of_zombie (hr : Resets l (s.setState id .zombie) s') (hp : s'.Placed)
     (hs : s'.siteAt caller idx = some site)
    (href : s'.Refers site.state x) :
    (caller, idx) ∉ l ∧ s.siteAt caller idx = some site ∧ s.Refers site.state x := by
  have hkept := hs
  rw [hr.siteAt] at hkept
  split at hkept
  next =>
    obtain ⟨old, _, rfl⟩ := map_eq_some_iff.mp hkept
    exact absurd href not_false
  next hskip =>
    rw [setState_siteAt] at hkept
    rw [hr.refers hp hs, setState_refers] at href
    exact ⟨hskip, hkept, href⟩

theorem Resets.zombie_slot (hr : Resets l (s.setState id .zombie) s') (hne : caller ≠ id)
    {nm' : CodeRecord} (hs : s'.slots caller = some nm') :
    ∃ nm, s.slots caller = some nm ∧ nm'.code = nm.code ∧ nm'.state = nm.state := by
  obtain ⟨nm, hn, hcode, hst⟩ := hr.slot caller nm' hs
  rw [setState_slots, if_neg hne] at hn
  exact ⟨nm, hn, hcode, hst⟩

theorem Linked.flush_dangles (h : s.Linked) (hidle : s.activations id = 0)
    (ho : s.Orphans id) : ¬ (s.flushNmethod id).Safe := by
  obtain ⟨nm, caller, nm', idx, site, hs, hn', hne, hpos, hsite, href⟩ := ho
  obtain ⟨hz, s₂, nm₂, h₂, hs₂, hcode, hflush, hr⟩ := h.flush_stages hs
  have hcaller : caller ≠ id := by
    rintro rfl
    omega
  have hzn : (s.setState id .zombie).slots caller = some nm' := by
    rw [setState_slots, if_neg hcaller, hn']
  have hskip : (caller, idx) ∉ (s.setState id .zombie).staleSites nm.code := by
    intro hm
    obtain ⟨x, _, hx, ha, _⟩ := hz.placed.mem_staleSites.mp hm
    rw [hzn] at hx
    cases hx
    rw [hne] at ha
    cases ha
  have hsite₂ : s₂.siteAt caller idx = some site := by
    rw [hr.siteAt, if_neg hskip, setState_siteAt, hsite]
  obtain ⟨nm'₂, hn'₂, _, hst₂⟩ := hr.kept caller nm' hzn
  obtain ⟨y, hy, hmem⟩ := siteAt_mem hsite₂
  rw [hn'₂] at hy
  cases hy
  have hmay : s₂.MayExecute caller nm'₂ := by
    refine .inr ⟨hst₂.trans hne, ?_⟩
    rw [hr.activations]
    exact hpos
  have hafter : (s₂.removeCode id nm₂.code).slots caller = some nm'₂ := by
    unfold CodeSpace.removeCode
    dsimp only
    rw [update_of_ne hcaller]
    exact hn'₂
  intro hsafe
  rw [hflush] at hsafe
  have hl₂ := h₂.safe caller nm'₂ hn'₂ hmay site hmem
  have hl := hsafe caller nm'₂ hafter hmay site hmem
  apply (h₂.placed.removeCode_stateLive hs₂ hl₂).mp hl
  rw [hcode, hr.refers h₂.placed hsite₂, setState_refers]
  exact href

theorem Linked.flushNmethod (h : s.Linked) (hno : ¬ s.Orphans id) : (s.flushNmethod id).Linked := by
  cases hs : s.slots id with
  | none =>
    unfold CodeSpace.flushNmethod
    rw [hs]
    exact h
  | some nm =>
    obtain ⟨hz, s₂, nm₂, h₂, hs₂, hcode, hflush, hr⟩ := h.flush_stages hs
    have hlive : nm.code ∈ (s.setState id .zombie).cache.live := (h.placed.codes id nm hs).1
    rw [hflush]
    refine ⟨h₂.placed.removeCode hs₂, fun caller nm'₂ hn'₂ hmay site hmem => ?_⟩
    obtain ⟨hcaller, hn'₂⟩ := removeCode_slot hn'₂
    have hmay : s₂.MayExecute caller nm'₂ := hmay
    have hl₂ := h₂.safe caller nm'₂ hn'₂ hmay site hmem
    apply (h₂.placed.removeCode_stateLive hs₂ hl₂).mpr
    intro href
    rw [hcode] at href
    obtain ⟨idx, hsite₂⟩ := mem_siteAt hn'₂ hmem
    obtain ⟨nm', hn', _, hst⟩ := hr.zombie_slot hcaller hn'₂
    obtain ⟨hskip, hkept, href⟩ := hr.of_zombie h₂.placed hsite₂ href
    have hzn : (s.setState id .zombie).slots caller = some nm' := by
      rw [setState_slots, if_neg hcaller, hn']
    have hzsite : (s.setState id .zombie).siteAt caller idx = some site := by
      rw [setState_siteAt, hkept]
    rcases hmay with ha | ⟨hne, hpos⟩
    · rw [hst] at ha
      obtain ⟨x, hx, hmemz⟩ := siteAt_mem hzsite
      rw [hzn] at hx
      cases hx
      have hlz := hz.safe caller nm' hzn (.inl ha) site hmemz
      have hhit := (hz.placed.hitsFlushed hlive hlz).mpr (setState_refers.mpr href)
      exact hskip (hz.placed.mem_staleSites.mpr ⟨nm', site, hzn, ha, hzsite, hhit⟩)
    · rw [hr.activations] at hpos
      exact hno ⟨nm, caller, nm', idx, site, hs, hn', hst.symm.trans hne, hpos, hkept, href⟩

theorem Linked.flush_orphans (h : s.Linked) (ho : (s.flushNmethod id).Orphans id') : s.Orphans id' := by
  cases hs : s.slots id with
  | none =>
    unfold CodeSpace.flushNmethod at ho
    rw [hs] at ho
    exact ho
  | some nm =>
    obtain ⟨_, s₂, nm₂, h₂, hs₂, hcode, hflush, hr⟩ := h.flush_stages hs
    rw [hflush] at ho
    obtain ⟨x, caller, nm', idx, site, hx, hn', hne, hpos, hsite, href⟩ := ho
    obtain ⟨hxid, hx⟩ := removeCode_slot hx
    obtain ⟨hcaller, hn'⟩ := removeCode_slot hn'
    obtain ⟨_, hsite⟩ := removeCode_siteAt hsite
    have href : s₂.Refers site.state x.code := href
    obtain ⟨old, hold, hcodeold, _⟩ := hr.zombie_slot hxid hx
    obtain ⟨nm₀, hn₀, _, hst⟩ := hr.zombie_slot hcaller hn'
    obtain ⟨_, hkept, href⟩ := hr.of_zombie h₂.placed hsite href
    have hpos : 0 < s₂.activations caller := hpos
    rw [hr.activations] at hpos
    rw [hcodeold] at href
    exact ⟨old, caller, nm₀, idx, site, hold, hn₀, hst.symm.trans hne, hpos, hkept, href⟩

theorem Linked.flushAll (h : s.Linked) {ids : List NmethodId} (hno : ∀ id ∈ ids, ¬ s.Orphans id) :
    (ids.foldl CodeSpace.flushNmethod s).Linked := by
  induction ids generalizing s with
  | nil => exact h
  | cons id rest ih =>
    apply ih (h.flushNmethod (hno id mem_cons_self))
    intro id' hid ho
    exact hno id' (mem_cons_of_mem id hid) (h.flush_orphans ho)

end WinArmVm.CodeSpace
