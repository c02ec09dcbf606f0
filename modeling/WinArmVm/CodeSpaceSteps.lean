import WinArmVm.CodeSpaceLinks

namespace WinArmVm.CodeSpace

open List Option Function

variable {s s' : CodeSpace}

/-- What every step keeps: the tables own their blocks, and no site that may be
run through dangles. -/
structure Linked (s : CodeSpace) : Prop where
  placed : s.Placed
  safe : s.Safe

theorem Linked.grows (h : s.Linked) (hp : s'.Placed) (hg : Grows s s') : s'.Linked := ⟨hp, hg.safe h.safe⟩

variable {caller : NmethodId} {id : NmethodId} {idx : Nat} {nm : CodeRecord} {site : LinkedSite} {stub : CodeHandle}
  {pairs : List (KlassOop × LinkTarget)} {k : KlassOop} {code : CodeHandle} {cache : CodeCache} {state : NmState}
  {t : LinkTarget}

section

variable (h : s.Linked)

include h

variable {state : LinkState} {desc : PicDesc}

theorem Linked.patchSite (hnot : ∀ stub, state ≠ .pic stub) (hl : s.StateLive state) :
    (s.patchSite caller idx state).Linked :=
  ⟨h.placed.patchSite fun stub he => absurd he (hnot stub), h.safe.patchSite fun _ _ _ => hl⟩

theorem Linked.patchFree (hs : s.siteAt caller idx = some site) (hx : site.state = .pic stub)
    (hne : state ≠ .pic stub) (hvacant : ∀ new, state = .pic new → s.Vacant new)
    (hl : ∀ nm, s.slots caller = some nm → s.MayExecute caller nm → s.StateLive state) :
    ((s.freePic stub).patchSite caller idx state).Linked := by
  have hv := h.placed.vacant_of_patch hs hx hne
  have hp : (s.patchSite caller idx state).Placed := h.placed.patchSite hvacant
  have hsafe : (s.patchSite caller idx state).Safe := h.safe.patchSite hl
  exact ⟨hp.freePic hv, hsafe.freePic hv⟩

theorem Linked.buildPic (hb : s.buildPic pairs = some (stub, s')) :
    s'.Linked ∧ Grows s s' ∧ s'.Vacant stub ∧ s'.pics stub.base = some ⟨stub, pairs⟩ ∧
      stub ∉ s.cache.live := by
  obtain ⟨hp, hg, hpic, hunused, hnew⟩ := h.placed.buildPic hb
  refine ⟨h.grows hp hg, hg, ⟨⟨_, hpic, rfl⟩, fun id i site hs => ?_⟩, hpic, hnew⟩
  rw [hg.siteAt] at hs
  exact hunused id i site hs

theorem Linked.replacePic (hs : s.siteAt caller idx = some site) (hx : site.state = .pic stub)
 (hpairs : ∀ nm, s.slots caller = some nm → s.MayExecute caller nm →
      ∀ p ∈ pairs, s.TargetLive p.2) : (s.replacePic caller idx stub pairs).Linked := by
  unfold CodeSpace.replacePic
  split
  next new s₁ hb =>
    obtain ⟨h₁, hg, hv, hpic, hnew⟩ := h.buildPic hb
    have hs₁ := hs
    rw [← hg.siteAt] at hs₁
    obtain ⟨desc, hd, hh⟩ := h.placed.owned caller idx site stub hs hx
    have hlive := (h.placed.pics _ _ hd).2.1
    rw [hh] at hlive
    have hne : new ≠ stub := by
      rintro rfl
      exact hnew hlive
    refine h₁.patchFree hs₁ hx (fun he => hne (LinkState.pic.inj he)) (fun x he => ?_)
      fun nm hn hm => ?_
    · cases he
      exact hv
    · rw [hg.slots] at hn
      unfold MayExecute at hm
      rw [hg.activations] at hm
      exact ⟨_, hpic, rfl, fun p hp => hg.targetLive (hpairs nm hn hm p hp)⟩
  next => exact h

theorem Linked.pairs_live (hs : s.siteAt caller idx = some site) (hx : site.state = .pic stub)
    (hd : s.pics stub.base = some desc) (hn : s.slots caller = some nm) (hm : s.MayExecute caller nm) :
    ∀ p ∈ desc.pairs, s.TargetLive p.2 := by
  obtain ⟨nm', hn', hmem⟩ := siteAt_mem hs
  rw [hn] at hn'
  cases hn'
  have hl := h.safe caller nm hn hm site hmem
  rw [hx] at hl
  obtain ⟨desc', hd', _, hpairs⟩ := hl
  rw [hd] at hd'
  cases hd'
  exact hpairs

theorem Linked.replacePairs (hg : Grows s s') (hp' : s'.Placed) (hs : s.siteAt caller idx = some site)
    (hx : site.state = .pic stub) (hd : s.pics stub.base = some desc) (ht : s'.TargetLive t)
    (hsub : ∀ p ∈ pairs, p = (k, t) ∨ p ∈ desc.pairs) :
    (s'.replacePic caller idx stub pairs).Linked := by
  have hs' := hs
  rw [← hg.siteAt] at hs'
  refine (h.grows hp' hg).replacePic hs' hx fun nm hn hm p hp => ?_
  rw [hg.slots] at hn
  unfold MayExecute at hm
  rw [hg.activations] at hm
  rcases hsub p hp with rfl | hp
  · exact ht
  · exact hg.targetLive (h.pairs_live hs hx hd hn hm p hp)

end

/-- What resolving or re-pointing a site may do: grow the tables, link the site to one callee,
give it its first PIC, exchange its PIC, or trade its PIC for the megamorphic trampoline. -/
inductive Moves (s : CodeSpace) (caller : NmethodId) (idx : Nat) : CodeSpace → Prop
  | grows {s₁ : CodeSpace} (hp : s₁.Placed) (hg : Grows s s₁) (hpics : s₁.pics = s.pics) : Moves s caller idx s₁
  | mono {s₁ : CodeSpace} {site : LinkedSite} {k : KlassOop} {t : LinkTarget} (hs : s.siteAt caller idx = some site)
      (hnot : site.superKlass = none → ∀ stub, site.state ≠ .pic stub)
      (hp : s₁.Placed) (hg : Grows s s₁) (hpics : s₁.pics = s.pics) (hlive : s₁.TargetLive t) :
      Moves s caller idx (s₁.patchSite caller idx (.mono k t))
  | first {s₁ s₂ : CodeSpace} {site : LinkedSite} {pairs : List (KlassOop × LinkTarget)} {stub : CodeHandle}
      (hs : s.siteAt caller idx = some site) (hnone : site.superKlass = none)
      (hnot : ∀ stub, site.state ≠ .pic stub)
      (hp : s₁.Placed) (hg : Grows s s₁) (hpics : s₁.pics = s.pics) (hlive : ∀ p ∈ pairs, s₁.TargetLive p.2)
      (hb : s₁.buildPic pairs = some (stub, s₂)) :
      Moves s caller idx (s₂.patchSite caller idx (.pic stub))
  | replace {s₁ : CodeSpace} {site : LinkedSite} {stub : CodeHandle} {desc : PicDesc} {k : KlassOop}
      {t : LinkTarget} {pairs : List (KlassOop × LinkTarget)}
      (hs : s.siteAt caller idx = some site) (hnone : site.superKlass = none)
      (hx : site.state = .pic stub) (hd : s.pics stub.base = some desc)
      (hp : s₁.Placed) (hg : Grows s s₁) (hpics : s₁.pics = s.pics) (hlive : s₁.TargetLive t)
      (hsub : ∀ p ∈ pairs, p = (k, t) ∨ p ∈ desc.pairs) :
      Moves s caller idx (s₁.replacePic caller idx stub pairs)
  | promote {s₁ : CodeSpace} {site : LinkedSite} {stub mega : CodeHandle} {sel : SymbolOop}
      (hs : s.siteAt caller idx = some site) (hnone : site.superKlass = none)
      (hx : site.state = .pic stub)
      (hp : s₁.Placed) (hg : Grows s s₁) (hpics : s₁.pics = s.pics) (hreg : s₁.megas sel = some mega) :
      Moves s caller idx ((s₁.freePic stub).patchSite caller idx (.mega mega))

variable {sites : List NewSite} {callee old : Choice} {sel : SymbolOop} {blob : CodeBlob} {len : Nat}

theorem Placed.rtResolveSend_moves (hp : s.Placed)

    (hr : s.rtResolveSend caller idx k callee old = some (t, s')) : s.Moves caller idx s' := by
  obtain ⟨site, hs, hr⟩ := bind_eq_some_iff.mp hr
  have hmono : (site.superKlass = none → ∀ stub, site.state ≠ .pic stub) →
      ∀ verified k', ((s.resolveTarget verified callee).bind fun r =>
        some (r.1, r.2.patchSite caller idx (.mono k' r.1))) = some (t, s') → s.Moves caller idx s' := by
    intro hnot verified k' hr
    obtain ⟨⟨t₁, s₁⟩, ht, he⟩ := bind_eq_some_iff.mp hr
    cases he
    obtain ⟨hp, hg, hlive⟩ := hp.resolveTarget ht
    exact .mono hs hnot hp hg (resolveTarget_pics ht) hlive
  cases hsup : site.superKlass with
  | some superKlass =>
    rw [hsup] at hr
    exact hmono (fun hn => by rw [hsup] at hn; cases hn) true superKlass hr
  | none =>
    rw [hsup] at hr
    cases hst : site.state with
    | unresolved =>
      rw [hst] at hr
      exact hmono (fun _ stub => by rw [hst]; simp) false k hr
    | mega stub =>
      rw [hst] at hr
      cases hr
    | mono oldK target =>
      rw [hst] at hr
      dsimp only at hr
      split at hr
      next => exact hmono (fun _ stub => by rw [hst]; simp) false k hr
      next =>
        obtain ⟨⟨oldT, s₁⟩, ho, hr⟩ := bind_eq_some_iff.mp hr
        obtain ⟨⟨newT, s₂⟩, hn, hr⟩ := bind_eq_some_iff.mp hr
        obtain ⟨hp₁, hg₁, hlive₁⟩ := hp.resolveTarget ho
        obtain ⟨hp₂, hg₂, hlive₂⟩ := hp₁.resolveTarget hn
        split at hr
        next stub s₃ hb =>
          cases hr
          have hpics := (resolveTarget_pics hn).trans (resolveTarget_pics ho)
          refine .first hs hsup (fun x => by rw [hst]; simp) hp₂ (hg₁.trans hg₂) hpics ?_ hb
          intro p hm
          rcases mem_cons.mp hm with rfl | hm
          · exact hg₂.targetLive hlive₁
          · cases mem_singleton.mp hm
            exact hlive₂
        next =>
          cases hr
          exact .grows hp₂ (hg₁.trans hg₂) ((resolveTarget_pics hn).trans (resolveTarget_pics ho))
    | pic stub =>
      rw [hst] at hr
      obtain ⟨desc, hd, hr⟩ := bind_eq_some_iff.mp hr
      obtain ⟨⟨newT, s₁⟩, hn, hr⟩ := bind_eq_some_iff.mp hr
      obtain ⟨hp₁, hg₁, hlive₁⟩ := hp.resolveTarget hn
      dsimp only at hr
      split at hr
      next =>
        cases some.inj hr
        exact .replace hs hsup hst hd hp₁ hg₁ (resolveTarget_pics hn) hlive₁ fun p hm => mem_rekeyPairs hm
      next =>
        split at hr
        next =>
          cases hr
          refine .replace hs hsup hst hd hp₁ hg₁ (resolveTarget_pics hn) hlive₁ (k := k) ?_
          intro p hm
          rcases mem_append.mp hm with hm | hm
          · exact .inr hm
          · exact .inl (mem_singleton.mp hm)
        next =>
          split at hr
          next mega s₂ hm =>
            cases hr
            obtain ⟨hp₂, hg₂, hreg⟩ := hp₁.megaFor hm
            exact .promote hs hsup hst hp₂ (hg₁.trans hg₂) ((megaFor_pics hm).trans (resolveTarget_pics hn)) hreg
          next =>
            cases hr
            exact .grows hp₁ hg₁ (resolveTarget_pics hn)

theorem Placed.repointSite_moves (hp : s.Placed) {callee : Choice}
    (hr : s.repointSite caller idx k sel id callee = some s') : s.Moves caller idx s' := by
  obtain ⟨site, hs, hr⟩ := bind_eq_some_iff.mp hr
  split at hr
  next hplain =>
    split at hr
    next oldK target hst =>
      split at hr
      next =>
        obtain ⟨⟨t, s₁⟩, ht, he⟩ := bind_eq_some_iff.mp hr
        cases he
        obtain ⟨hp, hg, hlive⟩ := hp.resolveTarget ht
        exact .mono hs (fun _ stub => by rw [hst]; simp) hp hg (resolveTarget_pics ht) hlive
      next =>
        cases hr
        exact .grows hp (Grows.refl s) rfl
    next stub hst =>
      obtain ⟨desc, hd, hr⟩ := bind_eq_some_iff.mp hr
      split at hr
      next =>
        cases hr
        exact .grows hp (Grows.refl s) rfl
      next p hm =>
        obtain ⟨⟨newT, s₁⟩, ht, he⟩ := bind_eq_some_iff.mp hr
        obtain ⟨hp₁, hg, hlive⟩ := hp.resolveTarget ht
        dsimp only at he
        split at he
        next =>
          cases some.inj he
          exact .grows hp₁ hg (resolveTarget_pics ht)
        next =>
          cases he
          exact .replace hs hplain.1 hst hd hp₁ hg (resolveTarget_pics ht) hlive fun q hq => mem_rekeyPairs hq
    next =>
      cases hr
      exact .grows hp (Grows.refl s) rfl
  next =>
    cases hr
    exact .grows hp (Grows.refl s) rfl

theorem Linked.moves (h : s.Linked) (hm : s.Moves caller idx s') : s'.Linked := by
  cases hm with
  | grows hp hg hpics => exact h.grows hp hg
  | mono hs hnot hp hg hpics hlive => exact (h.grows hp hg).patchSite (fun stub => by simp) hlive
  | first hs hnone hnot hp hg hpics hlive hb =>
    obtain ⟨h₂, hg₂, hv, hpic, _⟩ := (h.grows hp hg).buildPic hb
    refine ⟨h₂.placed.patchSite fun x he => ?_, h₂.safe.patchSite fun nm hn hm => ?_⟩
    · cases he
      exact hv
    · exact ⟨_, hpic, rfl, fun p hm => hg₂.targetLive (hlive p hm)⟩
  | replace hs hnone hx hd hp hg hpics hlive hsub => exact h.replacePairs hg hp hs hx hd hlive hsub
  | promote hs hnone hx hp hg hpics hreg =>
    rw [← hg.siteAt] at hs
    exact (h.grows hp hg).patchFree hs hx (by simp) (fun x he => by cases he) fun _ _ _ => ⟨_, hreg⟩

theorem Linked.rtResolveSend (h : s.Linked)
 (hr : s.rtResolveSend caller idx k callee old = some (t, s')) : s'.Linked := h.moves (h.placed.rtResolveSend_moves hr)

theorem Linked.repointSite (h : s.Linked) {callee : Choice}
    (hr : s.repointSite caller idx k sel id callee = some s') : s'.Linked :=
  h.moves (h.placed.repointSite_moves hr)

theorem Placed.resolveSupers (hp : s.Placed) {resolved : List (NewSite × Option (KlassOop × LinkTarget))}
    (hr : s.resolveSupers sites = some (resolved, s')) :
    s'.Placed ∧ Grows s s' ∧
      ∀ x ∈ resolved, ∀ k t, x.2 = some (k, t) → s'.TargetLive t := by
  induction sites generalizing s resolved with
  | nil =>
    cases hr
    exact ⟨hp, Grows.refl _, fun x hx => by cases hx⟩
  | cons new rest ih =>
    unfold CodeSpace.resolveSupers at hr
    split at hr
    next =>
      obtain ⟨⟨tail, s₁⟩, ht, he⟩ := bind_eq_some_iff.mp hr
      cases he
      obtain ⟨hp₁, hg, hlive⟩ := ih hp ht
      refine ⟨hp₁, hg, fun x hx k t hxt => ?_⟩
      rcases mem_cons.mp hx with rfl | hx
      · cases hxt
      · exact hlive x hx k t hxt
    next superKlass callee _ =>
      obtain ⟨⟨t₀, s₁⟩, hres, hr⟩ := bind_eq_some_iff.mp hr
      obtain ⟨⟨tail, s₂⟩, ht, he⟩ := bind_eq_some_iff.mp hr
      cases he
      obtain ⟨hp₁, hg₁, hlive₁⟩ := hp.resolveTarget hres
      obtain ⟨hp₂, hg₂, hlive₂⟩ := ih hp₁ ht
      refine ⟨hp₂, hg₁.trans hg₂, fun x hx k t hxt => ?_⟩
      rcases mem_cons.mp hx with rfl | hx
      · cases hxt
        exact hg₂.targetLive hlive₁
      · exact hlive₂ x hx k t hxt

theorem Placed.linkSite (hp : s.Placed) (hlen : blob.len ≤ code.len) {new : NewSite × Option (KlassOop × LinkTarget)}
    (hsuper : ∀ k t, new.2 = some (k, t) → s.TargetLive t) :
    (s.linkSite code blob new).state = .unresolved ∨
      ∃ k t, (s.linkSite code blob new).state = .mono k t ∧ t.off < t.block.len ∧
        (s.Holds t.block ∨ t.block = code) := by
  have hv := blob.verified_lt
  unfold CodeSpace.linkSite
  split
  next k t he =>
    obtain ⟨hoff, hh⟩ := hsuper k t he
    exact .inr ⟨k, t, rfl, hoff, .inl hh⟩
  next =>
    split
    next k callee _ =>
      split
      next t ht =>
        refine .inr ⟨k, t, rfl, ?_⟩
        cases callee with
        | none =>
          cases ht
          refine ⟨?_, .inr rfl⟩
          dsimp only
          omega
        | some id =>
          obtain ⟨nm, hs, he⟩ := bind_eq_some_iff.mp ht
          obtain ⟨-, he⟩ := ite_none_right_eq_some.mp he
          cases he
          obtain ⟨_, _, _, hverified⟩ := hp.codes id nm hs
          exact ⟨hverified, .inl (.inl ⟨id, nm, hs, rfl⟩)⟩
      next => exact .inl rfl
    next => exact .inl rfl

theorem added_siteAt {size : Nat} {id' : NmethodId} {i : Nat}
    (h : CodeSpace.siteAt { s with cache := cache, size := size, slots := Function.update s.slots id (some nm) } id' i
      = some site) : (id' = id ∧ nm.icSites[i]? = some site) ∨ s.siteAt id' i = some site := by
  obtain ⟨x, hn, hi⟩ := bind_eq_some_iff.mp h
  have hn : Function.update s.slots id (some nm) id' = some x := hn
  by_cases he : id' = id
  · rw [he, update_self] at hn
    cases hn
    exact .inl ⟨he, hi⟩
  · rw [update_of_ne he] at hn
    exact .inr (bind_eq_some_iff.mpr ⟨x, hn, hi⟩)

theorem Placed.add (hp : s.Placed) (hg : CodeCache.Grants s.cache .code len code cache)
    (hcode : nm.code = code) (hentry : nm.entryOff < len) (hverified : nm.verifiedEntryOff < len)
    (hsites : ∀ site ∈ nm.icSites, ∀ stub, site.state ≠ .pic stub) :
    { s with
      cache := cache
      size := max s.size (id.index + 1)
      slots := Function.update s.slots id (some nm) : CodeSpace }.Placed := by
  obtain ⟨hpc, hnew⟩ := hp.grant hg
  have hlen := hg.len_le
  have hslots : ∀ id' x, Function.update s.slots id (some nm) id' = some x →
      (id' = id ∧ x = nm) ∨ s.slots id' = some x := by
    intro id' x hx
    by_cases he : id' = id
    · rw [he, update_self] at hx
      exact .inl ⟨he, (some.inj hx).symm⟩
    · rw [update_of_ne he] at hx
      exact .inr hx
  have hpic : ∀ id' i site stub, ((Function.update s.slots id (some nm) id').bind fun nm =>
      nm.icSites[i]?) = some site → site.state = .pic stub → s.siteAt id' i = some site := by
    intro id' i site stub hs hx
    have hs : CodeSpace.siteAt { s with
        cache := cache, size := max s.size (id.index + 1), slots := Function.update s.slots id (some nm) } id' i =
      some site := hs
    rcases added_siteAt hs with ⟨_, hi⟩ | hs
    · exact absurd hx (hsites site (mem_of_getElem? hi) stub)
    · exact hs
  have hfresh : ∀ id' x, s.slots id' = some x → x.code ≠ code := by
    intro id' x hx he
    have hl := (hp.codes id' x hx).1
    rw [he] at hl
    exact hnew hl
  refine ⟨hpc.valid, fun id' hb => ?_, fun id' x hx => ?_, fun id₁ id₂ x₁ x₂ h₁ h₂ hc => ?_,
    hpc.stubs, hpc.adapters, hpc.megas, hpc.pics, fun id' i site stub hs hx =>
      hpc.owned id' i site stub (hpic id' i site stub hs hx) hx,
    fun id₁ i₁ id₂ i₂ site₁ site₂ stub h₁ h₂ hx₁ hx₂ =>
      hpc.unshared id₁ i₁ id₂ i₂ site₁ site₂ stub (hpic id₁ i₁ site₁ stub h₁ hx₁)
        (hpic id₂ i₂ site₂ stub h₂ hx₂) hx₁ hx₂⟩
  · dsimp only at hb ⊢
    have hne : id' ≠ id := by
      rintro rfl
      omega
    rw [update_of_ne hne]
    exact hp.bounded id' (by omega)
  · rcases hslots id' x hx with ⟨_, rfl⟩ | hx
    · rw [hcode]
      exact ⟨mem_granted hg, hg.use, by omega, by omega⟩
    · exact hpc.codes id' x hx
  · rcases hslots id₁ x₁ h₁ with ⟨rfl, rfl⟩ | hold₁
    · rcases hslots id₂ x₂ h₂ with ⟨rfl, _⟩ | hold₂
      · rfl
      · exact absurd (hc.symm.trans hcode) (hfresh id₂ x₂ hold₂)
    · rcases hslots id₂ x₂ h₂ with ⟨rfl, rfl⟩ | hold₂
      · exact absurd (hc.trans hcode) (hfresh id₁ x₁ hold₁)
      · exact hp.codes_inj id₁ id₂ x₁ x₂ hold₁ hold₂ hc

theorem Linked.add (h : s.Linked) (hg : CodeCache.Grants s.cache .code len code cache) (hid : s.slots id = none)
    (hcode : nm.code = code) (hentry : nm.entryOff < len) (hverified : nm.verifiedEntryOff < len)
    (hsites : ∀ site ∈ nm.icSites, site.state = .unresolved ∨ ∃ k t, site.state = .mono k t ∧
      t.off < t.block.len ∧ (s.Holds t.block ∨ t.block = code)) :
    { s with
      cache := cache
      size := max s.size (id.index + 1)
      slots := Function.update s.slots id (some nm) : CodeSpace }.Linked := by
  have hother : ∀ id' x, s.slots id' = some x → Function.update s.slots id (some nm) id' = some x := by
    intro id' x hx
    have hne : id' ≠ id := by
      rintro rfl
      rw [hid] at hx
      cases hx
    rw [update_of_ne hne]
    exact hx
  have hholds : ∀ x, s.Holds x → CodeSpace.Holds { s with
      cache := cache
      size := max s.size (id.index + 1)
      slots := Function.update s.slots id (some nm) } x := by
    intro x hx
    rcases hx with ⟨id', nm', hs, hc⟩ | hs
    · exact .inl ⟨id', nm', hother id' nm' hs, hc⟩
    · exact .inr hs
  have hstate : ∀ site ∈ nm.icSites, ∀ stub, site.state ≠ .pic stub := by
    intro site hs stub hx
    rcases hsites site hs with he | ⟨k, t, he, _⟩
    · rw [he] at hx
      cases hx
    · rw [he] at hx
      cases hx
  refine ⟨h.placed.add hg hcode hentry hverified hstate, fun id' x hx hm site hs => ?_⟩
  have hx : Function.update s.slots id (some nm) id' = some x := hx
  by_cases he : id' = id
  · rw [he, update_self] at hx
    cases hx
    rcases hsites site hs with he' | ⟨k, t, he', hoff, hh⟩
    · rw [he']
      trivial
    · rw [he']
      refine ⟨hoff, ?_⟩
      rcases hh with hh | hh
      · exact hholds t.block hh
      · exact .inl ⟨id, nm, update_self .., hcode.trans hh.symm⟩
  · rw [update_of_ne he] at hx
    exact (h.safe id' x hx hm site hs).transfer (fun x _ hx => hholds x hx) (fun _ _ _ hd => hd) (fun _ _ hm => hm)

theorem Linked.install (h : s.Linked)
    {id : Option NmethodId} (hi : s.install blob sites = some (id, s')) : s'.Linked := by
  have hentry := blob.entry_lt
  obtain ⟨⟨resolved, s₁⟩, hr, hi⟩ := bind_eq_some_iff.mp hi
  obtain ⟨hp₁, hgrows, hlive⟩ := h.placed.resolveSupers hr
  have h₁ := h.grows hp₁ hgrows
  dsimp only at hi
  split at hi
  next =>
    cases some.inj hi
    exact h₁
  next code cache ha =>
    cases hi
    have hg := hp₁.valid.alloc (by omega) ha
    refine h₁.add hg (firstFree_none hp₁.bounded) rfl blob.entry_lt blob.verified_lt fun site hs => ?_
    obtain ⟨new, hn, rfl⟩ := mem_map.mp hs
    exact hp₁.linkSite hg.len_le (hlive new hn)

theorem setState_slots (s : CodeSpace) (id : NmethodId) (state : NmState) (id' : NmethodId) :
    (s.setState id state).slots id' =
      if id' = id then (s.slots id).map fun nm => { nm with state := state } else s.slots id' := by
  unfold setState
  simp only [update_apply]

theorem setState_slot {id id' : NmethodId} {nm' : CodeRecord} (h : (s.setState id state).slots id' = some nm') :
    ∃ nm, s.slots id' = some nm ∧ nm'.code = nm.code ∧ nm'.entryOff = nm.entryOff ∧
      nm'.verifiedEntryOff = nm.verifiedEntryOff ∧ nm'.icSites = nm.icSites ∧
      (nm'.state = if id' = id then state else nm.state) := by
  rw [setState_slots] at h
  split at h
  next he =>
    obtain ⟨nm, hn, rfl⟩ := map_eq_some_iff.mp h
    subst id'
    exact ⟨nm, hn, rfl, rfl, rfl, rfl, (if_pos rfl).symm⟩
  next he => exact ⟨nm', h, rfl, rfl, rfl, rfl, (if_neg he).symm⟩

theorem setState_siteAt (s : CodeSpace) (id : NmethodId) (state : NmState) (id' : NmethodId)
    (idx : Nat) : (s.setState id state).siteAt id' idx = s.siteAt id' idx := by
  unfold siteAt
  rw [setState_slots]
  by_cases he : id' = id
  · subst id'
    rw [if_pos rfl]
    cases s.slots id with
    | none => rfl
    | some nm => rfl
  · rw [if_neg he]

theorem setState_holds {x : CodeHandle} (hh : s.Holds x) : (s.setState id state).Holds x := by
  rcases hh with ⟨id', nm, hs, hc⟩ | hs
  · refine .inl ?_
    by_cases he : id' = id
    · refine ⟨id', { nm with state := state }, ?_, hc⟩
      rw [setState_slots, if_pos he, ← he, hs]
      rfl
    · exact ⟨id', nm, by rw [setState_slots, if_neg he, hs], hc⟩
  · exact .inr hs

theorem Placed.setState (hp : s.Placed) (id : NmethodId) (state : NmState) : (s.setState id state).Placed := by
  refine ⟨hp.valid, fun id' hb => ?_, fun id' x hx => ?_, fun id₁ id₂ x₁ x₂ h₁ h₂ hc => ?_,
    hp.stubs, hp.adapters, hp.megas, hp.pics, fun id' i site stub hs hx => ?_,
    fun id₁ i₁ id₂ i₂ site₁ site₂ stub h₁ h₂ hx₁ hx₂ => ?_⟩
  · rw [setState_slots]
    have hnone := hp.bounded id' hb
    split
    next he => rw [← he, hnone, map_none]
    next => exact hnone
  · obtain ⟨nm, hn, hcode, hentry, hverified, _⟩ := setState_slot hx
    rw [hcode, hentry, hverified]
    exact hp.codes id' nm hn
  · obtain ⟨nm₁, hn₁, hcode₁, _⟩ := setState_slot h₁
    obtain ⟨nm₂, hn₂, hcode₂, _⟩ := setState_slot h₂
    rw [hcode₁, hcode₂] at hc
    exact hp.codes_inj id₁ id₂ nm₁ nm₂ hn₁ hn₂ hc
  · rw [setState_siteAt] at hs
    exact hp.owned id' i site stub hs hx
  · rw [setState_siteAt] at h₁ h₂
    exact hp.unshared id₁ i₁ id₂ i₂ site₁ site₂ stub h₁ h₂ hx₁ hx₂

theorem Linked.setState (h : s.Linked)
    (hm : ∀ nm, s.slots id = some nm → (s.setState id state).MayExecute id { nm with state := state } →
      s.MayExecute id nm) : (s.setState id state).Linked := by
  refine ⟨h.placed.setState id state, fun id' x hx hmay site hs => ?_⟩
  obtain ⟨nm, hn, _, _, _, hsites, hst⟩ := setState_slot hx
  rw [hsites] at hs
  have hmay' : s.MayExecute id' nm := by
    unfold MayExecute at hmay ⊢
    by_cases he : id' = id
    · subst id'
      rw [if_pos rfl] at hst
      rw [hst] at hmay
      exact hm nm hn hmay
    · rw [if_neg he] at hst
      rw [hst] at hmay
      exact hmay
  exact (h.safe id' nm hn hmay' site hs).transfer (fun _ _ hh => setState_holds hh)
    (fun _ _ _ hd => hd) (fun _ _ hm => hm)

theorem Linked.makeNotEntrant (h : s.Linked)
    (hs : s.slots id = some nm) (ha : nm.state = .alive) : (s.makeNotEntrant id).Linked := by
  refine h.setState fun nm' hs' _ => ?_
  rw [hs] at hs'
  cases hs'
  exact .inl ha

theorem Placed.activate (hp : s.Placed) (activations : NmethodId → Nat) :
    { s with activations := activations : CodeSpace }.Placed :=
  ⟨hp.valid, hp.bounded, hp.codes, hp.codes_inj, hp.stubs, hp.adapters, hp.megas, hp.pics, hp.owned, hp.unshared⟩

theorem Linked.activate (h : s.Linked) {activations : NmethodId → Nat}
    (hm : ∀ id nm, s.slots id = some nm → nm.state = .notEntrant → 0 < activations id →
      0 < s.activations id) : { s with activations := activations : CodeSpace }.Linked := by
  refine ⟨h.placed.activate activations, fun id nm hs hmay site hsite => ?_⟩
  have hmay' : s.MayExecute id nm := by
    rcases hmay with ha | ⟨hn, hpos⟩
    · exact .inl ha
    · exact .inr ⟨hn, hm id nm hs hn hpos⟩
  exact (h.safe id nm hs hmay' site hsite).transfer (fun _ _ hh => hh) (fun _ _ _ hd => hd) (fun _ _ hm => hm)

theorem Linked.enter (h : s.Linked) (hs : s.slots id = some nm) (ha : nm.state = .alive) : (s.enter id).Linked := by
  refine h.activate fun id' nm' hs' hn hpos => ?_
  by_cases he : id' = id
  · subst id'
    rw [hs] at hs'
    cases hs'
    rw [ha] at hn
    cases hn
  · rw [update_of_ne he] at hpos
    exact hpos

theorem Linked.leave (h : s.Linked) : (s.leave id).Linked := by
  refine h.activate fun id' nm' _ _ hpos => ?_
  by_cases he : id' = id
  · subst id'
    rw [update_self] at hpos
    omega
  · rw [update_of_ne he] at hpos
    exact hpos

theorem allocStubs_valid {c c' : CodeCache} {lens : List Nat} {hs : List CodeHandle} (hv : c.Valid)
    (hpos : ∀ n ∈ lens, 0 < n) (h : allocStubs c lens = some (hs, c')) :
    c'.Valid ∧ (∀ x ∈ c.live, x ∈ c'.live) ∧ ∀ x ∈ hs, x ∈ c'.live ∧ x.use = .stub := by
  induction lens generalizing c hs with
  | nil =>
    cases h
    exact ⟨hv, fun x hx => hx, fun x hx => by cases hx⟩
  | cons len rest ih =>
    obtain ⟨⟨x, c₁⟩, ha, h⟩ := bind_eq_some_iff.mp h
    obtain ⟨⟨xs, c₂⟩, hr, he⟩ := bind_eq_some_iff.mp h
    cases he
    have hg := hv.alloc (hpos len mem_cons_self) ha
    obtain ⟨hv', hlive, hstubs⟩ := ih hg.valid (fun n hn => hpos n (mem_cons_of_mem len hn)) hr
    refine ⟨hv', fun y hy => hlive y ?_, fun y hy => ?_⟩
    · rw [hg.live]
      exact mem_cons_of_mem x hy
    · rcases mem_cons.mp hy with rfl | hy
      · exact ⟨hlive y (mem_granted hg), hg.use⟩
      · exact hstubs y hy

theorem boot_linked {cap : Nat} {blobs : StubBlobs} (h : boot cap blobs = some s) : s.Linked := by
  obtain ⟨⟨stubs, cache⟩, hs, he⟩ := bind_eq_some_iff.mp h
  cases he
  obtain ⟨hv, _, hstubs⟩ := allocStubs_valid (CodeCache.new_valid cap) blobs.shared_pos hs
  refine ⟨⟨hv, fun _ _ => rfl, fun id nm hn => ?_, fun id id' nm nm' hn => ?_, hstubs,
    fun m x hx => ?_, fun sel x hx => ?_, fun b d hd => ?_, fun id i site stub hn => ?_,
    fun id i id' i' site site' stub hn => ?_⟩, fun id nm hn => ?_⟩
  · cases hn
  · cases hn
  · cases hx
  · cases hx
  · cases hd
  · cases hn
  · cases hn
  · cases hn

end WinArmVm.CodeSpace
