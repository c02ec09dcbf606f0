import WinArmVm.ScopeDesc

namespace WinArmVm.ScopeDesc

open List Option

open ByteCodec (Reads)

theorem reads_uleb32 (n : UInt32) : Reads (writeUleb n.toNat) readUleb n.toNat :=
  Reads.uleb (Nat.lt_trans n.toNat_lt (by decide))

theorem reads_uleb16 (n : UInt16) : Reads (writeUleb n.toNat) readUleb n.toNat :=
  Reads.uleb (Nat.lt_trans n.toNat_lt (by decide))

theorem reads_sleb {v : Int} (hlow : -2 ^ 63 ≤ v) (hhigh : v < 2 ^ 63) : Reads (writeSleb v) readSleb v := by
  intro rest
  unfold readSleb writeSleb
  rw [Reads.sleb hlow hhigh rest]
  show some ((BitVec.ofInt 64 v).toInt, rest) = _
  rw [BitVec.toInt_ofInt_eq_self (by decide) hlow hhigh]

namespace ValueLoc

theorem reads : ∀ loc : ValueLoc, Reads loc.write ValueLoc.read loc
  | .constPool ix => by
    have h := (reads_uleb32 ix).map fun n => constPool (UInt32.ofNat n)
    rw [UInt32.ofNat_toNat] at h
    exact (Reads.byte 0).bind h
  | .constSmi v => by
    have h := (reads_sleb v.le_toInt v.toInt_lt).map fun n => constSmi (Int64.ofInt n)
    rw [Int64.ofInt_toInt] at h
    exact (Reads.byte 1).bind h
  | .frameSlot off => by
    have hlow := off.le_toInt
    have hhigh := off.toInt_lt
    have h := (reads_sleb (by omega) (by omega) : Reads (writeSleb off.toInt) _ _).map fun n => frameSlot (Int32.ofInt n)
    rw [Int32.ofInt_toInt] at h
    exact (Reads.byte 2).bind h
  | .nil => (Reads.byte 3).bind (Reads.pure nil)
  | .elidedClosure ix => by
    have h := (reads_uleb32 ix).map fun n => elidedClosure (UInt32.ofNat n)
    rw [UInt32.ofNat_toNat] at h
    exact (Reads.byte 4).bind h
  | .doubleSlot off => by
    have hlow := off.le_toInt
    have hhigh := off.toInt_lt
    have h := (reads_sleb (by omega) (by omega) : Reads (writeSleb off.toInt) _ _).map fun n => doubleSlot (Int32.ofInt n)
    rw [Int32.ofInt_toInt] at h
    exact (Reads.byte 5).bind h

end ValueLoc

theorem reads_locs {locs : List ValueLoc} (h : locs.length < 2 ^ 64) : Reads (writeLocs locs) readLocs locs :=
  (Reads.uleb h).bind (Reads.count ValueLoc.reads locs)

theorem length_locs (locs : List ValueLoc) : locs.length ≤ (writeLocs locs).length := by
  have hone : ∀ loc : ValueLoc, 1 ≤ loc.write.length := by
    intro loc
    cases loc <;> exact Nat.succ_le_succ (Nat.zero_le _)
  have hall : locs.length ≤ (locs.flatMap ValueLoc.write).length := by
    induction locs with
    | nil => exact Nat.le_refl _
    | cons loc locs ih =>
      have := hone loc
      rw [flatMap_cons, length_append, length_cons]
      omega
  unfold writeLocs
  rw [length_append]
  omega

theorem CtxLoc.reads {ctx : CtxLoc} (h : ctx.write.length < 2 ^ 64) : Reads ctx.write (CtxLoc.read ctx.kind) ctx := by
  cases ctx with
  | none => exact Reads.pure CtxLoc.none
  | materialized loc => exact loc.reads.map CtxLoc.materialized
  | elided temps => exact (reads_locs (Nat.lt_of_le_of_lt (length_locs temps) h)).map CtxLoc.elided

theorem CtxLoc.kind_cases (ctx : CtxLoc) : ctx.kind = 0 ∨ ctx.kind = 1 ∨ ctx.kind = 2 := by
  cases ctx with
  | none => exact .inl rfl
  | materialized loc => exact .inr (.inl rfl)
  | elided temps => exact .inr (.inr rfl)

theorem flags_fields (hasSender isBlock : Bool) {kind : UInt8} (hkind : kind = 0 ∨ kind = 1 ∨ kind = 2) :
    let flags := hasSender.toUInt8 ||| (isBlock.toUInt8 <<< 1) ||| (kind <<< 2)
    decide (flags &&& 1 ≠ 0) = hasSender ∧ decide (flags &&& 2 ≠ 0) = isBlock ∧ (flags >>> 2) &&& 3 = kind := by
  rcases hkind with rfl | rfl | rfl <;> cases hasSender <;> cases isBlock <;> decide

def decodedSender (scopeOffs : List UInt32) : Option SenderLink → Option (UInt32 × UInt16 × List ValueLoc)
  | none => none
  | some link => (scopeOffs[link.sender.toNat]?).map fun off => (off, link.senderBci, link.pendingStack)

variable {scopeOffs : List UInt32} {bytes : List UInt8} {scope : ScopeDescData} {sender : Option SenderLink}
  {state : SafepointState} {off : UInt32}

theorem reads_sender (h : writeSenderLink scopeOffs sender = some bytes) (hlen : bytes.length < 2 ^ 64) :
    Reads bytes (readSender sender.isSome) (decodedSender scopeOffs sender) := by
  cases sender with
  | none =>
    cases h
    exact Reads.pure none
  | some link =>
    obtain ⟨off, hoff, h⟩ := bind_eq_some_iff.mp h
    cases h
    have hlocs := length_locs link.pendingStack
    simp only [length_append] at hlen
    have hdecoded : decodedSender scopeOffs (some link) = some (off, link.senderBci, link.pendingStack) := by
      show (scopeOffs[link.sender.toNat]?).map _ = _
      rw [hoff]
      rfl
    rw [hdecoded, append_assoc]
    apply (reads_uleb32 off).bind
    apply (reads_uleb16 link.senderBci).bind
    rw [UInt32.ofNat_toNat, UInt16.ofNat_toNat]
    exact (reads_locs (by omega)).map fun pending => some (off, link.senderBci, pending)

def decodedScope (scopeOffs : List UInt32) (scope : ScopeDescData) : DecodedScope :=
  ⟨scope.methodPoolIx, scope.isBlock, decodedSender scopeOffs scope.sender, scope.receiver, scope.slots, scope.ctx⟩

theorem reads_scope (h : writeScopeRecord scope scopeOffs = some bytes) (hlen : bytes.length < 2 ^ 64) :
    Reads bytes readScope (decodedScope scopeOffs scope) := by
  obtain ⟨link, hlink, h⟩ := bind_eq_some_iff.mp h
  cases h
  have hslots := length_locs scope.slots
  simp only [length_append, length_cons] at hlen
  obtain ⟨hhas, hblock, hkind⟩ := flags_fields scope.sender.isSome scope.isBlock scope.ctx.kind_cases
  have hsender := reads_sender hlink (by omega)
  unfold readScope
  rw [← singleton_append]
  apply (Reads.byte _).bind
  unfold scopeFlags
  rw [hhas, hblock, hkind]
  simp only [append_assoc]
  apply (reads_uleb32 _).bind
  apply hsender.bind
  apply scope.receiver.reads.bind
  apply (reads_locs (by omega)).bind
  rw [UInt32.ofNat_toNat]
  exact (CtxLoc.reads (by omega)).map fun ctx => (⟨scope.methodPoolIx, scope.isBlock,
    decodedSender scopeOffs scope.sender, scope.receiver, scope.slots, ctx⟩ : DecodedScope)

theorem SafepointKind.flags (reexecute : Bool) (kind : SafepointKind) :
    let flags := reexecute.toUInt8 ||| (kind.toBits <<< 1)
    decide (flags &&& 1 ≠ 0) = reexecute ∧ fromBits ((flags >>> 1) &&& 7) = some kind := by
  cases reexecute <;> cases kind <;> decide

theorem reads_site (hoff : scopeOffs[state.scope.toNat]? = some off) (h : writeSafepointRecord state scopeOffs = some bytes)
    (hlen : bytes.length < 2 ^ 64) :
    Reads bytes readSite ⟨off, state.bci, state.kind, state.reexecute, state.stack⟩ := by
  obtain ⟨off', hoff', h⟩ := bind_eq_some_iff.mp h
  cases (hoff.symm.trans hoff')
  cases h
  have hstack := length_locs state.stack
  simp only [length_append] at hlen
  obtain ⟨hre, hkind⟩ := SafepointKind.flags state.reexecute state.kind
  unfold readSite
  simp only [append_assoc]
  apply (reads_uleb32 _).bind
  apply (reads_uleb16 _).bind
  apply (Reads.byte _).bind
  rw [hre, hkind, UInt32.ofNat_toNat, UInt16.ofNat_toNat]
  exact (reads_locs (by omega)).map fun stack =>
    (⟨off, state.bci, state.kind, state.reexecute, stack⟩ : DecodedSite)

variable {blob before bytes after : List UInt8} {site : DecodedSite} {n : Nat}

theorem decodeScope_at {d : DecodedScope}
    (hblob : blob = before ++ (bytes ++ after)) (hoff : off.toNat = before.length) (hd : Reads bytes readScope d) :
    decodeScope blob off = some d := by
  unfold decodeScope
  rw [hblob, hoff, drop_left, hd after]
  rfl

theorem decodeSite_at {d : DecodedSite}
    (hblob : blob = before ++ (bytes ++ after)) (hoff : off.toNat = before.length) (hd : Reads bytes readSite d) :
    decodeSite blob off = some d := by
  unfold decodeSite
  rw [hblob, hoff, drop_left, hd after]
  rfl

namespace ScopeDescRecorder

structure Linked (r : ScopeDescRecorder) : Prop where
  senders : ∀ {i : Nat} {scope link}, r.scopes[i]? = some scope → scope.sender = some link → link.sender.toNat < i
  sites : ∀ {e}, e ∈ r.sites → e.2.scope.toNat < r.scopes.length

namespace Linked

variable {r r' : ScopeDescRecorder}

theorem new : new.Linked where
  senders h := by cases h
  sites h := by cases h

theorem append (h : r.Linked) {data : ScopeDescData}
    (hdata : ∀ link, data.sender = some link → link.sender.toNat < r.scopes.length) :
    ({ r with scopes := r.scopes ++ [data] } : ScopeDescRecorder).Linked where
  senders {i scope link} hi hsender := by
    rcases Nat.lt_or_ge i r.scopes.length with hlt | hge
    · rw [List.getElem?_append_left hlt] at hi
      exact h.senders hi hsender
    · rw [List.getElem?_append_right hge] at hi
      have hlast : i - r.scopes.length = 0 := by
        have := (List.getElem?_eq_some_iff.mp hi).1
        rw [length_singleton] at this
        omega
      rw [hlast] at hi
      cases hi
      have := hdata link hsender
      omega
  sites {e} he := by
    have := h.sites he
    show _ < (r.scopes ++ [data]).length
    rw [length_append]
    omega

theorem call (h : r.Linked) {c : Call} (hc : r.call c = some r') : r'.Linked := by
  cases c with
  | beginScope data =>
    change r.beginScope data = some r' at hc
    unfold beginScope at hc
    split at hc
    next link hlink =>
      obtain ⟨hlt, hc⟩ := ite_none_right_eq_some.mp hc
      cases hc
      apply h.append
      intro link' hlink'
      cases (hlink.symm.trans hlink')
      exact hlt
    next hnone =>
      cases hc
      apply h.append
      intro link hlink
      cases hnone.symm.trans hlink
  | recordSite codeOff state =>
    change r.recordSite codeOff state = some r' at hc
    obtain ⟨hscope, hc⟩ := ite_none_left_eq_some.mp hc
    obtain ⟨-, hc⟩ := ite_none_left_eq_some.mp hc
    cases hc
    refine ⟨fun hi hsender => h.senders hi hsender, fun he => ?_⟩
    rcases mem_append.mp he with he | he
    · exact h.sites he
    · rw [mem_singleton.mp he]
      exact Nat.not_le.mp hscope

theorem run (h : r.Linked) {cs : List Call} (hrun : run cs r = some r') : r'.Linked := by
  induction cs generalizing r with
  | nil =>
    cases hrun
    exact h
  | cons c cs ih =>
    obtain ⟨r₁, hc, hcs⟩ := bind_eq_some_iff.mp hrun
    exact ih (h.call hc) hcs

end Linked

end ScopeDescRecorder

variable (more : List UInt32)

theorem writeSenderLink_append (h : writeSenderLink scopeOffs sender = some bytes) :
    writeSenderLink (scopeOffs ++ more) sender = some bytes := by
  cases sender with
  | none => exact h
  | some link =>
    obtain ⟨off, hoff, h⟩ := bind_eq_some_iff.mp h
    apply bind_eq_some_iff.mpr
    refine ⟨off, ?_, h⟩
    rw [List.getElem?_append_left (List.getElem?_eq_some_iff.mp hoff).1, hoff]

theorem writeScopeRecord_append (h : writeScopeRecord scope scopeOffs = some bytes) :
    writeScopeRecord scope (scopeOffs ++ more) = some bytes := by
  obtain ⟨link, hlink, h⟩ := bind_eq_some_iff.mp h
  exact bind_eq_some_iff.mpr ⟨link, writeSenderLink_append more hlink, h⟩

theorem writeSenderLink_some (h : ∀ link, sender = some link → link.sender.toNat < scopeOffs.length) :
    ∃ bytes, writeSenderLink scopeOffs sender = some bytes := by
  cases sender with
  | none => exact ⟨[], rfl⟩
  | some link =>
    refine ⟨_, bind_eq_some_iff.mpr ⟨_, getElem?_eq_getElem (h link rfl), rfl⟩⟩

theorem writeScopeRecord_some (h : ∀ link, scope.sender = some link → link.sender.toNat < scopeOffs.length) :
    ∃ bytes, writeScopeRecord scope scopeOffs = some bytes := by
  obtain ⟨link, hlink⟩ := writeSenderLink_some h
  exact ⟨_, bind_eq_some_iff.mpr ⟨link, hlink, rfl⟩⟩

theorem writeSafepointRecord_some (h : state.scope.toNat < scopeOffs.length) : ∃ bytes, writeSafepointRecord state scopeOffs = some bytes := by
  unfold writeSafepointRecord
  rw [getElem?_eq_getElem h]
  exact ⟨_, rfl⟩

theorem packScopes_spec : ∀ {scopes : List ScopeDescData} (blob : List UInt8) (scopeOffs : List UInt32),
    (∀ {i : Nat} {scope link}, scopes[i]? = some scope → scope.sender = some link →
      link.sender.toNat < scopeOffs.length + i) →
    ∃ tail more, ScopeDescRecorder.packScopes scopes blob scopeOffs = some (blob ++ tail, scopeOffs ++ more) ∧
      more.length = scopes.length ∧
      ∀ {i : Nat} {scope}, scopes[i]? = some scope → ∃ before bytes after, blob ++ tail = before ++ (bytes ++ after) ∧
        more[i]? = some (UInt32.ofNat before.length) ∧ writeScopeRecord scope (scopeOffs ++ more) = some bytes := by
  intro scopes
  induction scopes with
  | nil =>
    intro blob scopeOffs _
    refine ⟨[], [], by simp [ScopeDescRecorder.packScopes], rfl, fun h => by cases h⟩
  | cons scope scopes ih =>
    intro blob scopeOffs hsenders
    have hhead : ∀ link, scope.sender = some link →
        link.sender.toNat < (scopeOffs ++ [UInt32.ofNat blob.length]).length := by
      intro link hlink
      have := hsenders (i := 0) rfl hlink
      rw [length_append]
      omega
    obtain ⟨bytes, hbytes⟩ := writeScopeRecord_some hhead
    obtain ⟨tail, more, hpack, hlen, hall⟩ := ih (blob ++ bytes)
      (scopeOffs ++ [UInt32.ofNat blob.length]) (by
        intro i scope' link hi hlink
        have := hsenders (i := i + 1) hi hlink
        rw [length_append, length_singleton]
        omega)
    refine ⟨bytes ++ tail, UInt32.ofNat blob.length :: more, ?_, by rw [length_cons, length_cons, hlen], ?_⟩
    · apply bind_eq_some_iff.mpr
      refine ⟨bytes, hbytes, ?_⟩
      rw [hpack]
      simp
    · intro i scope' hi
      cases i with
      | zero =>
        cases hi
        refine ⟨blob, bytes, tail, rfl, rfl, ?_⟩
        have h := writeScopeRecord_append more hbytes
        rwa [append_assoc] at h
      | succ i =>
        obtain ⟨before, bytes', after, hblob, hoff, hwrite⟩ := hall hi
        refine ⟨before, bytes', after, ?_, hoff, ?_⟩
        · rw [← hblob, append_assoc]
        · rwa [append_assoc] at hwrite

theorem packSites_spec (scopeOffs : List UInt32) : ∀ {sites : List (UInt32 × SafepointState)} (blob : List UInt8)
    (descs : List PcDesc), (∀ e ∈ sites, e.2.scope.toNat < scopeOffs.length) →
    ∃ tail more, ScopeDescRecorder.packSites scopeOffs sites blob descs = some (blob ++ tail, descs ++ more) ∧
      more.map PcDesc.codeOff = sites.map Prod.fst ∧
      ∀ {codeOff state}, (codeOff, state) ∈ sites → ∃ before bytes after, blob ++ tail = before ++ (bytes ++ after) ∧
        ⟨codeOff, UInt32.ofNat before.length⟩ ∈ more ∧ writeSafepointRecord state scopeOffs = some bytes := by
  intro sites
  induction sites with
  | nil =>
    intro blob descs _
    exact ⟨[], [], by simp [ScopeDescRecorder.packSites], rfl, fun h => absurd h not_mem_nil⟩
  | cons site sites ih =>
    intro blob descs hsites
    obtain ⟨codeOff, state⟩ := site
    obtain ⟨bytes, hbytes⟩ := writeSafepointRecord_some (hsites _ mem_cons_self)
    obtain ⟨tail, more, hpack, hkeys, hall⟩ := ih (blob ++ bytes)
      (descs ++ [⟨codeOff, UInt32.ofNat blob.length⟩]) fun e he => hsites e (mem_cons_of_mem _ he)
    refine ⟨bytes ++ tail, ⟨codeOff, UInt32.ofNat blob.length⟩ :: more, ?_, by rw [map_cons, map_cons, hkeys], ?_⟩
    · apply bind_eq_some_iff.mpr
      refine ⟨bytes, hbytes, ?_⟩
      rw [hpack]
      simp
    · intro codeOff' state' he
      rcases mem_cons.mp he with heq | he
      · cases heq
        exact ⟨blob, bytes, tail, rfl, mem_cons_self, hbytes⟩
      · obtain ⟨before, bytes', after, hblob, hmem, hwrite⟩ := hall he
        refine ⟨before, bytes', after, ?_, mem_cons_of_mem _ hmem, hwrite⟩
        rw [← hblob, append_assoc]

/-- The scopes from `id` outward by their sender links. -/
def chainFrom (scopes : List ScopeDescData) : Nat → UInt32 → List ScopeDescData
  | 0, _ => []
  | fuel + 1, id =>
    match scopes[id.toNat]? with
    | none => []
    | some scope =>
      scope :: match scope.sender with
        | none => []
        | some link => chainFrom scopes fuel link.sender

def ScopeDescRecorder.chain (r : ScopeDescRecorder) (id : UInt32) : List ScopeDescData :=
  chainFrom r.scopes r.scopes.length id

def ScopeChainIter.Yields : ScopeChainIter → List DecodedScope → Prop
  | it, [] => ∃ it', it.next = some (none, it')
  | it, d :: ds => ∃ it', it.next = some (some d, it') ∧ it'.Yields ds

/-- A decoded scope has the recorded scope's method, locations, context and pending stack. -/
structure DecodedScope.Describes (scope : ScopeDescData) (d : DecodedScope) : Prop where
  methodPoolIx : d.methodPoolIx = scope.methodPoolIx
  isBlock : d.isBlock = scope.isBlock
  receiver : d.receiver = scope.receiver
  slots : d.slots = scope.slots
  ctx : d.ctx = scope.ctx
  sender : d.sender.map Prod.snd = scope.sender.map fun link => (link.senderBci, link.pendingStack)

structure DeoptState.Restores (r : ScopeDescRecorder) (state : SafepointState) (d : DeoptState) : Prop where
  bci : d.site.bci = state.bci
  kind : d.site.kind = state.kind
  reexecute : d.site.reexecute = state.reexecute
  stack : d.site.stack = state.stack
  scopes : ∃ ds, d.scopes.Yields ds ∧ List.Forall₂ DecodedScope.Describes (r.chain state.scope) ds

def RoundTrips (r : ScopeDescRecorder) : Prop :=
  ∃ blob descs, r.pack = some (blob, descs) ∧ ∀ codeOff state, (codeOff, state) ∈ r.sites →
    ∃ d, DeoptState.atParts blob descs codeOff = some d ∧ d.Restores r state

theorem yields_chain {scopes : List ScopeDescData} {blob : List UInt8}
    (hsenders : ∀ {i : Nat} {scope link}, scopes[i]? = some scope → scope.sender = some link → link.sender.toNat < i)
    (hdecode : ∀ {i : Nat} {scope}, scopes[i]? = some scope →
      ∃ off, scopeOffs[i]? = some off ∧ decodeScope blob off = some (decodedScope scopeOffs scope)) :
    ∀ {fuel : Nat} {id off : UInt32}, id.toNat < scopes.length → id.toNat < fuel → scopeOffs[id.toNat]? = some off →
      ∃ ds, ScopeChainIter.Yields ⟨blob, some off⟩ ds ∧
        List.Forall₂ DecodedScope.Describes (chainFrom scopes fuel id) ds := by
  intro fuel
  induction fuel with
  | zero =>
    intro id off _ hfuel
    omega
  | succ fuel ih =>
    intro id off hid hfuel hoff
    have hscope : scopes[id.toNat]? = some (scopes[id.toNat]) := getElem?_eq_getElem hid
    generalize scopes[id.toNat] = scope at hscope
    obtain ⟨off', hoff', hd⟩ := hdecode hscope
    cases (hoff.symm.trans hoff')
    have hnext : (⟨blob, some off⟩ : ScopeChainIter).next = some (some (decodedScope scopeOffs scope),
        ⟨blob, (decodedSender scopeOffs scope.sender).map Prod.fst⟩) := by
      apply bind_eq_some_iff.mpr
      exact ⟨_, hd, rfl⟩
    unfold chainFrom
    rw [hscope]
    dsimp only
    cases hsender : scope.sender with
    | none =>
      rw [hsender] at hnext
      refine ⟨[decodedScope scopeOffs scope], ⟨_, hnext, _, rfl⟩, .cons ⟨rfl, rfl, rfl, rfl, rfl, ?_⟩ .nil⟩
      show (decodedSender scopeOffs scope.sender).map Prod.snd = _
      rw [hsender]
      rfl
    | some link =>
      have hlt := hsenders hscope hsender
      obtain ⟨senderScope, hin⟩ : ∃ senderScope, scopes[link.sender.toNat]? = some senderScope :=
        ⟨_, getElem?_eq_getElem (by omega)⟩
      obtain ⟨senderOff, hsenderOff, -⟩ := hdecode hin
      have hlink : decodedSender scopeOffs (some link) = some (senderOff, link.senderBci, link.pendingStack) := by
        show (scopeOffs[link.sender.toNat]?).map _ = _
        rw [hsenderOff]
        rfl
      rw [hsender, hlink] at hnext
      obtain ⟨ds, hyields, hall⟩ := ih (by omega) (by omega) hsenderOff
      refine ⟨decodedScope scopeOffs scope :: ds, ⟨_, hnext, hyields⟩, .cons ⟨rfl, rfl, rfl, rfl, rfl, ?_⟩ hall⟩
      show (decodedSender scopeOffs scope.sender).map Prod.snd = _
      rw [hsender, hlink]
      rfl

theorem record_nonempty (h : writeScopeRecord scope scopeOffs = some bytes) : 0 < bytes.length := by
  obtain ⟨link, -, h⟩ := bind_eq_some_iff.mp h
  cases h
  exact Nat.succ_pos _

theorem site_nonempty (h : writeSafepointRecord state scopeOffs = some bytes) : 0 < bytes.length := by
  obtain ⟨off, -, h⟩ := bind_eq_some_iff.mp h
  cases h
  simp only [length_append, length_singleton]
  omega

theorem offset_exact (hsmall : blob.length ≤ 2 ^ 32)
    (hblob : blob = before ++ (bytes ++ after)) (hpos : 0 < bytes.length) :
    (UInt32.ofNat before.length).toNat = before.length ∧ bytes.length < 2 ^ 64 := by
  have hlen := congrArg List.length hblob
  simp only [length_append] at hlen
  rw [UInt32.toNat_ofNat']
  omega

theorem descs_find {descs : List PcDesc} (hdistinct : (descs.map PcDesc.codeOff).Nodup) {d : PcDesc} (hd : d ∈ descs) :
    PcDesc.find (descs.insertionSort fun d d' => d.codeOff.toNat ≤ d'.codeOff.toNat) d.codeOff = some d := by
  have hperm := perm_insertionSort (fun d d' : PcDesc => d.codeOff.toNat ≤ d'.codeOff.toNat) descs
  have htotal : Std.Total fun d d' : PcDesc => d.codeOff.toNat ≤ d'.codeOff.toNat := ⟨fun _ _ => Nat.le_total _ _⟩
  have htrans : IsTrans PcDesc fun d d' => d.codeOff.toNat ≤ d'.codeOff.toNat := ⟨fun _ _ _ => Nat.le_trans⟩
  have hsorted := pairwise_insertionSort (fun d d' : PcDesc => d.codeOff.toNat ≤ d'.codeOff.toNat) descs
  have hkeys : List.Pairwise (fun d d' : PcDesc => d.codeOff ≠ d'.codeOff) (descs.insertionSort
      fun d d' => d.codeOff.toNat ≤ d'.codeOff.toNat) :=
    pairwise_map.mp ((hperm.map PcDesc.codeOff).nodup_iff.mpr hdistinct)
  have hstrict := hsorted.imp₂ (fun d d' hle hne => Nat.lt_of_le_of_ne hle fun heq => hne (UInt32.toNat_inj.mp heq)) hkeys
  exact BinarySearch.find_mem hstrict (hperm.mem_iff.mpr hd)

/-- What a compilation recorded is decoded at each of its sites, while the packed blob has offsets of
32 bits. -/
theorem roundTrip {calls : List ScopeDescRecorder.Call} {r : ScopeDescRecorder}
    (hrun : ScopeDescRecorder.run calls ScopeDescRecorder.new = some r) (hdistinct : (r.sites.map Prod.fst).Nodup)
    (hsmall : ∀ blob descs, r.pack = some (blob, descs) → blob.length ≤ 2 ^ 32) : RoundTrips r := by
  have hlinked := ScopeDescRecorder.Linked.new.run hrun
  obtain ⟨scopeBytes, scopeOffs, hscopes, hcount, hscopeAt⟩ := packScopes_spec [] []
    fun {i scope link} hi hlink => by
      have := hlinked.senders hi hlink
      rw [length_nil]
      omega
  simp only [nil_append] at hscopes hscopeAt
  obtain ⟨siteBytes, descs, hsites, hkeys, hsiteAt⟩ := packSites_spec scopeOffs scopeBytes [] fun e he => by
      rw [hcount]
      exact hlinked.sites he
  rw [nil_append] at hsites
  have hpack : r.pack = some (scopeBytes ++ siteBytes,
      descs.insertionSort fun d d' => d.codeOff.toNat ≤ d'.codeOff.toNat) := by
    show (ScopeDescRecorder.packScopes r.scopes [] []).bind _ = _
    rw [hscopes]
    show (ScopeDescRecorder.packSites scopeOffs r.sites scopeBytes []).bind _ = _
    rw [hsites]
    rfl
  have hblob := hsmall _ _ hpack
  have hdecode : ∀ {i : Nat} {scope}, r.scopes[i]? = some scope → ∃ off, scopeOffs[i]? = some off ∧
      decodeScope (scopeBytes ++ siteBytes) off = some (decodedScope scopeOffs scope) := by
    intro i scope hi
    obtain ⟨before, bytes, after, hsplit, hoff, hwrite⟩ := hscopeAt hi
    have hwhole : scopeBytes ++ siteBytes = before ++ (bytes ++ (after ++ siteBytes)) := by
      rw [hsplit]
      simp
    obtain ⟨hexact, hlen⟩ := offset_exact hblob hwhole (record_nonempty hwrite)
    exact ⟨_, hoff, decodeScope_at hwhole hexact (reads_scope hwrite hlen)⟩
  refine ⟨_, _, hpack, fun codeOff state hsite => ?_⟩
  obtain ⟨before, bytes, after, hsplit, hdesc, hwrite⟩ := hsiteAt hsite
  obtain ⟨hexact, hlen⟩ := offset_exact hblob hsplit (site_nonempty hwrite)
  have hscope := hlinked.sites hsite
  obtain ⟨scope, hi⟩ : ∃ scope, r.scopes[state.scope.toNat]? = some scope := ⟨_, getElem?_eq_getElem hscope⟩
  obtain ⟨off, hoff, -⟩ := hdecode hi
  have hfind := descs_find (hkeys ▸ hdistinct) hdesc
  have hat : DeoptState.atParts (scopeBytes ++ siteBytes)
      (descs.insertionSort fun d d' => d.codeOff.toNat ≤ d'.codeOff.toNat) codeOff =
      some ⟨scopeBytes ++ siteBytes, ⟨off, state.bci, state.kind, state.reexecute, state.stack⟩⟩ := by
    apply bind_eq_some_iff.mpr
    refine ⟨_, hfind, bind_eq_some_iff.mpr ⟨_, ?_, rfl⟩⟩
    exact decodeSite_at hsplit hexact (reads_site hoff hwrite hlen)
  exact ⟨_, hat, rfl, rfl, rfl, rfl, yields_chain hlinked.senders hdecode hscope hscope hoff⟩

def inlinedBlock : List ScopeDescRecorder.Call :=
  [.beginScope ⟨0, false, none, .frameSlot (-8), [.constSmi (-1)], .none⟩,
    .beginScope ⟨1, true, some ⟨0, 12, [.nil]⟩, .frameSlot (-16), [], .elided [.constPool 3]⟩,
    .recordSite 64 ⟨1, 5, .uncommonTrap, true, [.doubleSlot (-24)]⟩,
    .recordSite 32 ⟨0, 9, .call, false, []⟩]

theorem roundTrip_inlinedBlock : ∃ r, ScopeDescRecorder.run inlinedBlock ScopeDescRecorder.new = some r ∧ RoundTrips r := by
  refine ⟨_, rfl, @roundTrip inlinedBlock _ rfl (by decide) fun blob descs h => ?_⟩
  cases h
  decide

/-- A method scope with `n` slots. -/
def wideData (n : Nat) : ScopeDescData := ⟨0, false, none, .nil, List.replicate n .nil, .none⟩

def wideScope (n : Nat) : List ScopeDescRecorder.Call :=
  [.beginScope (wideData n), .recordSite 0 ⟨0, 0, .loopPoll, false, []⟩]

def wideRecorder (n : Nat) : ScopeDescRecorder := ⟨[wideData n], [(0, ⟨0, 0, .loopPoll, false, []⟩)]⟩

theorem wideScope_run (n : Nat) : ScopeDescRecorder.run (wideScope n) ScopeDescRecorder.new = some (wideRecorder n) := rfl

theorem write_nils (n : Nat) : (List.replicate n ValueLoc.nil).flatMap ValueLoc.write = List.replicate n 3 := by
  induction n with
  | zero => rfl
  | succ n ih =>
    rw [replicate_succ, flatMap_cons, ih]
    rfl

def wideHeader (n : Nat) : List UInt8 := 0 :: 0 :: 3 :: writeUleb n

def wideSite : List UInt8 := [0, 0, 2, 0]

theorem wide_record (n : Nat) : writeScopeRecord (wideData n) [0] = some (wideHeader n ++ List.replicate n 3) := by
  have hflags : scopeFlags (wideData n) = 0 := by
    show (false.toUInt8 ||| (false.toUInt8 <<< 1) ||| ((0 : UInt8) <<< 2)) = 0
    decide
  have hlocs : writeLocs (wideData n).slots = writeUleb n ++ List.replicate n 3 := by
    show writeUleb (List.replicate n ValueLoc.nil).length ++ _ = _
    rw [length_replicate]
    exact congrArg _ (write_nils n)
  show some (scopeFlags (wideData n) :: (writeUleb 0 ++ [] ++ ValueLoc.nil.write ++ writeLocs (wideData n).slots ++
    CtxLoc.none.write)) = _
  rw [hflags, hlocs]
  simp [wideHeader, ValueLoc.write, CtxLoc.write, writeUleb, Varint.write]

theorem wide_pack (n : Nat) : (wideRecorder n).pack = some (wideHeader n ++ List.replicate n 3 ++ wideSite,
    [⟨0, UInt32.ofNat (wideHeader n ++ List.replicate n 3).length⟩]) := by
  have hscopes : ScopeDescRecorder.packScopes [wideData n] [] [] = some (wideHeader n ++ List.replicate n 3, [0]) := by
    rw [ScopeDescRecorder.packScopes]
    show (writeScopeRecord (wideData n) [0]).bind _ = _
    rw [wide_record]
    rfl
  have hsites : ScopeDescRecorder.packSites [0] (wideRecorder n).sites (wideHeader n ++ List.replicate n 3) [] =
      some (wideHeader n ++ List.replicate n 3 ++ wideSite,
        [⟨0, UInt32.ofNat (wideHeader n ++ List.replicate n 3).length⟩]) := rfl
  unfold ScopeDescRecorder.pack
  rw [show (wideRecorder n).scopes = [wideData n] from rfl, hscopes]
  dsimp only [bind, Option.bind]
  rw [hsites]
  rfl

theorem readSite_nils {tail : List UInt8} {rest : List UInt8}
    (h : readSite (3 :: 3 :: 3 :: tail) = some (site, rest)) : site.bci = 3 := by
  have hrun : readSite (3 :: 3 :: 3 :: tail) =
      (readLocs tail).bind fun p => some (⟨3, 3, .loopPoll, true, p.1⟩, p.2) := rfl
  obtain ⟨⟨stack, rest'⟩, -, h⟩ := bind_eq_some_iff.mp (hrun.symm.trans h)
  cases h
  rfl

theorem wide_site (hn : n = 2 ^ 32) (h : decodeSite (wideHeader n ++ List.replicate n 3 ++ wideSite)
      (UInt32.ofNat (wideHeader n ++ List.replicate n 3).length) = some site) : site.bci = 3 := by
  have hheader : (wideHeader n).length = 8 := by
    rw [hn]
    decide
  have hoff : (UInt32.ofNat (wideHeader n ++ List.replicate n (3 : UInt8)).length).toNat = (wideHeader n).length := by
    rw [UInt32.toNat_ofNat', length_append, length_replicate, hheader]
    omega
  obtain ⟨m, hm⟩ : ∃ m, n = m + 3 := ⟨n - 3, by omega⟩
  have htags : List.replicate n (3 : UInt8) ++ wideSite = 3 :: 3 :: 3 :: (List.replicate m 3 ++ wideSite) := by
    rw [hm, replicate_succ, replicate_succ, replicate_succ]
    rfl
  unfold decodeSite at h
  rw [hoff, append_assoc, drop_left, htags] at h
  obtain ⟨⟨site', rest⟩, hread, rfl⟩ := map_eq_some_iff.mp h
  exact readSite_nils hread

theorem wide_lost (hn : n = 2 ^ 32) : ¬ RoundTrips (wideRecorder n) := by
  rintro ⟨blob, descs, hpack, hall⟩
  cases ((wide_pack n).symm.trans hpack)
  obtain ⟨d, hat, hrestores⟩ := hall 0 ⟨0, 0, .loopPoll, false, []⟩ (mem_singleton.mpr rfl)
  -- The one descriptor is found.
  obtain ⟨site, hsite, hat⟩ := bind_eq_some_iff.mp hat
  cases hat
  have hbci := wide_site hn hsite
  rw [hrestores.bci] at hbci
  exact absurd hbci (by decide)

/-- With 2 ^ 32 slots the site's offset is cut to 32 bits and points among the slots. -/
theorem wideScope_lost : ¬ ∀ (calls : List ScopeDescRecorder.Call) (r : ScopeDescRecorder),
    ScopeDescRecorder.run calls ScopeDescRecorder.new = some r → (r.sites.map Prod.fst).Nodup → RoundTrips r := by
  intro h
  exact wide_lost rfl (h (wideScope (2 ^ 32)) (wideRecorder (2 ^ 32)) (wideScope_run _) (nodup_singleton _))

theorem OsrSource.reads : ∀ src : OsrSource, Reads src.write OsrSource.read src
  | .receiver => (Reads.uleb (v := 0) (by decide)).bind (Reads.pure _)
  | .slot i => by
    have h := (reads_uleb16 i).map fun n => slot (UInt16.ofNat n)
    rw [UInt16.ofNat_toNat] at h
    exact (Reads.uleb (v := 1) (by decide)).bind h
  | .stackSlot i => by
    have h := (reads_uleb16 i).map fun n => stackSlot (UInt16.ofNat n)
    rw [UInt16.ofNat_toNat] at h
    exact (Reads.uleb (v := 2) (by decide)).bind h
  | .context => (Reads.uleb (v := 3) (by decide)).bind (Reads.pure _)

theorem narrow_signExtended (off : Int32) : (UInt32.ofNat off.toInt64.toUInt64.toNat).toInt32 = off := by
  apply Int32.toBitVec_inj.mp
  show BitVec.ofNat 32 (off.toBitVec.signExtend 64).toNat = off.toBitVec
  rw [BitVec.ofNat_toNat]
  ext i hi
  rw [BitVec.getElem_setWidth, BitVec.getLsbD_eq_getElem (by omega), BitVec.getElem_signExtend, dif_pos hi]

theorem OsrSlot.reads (s : OsrSlot) : Reads s.write OsrSlot.read s := by
  have hoff := (Reads.uleb (-s.dstFrameOff).toInt64.toUInt64.toNat_lt).map
    fun n => OsrSlot.mk s.src (-(UInt32.ofNat n).toInt32)
  rw [narrow_signExtended, Int32.neg_neg] at hoff
  exact (OsrSource.reads s.src).bind hoff

/-- The map that is unpacked is the one packed, and the bytes after it are left. -/
theorem OsrMap.unpack_pack (m : OsrMap) (hlen : m.slots.length < 2 ^ 64) (rest : List UInt8) :
    OsrMap.unpack (m.pack ++ rest) = some (m, rest) := by
  have h : Reads m.pack OsrMap.unpack m := by
    unfold OsrMap.pack OsrMap.unpack
    refine (reads_uleb16 _).bind ((reads_uleb32 _).bind ((reads_uleb32 _).bind ((Reads.uleb hlen).bind ?_)))
    have hslots := (Reads.count OsrSlot.reads m.slots).map (OsrMap.mk m.osrBci m.entryOff m.frameWords)
    simp only [UInt16.ofNat_toNat, UInt32.ofNat_toNat]
    exact hslots
  exact h rest

theorem OsrMap.unpack_pack_loop :
    OsrMap.unpack (OsrMap.pack ⟨12, 400, 6, [⟨.receiver, -8⟩, ⟨.slot 300, -16⟩, ⟨.context, -24⟩]⟩ ++ [7]) =
      some (⟨12, 400, 6, [⟨.receiver, -8⟩, ⟨.slot 300, -16⟩, ⟨.context, -24⟩]⟩, [7]) :=
  OsrMap.unpack_pack ⟨12, 400, 6, [⟨.receiver, -8⟩, ⟨.slot 300, -16⟩, ⟨.context, -24⟩]⟩ (by decide) [7]

end WinArmVm.ScopeDesc
