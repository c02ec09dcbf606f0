import WinArmVm.CodeTable
import WinArmVm.CodeCache

namespace WinArmVm

/-- The address `off` bytes into a block. -/
structure LinkTarget where
  block : CodeHandle
  off : Nat
deriving DecidableEq, Repr

def LinkTarget.addr (t : LinkTarget) : Nat := t.block.base + t.off

/-- Where a site's `bl` goes: `stub_resolve`, a linked address, its PIC, or the
megamorphic trampoline of its selector. -/
inductive LinkState
  | unresolved
  | mono (klass : KlassOop) (target : LinkTarget)
  | pic (stub : CodeHandle)
  | mega (stub : CodeHandle)
deriving DecidableEq, Repr

structure LinkedSite where
  selector : SymbolOop
  superKlass : Option KlassOop
  state : LinkState
deriving DecidableEq, Repr

structure CodeBlob where
  len : Nat
  entryOff : Nat
  verifiedEntryOff : Nat
  entry_lt : entryOff < len
  verified_lt : verifiedEntryOff < len

structure CodeRecord where
  code : CodeHandle
  entryOff : Nat
  verifiedEntryOff : Nat
  state : NmState
  icSites : List LinkedSite
deriving DecidableEq, Repr

def CodeRecord.entry (nm : CodeRecord) : LinkTarget := ⟨nm.code, nm.entryOff⟩

def CodeRecord.verifiedEntry (nm : CodeRecord) : LinkTarget := ⟨nm.code, nm.verifiedEntryOff⟩

structure PicDesc where
  handle : CodeHandle
  pairs : List (KlassOop × LinkTarget)
deriving DecidableEq, Repr

/-- How long the stubs are: the shared ones, generated at boot in this order, and
those built at run time. -/
structure StubBlobs where
  shared : List Nat
  adapter : Nat
  mega : Nat
  pic : Nat → Nat
  shared_pos : ∀ n ∈ shared, 0 < n
  adapter_pos : 0 < adapter
  mega_pos : 0 < mega
  pic_pos : ∀ n, 0 < pic n

/-- The code cache with every table that owns blocks of it. `pics` is keyed by the
stub's address; `activations` counts the frames on the stack that run an nmethod. -/
structure CodeSpace where
  blobs : StubBlobs
  cache : CodeCache
  size : Nat
  slots : NmethodId → Option CodeRecord
  pics : Nat → Option PicDesc
  megas : SymbolOop → Option CodeHandle
  adapters : MethodOop → Option CodeHandle
  stubs : List CodeHandle
  activations : NmethodId → Nat

/-- The callee a resolution picks: a shared block-dispatch stub, a compiled method
that the code table's lookup names, or the method's c2i adapter. -/
inductive Choice
  | stub (i : Nat)
  | code (id : NmethodId)
  | adapter (m : MethodOop)

/-- A site of code being installed. `selfLink` is a proven-self link; its callee
`none` is the code being installed itself. -/
structure NewSite where
  selector : SymbolOop
  superLink : Option (KlassOop × Choice)
  selfLink : Option (KlassOop × Option NmethodId)

namespace CodeSpace

def allocStubs (cache : CodeCache) : List Nat → Option (List CodeHandle × CodeCache)
  | [] => some ([], cache)
  | len :: rest => do
    let (h, cache) ← cache.alloc .stub len
    let (hs, cache) ← allocStubs cache rest
    pure (h :: hs, cache)

def boot (cap : Nat) (blobs : StubBlobs) : Option CodeSpace := do
  let (stubs, cache) ← allocStubs (.new cap) blobs.shared
  pure
    { blobs := blobs
      cache := cache
      size := 0
      slots := fun _ => none
      pics := fun _ => none
      megas := fun _ => none
      adapters := fun _ => none
      stubs := stubs
      activations := fun _ => 0 }

def siteAt (s : CodeSpace) (caller : NmethodId) (idx : Nat) : Option LinkedSite :=
  (s.slots caller).bind fun nm => nm.icSites[idx]?

def patchSite (s : CodeSpace) (caller : NmethodId) (idx : Nat) (state : LinkState) : CodeSpace :=
  { s with slots := Function.update s.slots caller ((s.slots caller).map fun nm =>
      { nm with icSites := nm.icSites.modify idx fun site => { site with state := state } }) }

/-- The adapter of a method, built on the first request. `none` is a cache too
full for one, which panics. -/
def adapterFor (s : CodeSpace) (m : MethodOop) : Option (CodeHandle × CodeSpace) :=
  match s.adapters m with
  | some h => some (h, s)
  | none => do
    let (h, cache) ← s.cache.alloc .adapter s.blobs.adapter
    pure (h, { s with cache := cache, adapters := Function.update s.adapters m (some h) })

def resolveTarget (s : CodeSpace) (useVerified : Bool) : Choice → Option (LinkTarget × CodeSpace)
  | .stub i => do
    let h ← s.stubs[i]?
    pure (⟨h, 0⟩, s)
  | .code id => do
    let nm ← s.slots id
    if nm.state = .alive then pure (if useVerified then nm.verifiedEntry else nm.entry, s) else none
  | .adapter m => do
    let (h, s) ← s.adapterFor m
    pure (⟨h, 0⟩, s)

def buildPic (s : CodeSpace) (pairs : List (KlassOop × LinkTarget)) : Option (CodeHandle × CodeSpace) := do
  let (h, cache) ← s.cache.alloc .pic (s.blobs.pic pairs.length)
  pure (h, { s with cache := cache, pics := Function.update s.pics h.base (some ⟨h, pairs⟩) })

def freePic (s : CodeSpace) (stub : CodeHandle) : CodeSpace :=
  { s with cache := s.cache.release stub, pics := Function.update s.pics stub.base none }

def megaFor (s : CodeSpace) (selector : SymbolOop) : Option (CodeHandle × CodeSpace) :=
  match s.megas selector with
  | some h => some (h, s)
  | none => do
    let (h, cache) ← s.cache.alloc .mega s.blobs.mega
    pure (h, { s with cache := cache, megas := Function.update s.megas selector (some h) })

/-- The new PIC is built before the old one is freed; with a full cache the site
stays as it is. -/
def replacePic (s : CodeSpace) (caller : NmethodId) (idx : Nat) (stub : CodeHandle)
    (pairs : List (KlassOop × LinkTarget)) : CodeSpace :=
  match s.buildPic pairs with
  | some (new, s) => (s.freePic stub).patchSite caller idx (.pic new)
  | none => s

/-- What `rt_resolve_send` does to the code space once it has looked up what to
call, for the receiver's klass and for the klass a mono site is linked for. -/
def rtResolveSend (s : CodeSpace) (caller : NmethodId) (idx : Nat) (k : KlassOop)
    (callee old : Choice) : Option (LinkTarget × CodeSpace) := do
  let site ← s.siteAt caller idx
  match site.superKlass with
  | some superKlass =>
    let (t, s) ← s.resolveTarget true callee
    pure (t, s.patchSite caller idx (.mono superKlass t))
  | none =>
    match site.state with
    | .unresolved =>
      let (t, s) ← s.resolveTarget false callee
      pure (t, s.patchSite caller idx (.mono k t))
    | .mono oldK _ =>
      if oldK = k then
        let (t, s) ← s.resolveTarget false callee
        pure (t, s.patchSite caller idx (.mono k t))
      else
        let (oldT, s) ← s.resolveTarget true old
        let (newT, s) ← s.resolveTarget true callee
        match s.buildPic [(oldK, oldT), (k, newT)] with
        | some (stub, s) => pure (newT, s.patchSite caller idx (.pic stub))
        | none => pure (newT, s)
    | .pic stub =>
      let desc ← s.pics stub.base
      let (newT, s) ← s.resolveTarget true callee
      if desc.pairs.any (fun p => p.1 = k) then
        pure (newT, s.replacePic caller idx stub (rekeyPairs k newT desc.pairs))
      else if desc.pairs.length < picMaxEntries then
        pure (newT, s.replacePic caller idx stub (desc.pairs ++ [(k, newT)]))
      else
        match s.megaFor site.selector with
        | some (mega, s) => pure (newT, (s.freePic stub).patchSite caller idx (.mega mega))
        | none => pure (newT, s)
    | .mega _ => none

/-- The c2i escape hatch re-points the site a call of `selector` returned to. -/
def repointSite (s : CodeSpace) (caller : NmethodId) (idx : Nat) (k : KlassOop)
    (selector : SymbolOop) (id : NmethodId) (callee : Choice) : Option CodeSpace := do
  let site ← s.siteAt caller idx
  if site.superKlass = none ∧ site.selector = selector then
    match site.state with
    | .mono oldK _ =>
      if oldK = k then
        let (t, s) ← s.resolveTarget false (.code id)
        pure (s.patchSite caller idx (.mono k t))
      else pure s
    | .pic stub =>
      let desc ← s.pics stub.base
      match desc.pairs.find? fun p => p.1 = k with
      | none => pure s
      | some p =>
        let (newT, s) ← s.resolveTarget true callee
        if p.2.addr = newT.addr then pure s
        else pure (s.replacePic caller idx stub (rekeyPairs k newT desc.pairs))
    | _ => pure s
  else pure s

def resolveSupers (s : CodeSpace) : List NewSite → Option (List (NewSite × Option (KlassOop × LinkTarget)) × CodeSpace)
  | [] => some ([], s)
  | new :: rest =>
    match new.superLink with
    | none => do
      let (sites, s) ← resolveSupers s rest
      pure ((new, none) :: sites, s)
    | some (superKlass, callee) => do
      let (t, s) ← s.resolveTarget true callee
      let (sites, s) ← resolveSupers s rest
      pure ((new, some (superKlass, t)) :: sites, s)

def selfTarget (s : CodeSpace) (code : CodeHandle) (blob : CodeBlob) : Option NmethodId → Option LinkTarget
  | none => some ⟨code, blob.verifiedEntryOff⟩
  | some id => do
    let nm ← s.slots id
    if nm.state = .alive then pure nm.verifiedEntry else none

def linkSite (s : CodeSpace) (code : CodeHandle) (blob : CodeBlob)
    (new : NewSite × Option (KlassOop × LinkTarget)) : LinkedSite where
  selector := new.1.selector
  superKlass := new.2.map Prod.fst
  state :=
    match new.2 with
    | some (k, t) => .mono k t
    | none =>
      match new.1.selfLink with
      | some (k, callee) =>
        match s.selfTarget code blob callee with
        | some t => .mono k t
        | none => .unresolved
      | none => .unresolved

/-- Publish a compile and install its record. A full cache declines the compile,
and keeps the adapters its super sites asked for. -/
def install (s : CodeSpace) (blob : CodeBlob) (sites : List NewSite) : Option (Option NmethodId × CodeSpace) := do
  let (resolved, s) ← s.resolveSupers sites
  match s.cache.alloc .code blob.len with
  | none => pure (none, s)
  | some (code, cache) =>
    let nm : CodeRecord :=
      { code := code
        entryOff := blob.entryOff
        verifiedEntryOff := blob.verifiedEntryOff
        state := .alive
        icSites := resolved.map (s.linkSite code blob) }
    let id := firstFree s.size s.slots
    pure (some id, { s with
      cache := cache
      size := max s.size (id.index + 1)
      slots := Function.update s.slots id (some nm) })

def setState (s : CodeSpace) (id : NmethodId) (state : NmState) : CodeSpace :=
  { s with slots := Function.update s.slots id ((s.slots id).map fun nm => { nm with state := state }) }

/-- Both `make_not_entrant` and the lazy one: the record and its code stay, for
the activations that still run it. -/
def makeNotEntrant (s : CodeSpace) (id : NmethodId) : CodeSpace := s.setState id .notEntrant

def enter (s : CodeSpace) (id : NmethodId) : CodeSpace :=
  { s with activations := Function.update s.activations id (s.activations id + 1) }

def leave (s : CodeSpace) (id : NmethodId) : CodeSpace :=
  { s with activations := Function.update s.activations id (s.activations id - 1) }

def inRange (block : CodeHandle) (t : LinkTarget) : Bool := block.base ≤ t.addr && t.addr < block.base + block.len

def pairsOf (s : CodeSpace) (stub : CodeHandle) : List (KlassOop × LinkTarget) :=
  ((s.pics stub.base).map PicDesc.pairs).getD []

def hitsFlushed (s : CodeSpace) (block : CodeHandle) (site : LinkedSite) : Bool :=
  match site.state with
  | .mono _ t => inRange block t
  | .pic stub => (s.pairsOf stub).any fun p => inRange block p.2
  | _ => false

def staleSitesOf (s : CodeSpace) (block : CodeHandle) (id : NmethodId) : List (NmethodId × Nat) :=
  match s.slots id with
  | none => []
  | some nm =>
    if nm.state = .alive then
      ((List.range nm.icSites.length).filter fun idx =>
        (nm.icSites[idx]?).any (s.hitsFlushed block)).map fun idx => (id, idx)
    else []

def staleSites (s : CodeSpace) (block : CodeHandle) : List (NmethodId × Nat) :=
  (List.range s.size).flatMap fun i => s.staleSitesOf block ⟨i⟩

/-- Back to `stub_resolve`; the site's PIC is freed with it. -/
def resetSite (s : CodeSpace) (at_ : NmethodId × Nat) : CodeSpace :=
  let freed :=
    match (s.siteAt at_.1 at_.2).map LinkedSite.state with
    | some (.pic stub) => s.freePic stub
    | _ => s
  freed.patchSite at_.1 at_.2 .unresolved

def flushNmethod (s : CodeSpace) (id : NmethodId) : CodeSpace :=
  match s.slots id with
  | none => s
  | some nm =>
    let zombie := s.setState id .zombie
    let s := (zombie.staleSites nm.code).foldl resetSite zombie
    { s with slots := Function.update s.slots id none, cache := s.cache.release nm.code }

def notEntrantIds (s : CodeSpace) : List NmethodId := ((List.range s.size).map NmethodId.mk).filter fun id =>
    (s.slots id).any fun nm => nm.state = .notEntrant

def sweepNotEntrantZombies (s : CodeSpace) : CodeSpace :=
  (s.notEntrantIds.filter fun id => s.activations id = 0).foldl flushNmethod s

end CodeSpace

end WinArmVm
