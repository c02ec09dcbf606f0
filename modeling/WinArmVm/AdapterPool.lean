import WinArmVm.CodeCache
import Mathlib.Data.List.Nodup

namespace WinArmVm

open List Option Function

structure CachedAdapter where
  handle : CodeHandle
  methodPoolOff : Nat
deriving DecidableEq, Repr

def CachedAdapter.poolAddr (a : CachedAdapter) : Nat := a.handle.base + a.methodPoolOff

/-- The adapter's code with its literal pool: the method's address, then the address
of the shared stub. -/
structure AdapterBlob where
  len : Nat
  literalOff : Nat
  pool : List Nat

def c2iLiteralOff : Nat := (3 * 4 + 7) / 8 * 8

def buildC2iAdapter (method c2iSharedAddr : Nat) : AdapterBlob :=
  ⟨c2iLiteralOff + 2 * 8, c2iLiteralOff, [method, c2iSharedAddr]⟩

/-- The words of the code region, by address. -/
abbrev CodeWords := Nat → Nat

/-- Only the pool of a published adapter is read as data. -/
def AdapterBlob.publish (blob : AdapterBlob) (h : CodeHandle) (code : CodeWords) : CodeWords := fun x =>
  if h.base + blob.literalOff ≤ x ∧ x < h.base + blob.len then
    (blob.pool[(x - (h.base + blob.literalOff)) / 8]?).getD 0
  else code x

structure AdapterTable where
  byMethod : List (Nat × CachedAdapter)

namespace AdapterTable

def get (t : AdapterTable) (key : Nat) : Option CachedAdapter := t.byMethod.lookup key

def insert (t : AdapterTable) (key : Nat) (a : CachedAdapter) : AdapterTable :=
  ⟨(key, a) :: t.byMethod.filter fun p => p.1 ≠ key⟩

/-- A hit counts only when the adapter's own pool word is the key; otherwise a new
adapter takes the key over. `none` is a full code cache. -/
def getOrMake (t : AdapterTable) (cache : CodeCache) (code : CodeWords) (c2iSharedAddr method : Nat) :
    Option (Nat × AdapterTable × CodeCache × CodeWords) :=
  let key := method
  let make := do
    let blob := buildC2iAdapter method c2iSharedAddr
    let (h, cache) ← cache.alloc .adapter blob.len
    pure (h.base, t.insert key ⟨h, blob.literalOff⟩, cache, blob.publish h code)
  match t.get key with
  | some a => if code a.poolAddr = key then some (a.handle.base, t, cache, code) else make
  | none => make

/-- Every pool word of the table through `f`. -/
def oopsDo (t : AdapterTable) (f : Nat → Nat) (code : CodeWords) : CodeWords :=
  t.byMethod.foldl (fun code p => Function.update code p.2.poolAddr (f (code p.2.poolAddr))) code

end AdapterTable

/-- The table in its surroundings. `heap` says which method object lies at an address;
`returned` are the adapters handed out so far, each with the object it was made for. -/
structure AdapterWorld where
  heap : Nat → Option Nat
  born : Nat
  cache : CodeCache
  code : CodeWords
  table : AdapterTable
  returned : List (Nat × Nat)

/-- A collection moves the object at `x` to `move x`, if it survives. -/
structure Moves (move : Nat → Option Nat) (heap heap' : Nat → Option Nat) : Prop where
  inj : ∀ x x' y, move x = some y → move x' = some y → x = x'
  carries : ∀ x y, move x = some y → heap' y = heap x
  only : ∀ y id, heap' y = some id → ∃ x, move x = some y

inductive AdapterEvent
  | allocate (x : Nat)
  | getOrMake (x : Nat)
  | collect (move : Nat → Option Nat)
  | grant (use : BlockUse) (len : Nat)
  | release (h : CodeHandle)
  | publish (h : CodeHandle)

namespace AdapterWorld

def boot (cap : Nat) : AdapterWorld := ⟨fun _ => none, 0, CodeCache.new cap, fun _ => 0, ⟨[]⟩, []⟩

/-- A new method object goes to a free address, old or new. The pool words are roots of
a collection. The rest of the code cache is granted, written and released by others. -/
inductive Step (c2iSharedAddr : Nat) (w : AdapterWorld) : AdapterEvent → AdapterWorld → Prop
  | allocate (x : Nat) (hfree : w.heap x = none) : Step c2iSharedAddr w (.allocate x)
      { w with heap := Function.update w.heap x (some w.born), born := w.born + 1 }
  | getOrMake (x id addr : Nat) (table : AdapterTable) (cache : CodeCache) (code : CodeWords)
      (hlive : w.heap x = some id)
      (hrun : w.table.getOrMake w.cache w.code c2iSharedAddr x = some (addr, table, cache, code)) :
    Step c2iSharedAddr w (.getOrMake x)
      { w with cache := cache, code := code, table := table, returned := (addr, id) :: w.returned }
  | collect (move : Nat → Option Nat) (heap : Nat → Option Nat) (hmove : Moves move w.heap heap)
      (hroots : ∀ p ∈ w.table.byMethod, (move (w.code p.2.poolAddr)).isSome) :
    Step c2iSharedAddr w (.collect move)
      { w with heap := heap, code := w.table.oopsDo (fun x => (move x).getD x) w.code }
  | grant (use : BlockUse) (len : Nat) (h : CodeHandle) (cache : CodeCache) (huse : use ≠ .adapter)
      (hlen : 0 < len) (halloc : w.cache.alloc use len = some (h, cache)) :
    Step c2iSharedAddr w (.grant use len) { w with cache := cache }
  | release (h : CodeHandle) (hlive : h ∈ w.cache.live) (huse : h.use ≠ .adapter) :
    Step c2iSharedAddr w (.release h) { w with cache := w.cache.release h }
  | publish (h : CodeHandle) (code : CodeWords) (hlive : h ∈ w.cache.live) (huse : h.use ≠ .adapter)
      (hcode : ∀ x, x < h.base ∨ h.base + h.len ≤ x → code x = w.code x) :
    Step c2iSharedAddr w (.publish h) { w with code := code }

/-- The runs whose steps all meet `ok`, by the states they reach. -/
inductive Run (c2iSharedAddr : Nat) (ok : AdapterWorld → AdapterEvent → Prop) (cap : Nat) : AdapterWorld → Prop
  | boot : Run c2iSharedAddr ok cap (boot cap)
  | step {w w' : AdapterWorld} {e : AdapterEvent} (hrun : Run c2iSharedAddr ok cap w)
      (hok : ok w e) (hstep : Step c2iSharedAddr w e w') : Run c2iSharedAddr ok cap w'

def Current (w : AdapterWorld) : Prop := ∀ p ∈ w.returned, w.heap (w.code (p.1 + c2iLiteralOff)) = some p.2

def Unshared (w : AdapterWorld) : Prop := ∀ p ∈ w.returned, ∀ q ∈ w.returned, p.1 = q.1 → p.2 = q.2

def NoStaleHit (w : AdapterWorld) (e : AdapterEvent) : Prop :=
  ∀ x a, e = .getOrMake x → w.table.get x = some a → w.code a.poolAddr = x

structure Valid (w : AdapterWorld) : Prop where
  cache : w.cache.Valid
  owned : ∀ p ∈ w.returned, ∃ h ∈ w.cache.live, h.use = .adapter ∧ h.base = p.1 ∧ c2iLiteralOff + 16 ≤ h.len
  adapters : ∀ p ∈ w.table.byMethod, p.2.handle ∈ w.cache.live ∧ p.2.handle.use = .adapter ∧
    c2iLiteralOff + 16 ≤ p.2.handle.len ∧ p.2.methodPoolOff = c2iLiteralOff
  distinct : (w.table.byMethod.map fun p => p.2.handle).Nodup
  kept : ∀ p ∈ w.table.byMethod, ∃ id, (p.2.handle.base, id) ∈ w.returned ∧ w.heap (w.code p.2.poolAddr) = some id
  unshared : w.Unshared
  ids : ∀ x id, w.heap x = some id → id < w.born

def Listed (w : AdapterWorld) : Prop := ∀ p ∈ w.returned, ∃ q ∈ w.table.byMethod, q.2.handle.base = p.1

theorem Valid.current {w : AdapterWorld} (h : w.Valid) (hl : w.Listed) : w.Current := by
  intro p hp
  obtain ⟨q, hq, hbase⟩ := hl p hp
  obtain ⟨id, hid, hheap⟩ := h.kept q hq
  have hoff := (h.adapters q hq).2.2.2
  have hsame := h.unshared p hp (q.2.handle.base, id) hid hbase.symm
  unfold CachedAdapter.poolAddr at hheap
  rw [hbase, hoff] at hheap
  rw [hsame]
  exact hheap

end AdapterWorld

namespace AdapterTable

theorem foldl_update {l : List (Nat × CachedAdapter)} (f : Nat → Nat) (code : CodeWords)
    (hn : (l.map fun p => p.2.poolAddr).Nodup) :
    (∀ p ∈ l, l.foldl (fun code p => Function.update code p.2.poolAddr (f (code p.2.poolAddr))) code
      p.2.poolAddr = f (code p.2.poolAddr)) ∧
    ∀ x, (∀ p ∈ l, p.2.poolAddr ≠ x) →
      l.foldl (fun code p => Function.update code p.2.poolAddr (f (code p.2.poolAddr))) code x = code x := by
  induction l generalizing code with
  | nil => exact ⟨fun p hp => absurd hp not_mem_nil, fun x _ => rfl⟩
  | cons q l ih =>
    obtain ⟨hnot, hn⟩ := nodup_cons.mp hn
    obtain ⟨hin, hout⟩ := ih (Function.update code q.2.poolAddr (f (code q.2.poolAddr))) hn
    have hother : ∀ p ∈ l, q.2.poolAddr ≠ p.2.poolAddr := by
      intro p hp he
      exact hnot (mem_map.mpr ⟨p, hp, he.symm⟩)
    refine ⟨fun p hp => ?_, fun x hx => ?_⟩
    · rw [foldl_cons]
      rcases mem_cons.mp hp with rfl | hp
      · rw [hout _ fun p hp => (hother p hp).symm, update_self]
      · rw [hin p hp, update_of_ne (hother p hp).symm]
    · rw [foldl_cons, hout x fun p hp => hx p (mem_cons_of_mem q hp), update_of_ne (hx q mem_cons_self).symm]

variable {a : CachedAdapter} {t : AdapterTable} {key : Nat}

theorem mem_insert {p : Nat × CachedAdapter} :
    p ∈ (t.insert key a).byMethod ↔ p = (key, a) ∨ p ∈ t.byMethod ∧ p.1 ≠ key := by
  unfold insert
  rw [mem_cons, mem_filter, decide_eq_true_eq]

theorem get_mem (h : t.get key = some a) : (key, a) ∈ t.byMethod := by
  obtain ⟨l₁, l₂, hl, _⟩ := lookup_eq_some_iff.mp h
  rw [hl]
  exact mem_append.mpr (.inr mem_cons_self)

end AdapterTable

namespace AdapterWorld

theorem publish_pool (method shared : Nat) (h : CodeHandle) (code : CodeWords) :
    (buildC2iAdapter method shared).publish h code (h.base + c2iLiteralOff) = method := by
  unfold AdapterBlob.publish buildC2iAdapter
  dsimp only
  rw [if_pos (by omega), Nat.sub_self]
  rfl

variable {w w' : AdapterWorld} {cache : CodeCache} {code : CodeWords} {e : AdapterEvent} {shared cap : Nat}

theorem publish_other (method shared : Nat) {h : CodeHandle} {x : Nat}
    (hx : x < h.base ∨ h.base + (c2iLiteralOff + 16) ≤ x) :
    (buildC2iAdapter method shared).publish h code x = code x := by
  unfold AdapterBlob.publish buildC2iAdapter
  dsimp only
  exact if_neg (by omega)

variable {w : AdapterWorld}

theorem Valid.apart (h : w.Valid) {a b : CodeHandle} (ha : a ∈ w.cache.live)
    (hb : b ∈ w.cache.live) (hne : a ≠ b) : a.base + a.len ≤ b.base ∨ b.base + b.len ≤ a.base :=
  h.cache.live_apart.forall ha hb hne

theorem Valid.poolAddrs (h : w.Valid) : (w.table.byMethod.map fun p => p.2.poolAddr).Nodup := by
  have hpair : w.table.byMethod.Pairwise fun p q => p.2.handle ≠ q.2.handle := pairwise_map.mp h.distinct
  refine pairwise_map.mpr (hpair.imp_of_mem fun {p q} hp hq hne he => ?_)
  obtain ⟨hpl, _, hplen, hpoff⟩ := h.adapters p hp
  obtain ⟨hql, _, hqlen, hqoff⟩ := h.adapters q hq
  have hap := h.apart hpl hql hne
  unfold CachedAdapter.poolAddr at he
  omega

theorem Valid.make (h : w.Valid) {x id shared : Nat} {a : CodeHandle} (hlive : w.heap x = some id)
    (halloc : w.cache.alloc .adapter (buildC2iAdapter x shared).len = some (a, cache)) :
    Valid { w with
      cache := cache
      code := (buildC2iAdapter x shared).publish a w.code
      table := w.table.insert x ⟨a, c2iLiteralOff⟩
      returned := (a.base, id) :: w.returned } := by
  have hg := h.cache.alloc (by unfold buildC2iAdapter; dsimp only; omega) halloc
  have hlen : c2iLiteralOff + 16 ≤ a.len := hg.len_le
  have hsub : ∀ b ∈ w.cache.live, b ∈ cache.live := by
    intro b hb
    rw [hg.live]
    exact mem_cons_of_mem a hb
  have ha : a ∈ cache.live := by
    rw [hg.live]
    exact mem_cons_self
  have hne : ∀ b ∈ w.cache.live, b ≠ a := by
    intro b hb he
    have hlt := h.cache.serials b hb
    rw [he, hg.fresh] at hlt
    exact Nat.lt_irrefl _ hlt
  have hapart : ∀ b ∈ w.cache.live, b.base + b.len ≤ a.base ∨ a.base + a.len ≤ b.base :=
    fun b hb => hg.valid.live_apart.forall (hsub b hb) ha (hne b hb)
  refine ⟨hg.valid, fun p hp => ?_, fun p hp => ?_, ?_, fun p hp => ?_, fun p hp q hq he => ?_, h.ids⟩
  · rcases mem_cons.mp hp with rfl | hp
    · exact ⟨a, ha, hg.use, rfl, hlen⟩
    · obtain ⟨b, hb, hrest⟩ := h.owned p hp
      exact ⟨b, hsub b hb, hrest⟩
  · rcases AdapterTable.mem_insert.mp hp with rfl | ⟨hp, _⟩
    · exact ⟨ha, hg.use, hlen, rfl⟩
    · obtain ⟨hl, hrest⟩ := h.adapters p hp
      exact ⟨hsub _ hl, hrest⟩
  · refine nodup_cons.mpr ⟨fun hm => ?_, h.distinct.sublist (filter_sublist.map _)⟩
    obtain ⟨q, hq, he⟩ := mem_map.mp hm
    exact hne _ (h.adapters q (mem_filter.mp hq).1).1 he
  · rcases AdapterTable.mem_insert.mp hp with rfl | ⟨hp, _⟩
    · refine ⟨id, mem_cons_self, ?_⟩
      have hword := publish_pool x shared a w.code
      unfold CachedAdapter.poolAddr
      dsimp only
      rw [hword]
      exact hlive
    · obtain ⟨id', hid, hheap⟩ := h.kept p hp
      obtain ⟨hl, _, hplen, hoff⟩ := h.adapters p hp
      refine ⟨id', mem_cons_of_mem _ hid, ?_⟩
      have hap := hapart _ hl
      unfold CachedAdapter.poolAddr at hheap ⊢
      dsimp only
      rw [publish_other x shared (by omega)]
      exact hheap
  · have hold : ∀ r ∈ w.returned, r.1 ≠ a.base := by
      intro r hr hbase
      obtain ⟨b, hb, _, hb₁, hb₂⟩ := h.owned r hr
      have hap := hapart b hb
      omega
    rcases mem_cons.mp hp with rfl | hp
    · rcases mem_cons.mp hq with rfl | hq
      · rfl
      · exact absurd he.symm (hold q hq)
    · rcases mem_cons.mp hq with rfl | hq
      · exact absurd he (hold p hp)
      · exact h.unshared p hp q hq he

theorem Valid.hit (h : w.Valid) {x id : Nat} {a : CachedAdapter}
    (hlive : w.heap x = some id) (hget : w.table.get x = some a) (hword : w.code a.poolAddr = x) :
    Valid { w with returned := (a.handle.base, id) :: w.returned } := by
  have hmem := AdapterTable.get_mem hget
  obtain ⟨id', hid, hheap⟩ := h.kept (x, a) hmem
  have hsame : id' = id := by
    rw [hword, hlive] at hheap
    exact (some.inj hheap).symm
  rw [hsame] at hid
  refine ⟨h.cache, fun p hp => ?_, h.adapters, h.distinct, fun p hp => ?_, fun p hp q hq he => ?_, h.ids⟩
  · rcases mem_cons.mp hp with rfl | hp
    · exact h.owned _ hid
    · exact h.owned p hp
  · obtain ⟨i, hi, hrest⟩ := h.kept p hp
    exact ⟨i, mem_cons_of_mem _ hi, hrest⟩
  · have hin : ∀ r, r ∈ (a.handle.base, id) :: w.returned → r ∈ w.returned := by
      intro r hr
      rcases mem_cons.mp hr with rfl | hr
      · exact hid
      · exact hr
    exact h.unshared p (hin p hp) q (hin q hq) he

theorem getOrMake_cases {t : AdapterTable} {cache cache' : CodeCache} {code code' : CodeWords}
    {t' : AdapterTable} {shared x addr : Nat} (h : t.getOrMake cache code shared x = some (addr, t', cache', code')) :
    (∃ a, t.get x = some a ∧ code a.poolAddr = x ∧ addr = a.handle.base ∧ t' = t ∧ cache' = cache ∧ code' = code) ∨
      ∃ a, cache.alloc .adapter (buildC2iAdapter x shared).len = some (a, cache') ∧
        addr = a.base ∧ t' = t.insert x ⟨a, c2iLiteralOff⟩ ∧
        code' = (buildC2iAdapter x shared).publish a code ∧
        ∀ b, t.get x = some b → code b.poolAddr ≠ x := by
  have hmake : (do
      let blob := buildC2iAdapter x shared
      let (h, cache) ← cache.alloc .adapter blob.len
      pure (h.base, t.insert x ⟨h, blob.literalOff⟩, cache, blob.publish h code)) = some (addr, t', cache', code') →
      ∃ a, cache.alloc .adapter (buildC2iAdapter x shared).len = some (a, cache') ∧
        addr = a.base ∧ t' = t.insert x ⟨a, c2iLiteralOff⟩ ∧
        code' = (buildC2iAdapter x shared).publish a code := by
    intro hm
    obtain ⟨⟨a, c⟩, ha, hr⟩ := bind_eq_some_iff.mp hm
    cases hr
    exact ⟨a, ha, rfl, rfl, rfl⟩
  unfold AdapterTable.getOrMake at h
  dsimp only at h
  split at h
  next a hget =>
    split at h
    next hword =>
      cases h
      exact .inl ⟨a, hget, hword, rfl, rfl, rfl, rfl⟩
    next hword =>
      obtain ⟨b, hb⟩ := hmake h
      refine .inr ⟨b, hb.1, hb.2.1, hb.2.2.1, hb.2.2.2, fun c hc => ?_⟩
      rw [hget] at hc
      cases hc
      exact hword
  next hget =>
    obtain ⟨b, hb⟩ := hmake h
    refine .inr ⟨b, hb.1, hb.2.1, hb.2.2.1, hb.2.2.2, fun c hc => ?_⟩
    rw [hget] at hc
    cases hc

theorem boot_valid (cap : Nat) : (boot cap).Valid where
  cache := CodeCache.new_valid cap
  owned := fun p hp => absurd hp List.not_mem_nil
  adapters := fun p hp => absurd hp List.not_mem_nil
  distinct := List.nodup_nil
  kept := fun p hp => absurd hp List.not_mem_nil
  unshared := fun p hp => absurd hp List.not_mem_nil
  ids := fun x id h => by cases h

theorem Valid.others (h : w.Valid)
    (hcache : cache.Valid) (hlive : ∀ a ∈ w.cache.live, a.use = .adapter → a ∈ cache.live)
    (hcode : ∀ a ∈ w.cache.live, a.use = .adapter → c2iLiteralOff + 16 ≤ a.len →
      code (a.base + c2iLiteralOff) = w.code (a.base + c2iLiteralOff)) :
    Valid { w with cache := cache, code := code } := by
  refine ⟨hcache, fun p hp => ?_, fun p hp => ?_, h.distinct, fun p hp => ?_, h.unshared, h.ids⟩
  · obtain ⟨a, ha, huse, hrest⟩ := h.owned p hp
    exact ⟨a, hlive a ha huse, huse, hrest⟩
  · obtain ⟨ha, huse, hrest⟩ := h.adapters p hp
    exact ⟨hlive _ ha huse, huse, hrest⟩
  · obtain ⟨id, hid, hheap⟩ := h.kept p hp
    obtain ⟨ha, huse, hlen, hoff⟩ := h.adapters p hp
    refine ⟨id, hid, ?_⟩
    have hword := hcode _ ha huse hlen
    unfold CachedAdapter.poolAddr at hheap ⊢
    rw [hoff] at hheap ⊢
    dsimp only
    rw [hword]
    exact hheap

theorem Valid.collect (h : w.Valid) {move : Nat → Option Nat} {heap : Nat → Option Nat} (hmove : Moves move w.heap heap)
    (hroots : ∀ p ∈ w.table.byMethod, (move (w.code p.2.poolAddr)).isSome) :
    Valid { w with
      heap := heap
      code := w.table.oopsDo (fun x => (move x).getD x) w.code } := by
  refine ⟨h.cache, h.owned, h.adapters, h.distinct, fun p hp => ?_, h.unshared, fun x id hx => ?_⟩
  · obtain ⟨id, hid, hheap⟩ := h.kept p hp
    refine ⟨id, hid, ?_⟩
    have hword := (AdapterTable.foldl_update (fun x => (move x).getD x) w.code h.poolAddrs).1 p hp
    obtain ⟨y, hy⟩ := isSome_iff_exists.mp (hroots p hp)
    unfold AdapterTable.oopsDo
    dsimp only at hword ⊢
    rw [hword, hy, getD_some, hmove.carries _ y hy]
    exact hheap
  · obtain ⟨y, hy⟩ := hmove.only x id hx
    have hx : heap x = some id := hx
    rw [hmove.carries y x hy] at hx
    exact h.ids y id hx

theorem step_valid {shared : Nat} (h : w.Valid) (hs : Step shared w e w') : w'.Valid := by
  cases hs with
  | allocate x hfree =>
    refine ⟨h.cache, h.owned, h.adapters, h.distinct, fun p hp => ?_, h.unshared, fun y id hy => ?_⟩
    · obtain ⟨id, hid, hheap⟩ := h.kept p hp
      refine ⟨id, hid, ?_⟩
      have hne : w.code p.2.poolAddr ≠ x := by
        intro he
        rw [he, hfree] at hheap
        cases hheap
      dsimp only
      rw [update_of_ne hne]
      exact hheap
    · dsimp only at hy ⊢
      by_cases he : y = x
      · rw [he, update_self] at hy
        cases hy
        exact Nat.lt_succ_self _
      · rw [update_of_ne he] at hy
        exact Nat.lt_succ_of_lt (h.ids y id hy)
  | getOrMake x id addr table cache code hlive hrun =>
    rcases getOrMake_cases hrun with ⟨a, hget, hword, rfl, rfl, rfl, rfl⟩ | ⟨a, ha, rfl, rfl, rfl, _⟩
    · exact h.hit hlive hget hword
    · exact h.make hlive ha
  | collect move heap hmove hroots => exact h.collect hmove hroots
  | grant use len b cache huse hlen halloc =>
    have hg := h.cache.alloc hlen halloc
    refine h.others hg.valid (fun a ha _ => ?_) fun a _ _ _ => rfl
    rw [hg.live]
    exact mem_cons_of_mem b ha
  | release b hlive huse =>
    obtain ⟨hvalid, hl, _⟩ := h.cache.release hlive
    refine h.others hvalid (fun a ha hause => ?_) fun a _ _ _ => rfl
    rw [hl]
    refine (mem_erase_of_ne fun he => huse ?_).mpr ha
    rw [← he]
    exact hause
  | publish b code hlive huse hcode =>
    refine h.others h.cache (fun a ha _ => ha) fun a ha hause hlen => hcode _ ?_
    have hne : a ≠ b := by
      intro he
      rw [he] at hause
      exact huse hause
    have hap := h.apart ha hlive hne
    omega

theorem step_listed {shared : Nat} (hl : w.Listed) (hok : w.NoStaleHit e) (hs : Step shared w e w') : w'.Listed := by
  cases hs with
  | allocate x hfree => exact hl
  | collect move heap hmove hroots => exact hl
  | grant use len b cache huse hlen halloc => exact hl
  | release b hlive huse => exact hl
  | publish b code hlive huse hcode => exact hl
  | getOrMake x id addr table cache code hlive hrun =>
    intro p hp
    rcases getOrMake_cases hrun with ⟨a, hget, hword, rfl, rfl, rfl, rfl⟩ | ⟨a, ha, rfl, rfl, rfl, hstale⟩
    · rcases mem_cons.mp hp with rfl | hp
      · exact ⟨(x, a), AdapterTable.get_mem hget, rfl⟩
      · exact hl p hp
    · -- nothing had the key, so nothing is dropped for it
      have hnone : ∀ b, w.table.get x ≠ some b := fun b hb => hstale b hb (hok x b rfl hb)
      rcases mem_cons.mp hp with rfl | hp
      · exact ⟨_, AdapterTable.mem_insert.mpr (.inl rfl), rfl⟩
      · obtain ⟨q, hq, hbase⟩ := hl p hp
        refine ⟨q, AdapterTable.mem_insert.mpr (.inr ⟨hq, fun hkey => ?_⟩), hbase⟩
        have hfound : (w.table.byMethod.lookup x).isSome := by
          rw [← hkey]
          exact lookup_isSome_iff.mpr ⟨q, hq, beq_self_eq_true _⟩
        obtain ⟨b, hb⟩ := isSome_iff_exists.mp hfound
        exact hnone b hb

theorem run_valid {ok : AdapterWorld → AdapterEvent → Prop} (h : Run shared ok cap w) : w.Valid := by
  induction h with
  | boot => exact boot_valid cap
  | step _ _ hs ih => exact step_valid ih hs

theorem run_listed (h : Run shared NoStaleHit cap w) : w.Listed := by
  induction h with
  | boot => exact fun p hp => absurd hp not_mem_nil
  | step _ hok hs ih => exact step_listed ih hok hs

/-- While no request hits an adapter that another method left behind at its address,
every adapter loads the method it was made for; no adapter is ever shared. -/
theorem adapters_current {shared cap : Nat} : (∀ w, Run shared NoStaleHit cap w → w.Current) ∧
      ∀ w, Run shared (fun _ _ => True) cap w → w.Unshared :=
  ⟨fun _ h => (run_valid h).current (run_listed h), fun _ h => (run_valid h).unshared⟩

def movedHeap (pairs : List (Nat × Nat)) (heap : Nat → Option Nat) (y : Nat) : Option Nat :=
  (pairs.find? fun p => p.2 = y).bind fun p => heap p.1

theorem moves_pairs (pairs : List (Nat × Nat)) (heap : Nat → Option Nat)
    (hkeys : (pairs.map Prod.fst).Nodup) (hn : (pairs.map Prod.snd).Nodup) :
    Moves (fun x => pairs.lookup x) heap (movedHeap pairs heap) := by
  have hmem : ∀ x y, pairs.lookup x = some y → (x, y) ∈ pairs := by
    intro x y h
    obtain ⟨l₁, l₂, hl, _⟩ := lookup_eq_some_iff.mp h
    rw [hl]
    exact mem_append.mpr (.inr mem_cons_self)
  have hsnd : ∀ p ∈ pairs, ∀ q ∈ pairs, p.2 = q.2 → p = q :=
    fun p hp q hq he => inj_on_of_nodup_map hn hp hq he
  refine ⟨fun x x' y h h' => ?_, fun x y h => ?_, fun y id h => ?_⟩
  · have := hsnd _ (hmem x y h) _ (hmem x' y h') rfl
    exact (Prod.mk.inj this).1
  · unfold movedHeap
    cases hf : pairs.find? fun p => p.2 = y with
    | none => exact absurd (decide_eq_true rfl) (find?_eq_none.mp hf _ (hmem x y h))
    | some p =>
      have hp : p.2 = y := by simpa using find?_some hf
      have := hsnd p (mem_of_find?_eq_some hf) _ (hmem x y h) hp
      rw [this]
      rfl
  · obtain ⟨p, hf, _⟩ := bind_eq_some_iff.mp h
    have hp := mem_of_find?_eq_some hf
    have hy : p.2 = y := by simpa using find?_some hf
    have hsome : (pairs.lookup p.1).isSome := lookup_isSome_iff.mpr ⟨p, hp, beq_self_eq_true _⟩
    obtain ⟨y', hy'⟩ := isSome_iff_exists.mp hsome
    have hsame : (p.1, y') = p := inj_on_of_nodup_map hkeys (hmem _ _ hy') hp rfl
    refine ⟨p.1, ?_⟩
    rw [hy', ← hy, ← hsame]

/-- Object 0 has moved away from 100 and object 1 taken its address when the second adapter
is asked for: it takes the first's place in the table, and the next collection leaves the
first's word behind. -/
theorem reused_address_orphans_adapter : ∃ w, Run 7 (fun _ _ => True) 4096 w ∧ ¬ w.Current := by
  have h₀ : Run 7 (fun _ _ => True) 4096 (boot 4096) := Run.boot
  have h₁ := h₀.step trivial (Step.allocate 100 rfl)
  have h₂ := h₁.step trivial (Step.getOrMake 100 0 0 _ _ _ rfl rfl)
  have h₃ := h₂.step trivial (Step.collect _ _ (moves_pairs [(100, 200)] _ (by decide) (by decide)) (by decide))
  have h₄ := h₃.step trivial (Step.allocate 100 rfl)
  have h₅ := h₄.step trivial (Step.getOrMake 100 1 32 _ _ _ rfl rfl)
  have h₆ := h₅.step trivial (Step.collect _ _ (moves_pairs [(100, 100), (200, 300)] _
    (by decide) (by decide)) (by decide))
  refine ⟨_, h₆, fun hc => ?_⟩
  have hword := hc (0, 0) (mem_cons_of_mem _ mem_cons_self)
  revert hword
  decide

/-- Two methods, one of them moved, and neither at an address the other left. -/
theorem adapters_current_moved : ∃ w : AdapterWorld, w.returned = [(32, 1), (0, 0)] ∧ w.Current := by
  have h₀ : Run 7 NoStaleHit 4096 (boot 4096) := Run.boot
  have h₁ := h₀.step (fun _ _ he => by cases he) (Step.allocate 100 rfl)
  have h₂ := h₁.step (fun x a he hg => by cases he; cases hg) (Step.getOrMake 100 0 0 _ _ _ rfl rfl)
  have h₃ := h₂.step (fun _ _ he => by cases he) (Step.collect _ _ (moves_pairs [(100, 200)] _
    (by decide) (by decide)) (by decide))
  have h₄ := h₃.step (fun _ _ he => by cases he) (Step.allocate 300 rfl)
  have h₅ := h₄.step (fun x a he hg => by cases he; cases hg) (Step.getOrMake 300 1 32 _ _ _ rfl rfl)
  exact ⟨_, rfl, adapters_current.1 _ h₅⟩

end AdapterWorld

end WinArmVm
