import WinArmVm.MethodDict

namespace WinArmVm

def lookupCacheSize : Nat := 4096

structure CacheEntry where
  klass : KlassOop
  selector : SymbolOop
  method : MethodOop
deriving DecidableEq, Repr

namespace CacheEntry

def empty : CacheEntry := ⟨⟨0⟩, ⟨0⟩, ⟨0⟩⟩

def isEmpty (e : CacheEntry) : Bool := e.klass.raw = 0

def hits (e : CacheEntry) (klass : KlassOop) (selector : SymbolOop) : Bool :=
  !e.isEmpty && e.klass = klass && e.selector = selector

theorem hits_iff {e : CacheEntry} {klass : KlassOop} {selector : SymbolOop} : e.hits klass selector = true ↔
      e.isEmpty = false ∧ e.klass = klass ∧ e.selector = selector := by
  simp [hits, and_assoc]

end CacheEntry

/-- The address-keyed memo of `lookup`: a primary and a victim entry for each
hash, at indexes `2h` and `2h + 1`. -/
structure LookupCache where
  entries : Nat → CacheEntry

namespace LookupCache

def new : LookupCache := ⟨fun _ => CacheEntry.empty⟩

def hash (klass : KlassOop) (selector : SymbolOop) : Nat :=
  (klass.raw >>> 3 ^^^ selector.raw >>> 3) &&& (lookupCacheSize - 1)

def set (c : LookupCache) (i : Nat) (e : CacheEntry) : LookupCache := ⟨Function.update c.entries i e⟩

def swap (c : LookupCache) (i j : Nat) : LookupCache := (c.set i (c.entries j)).set j (c.entries i)

def probe (c : LookupCache) (klass : KlassOop) (selector : SymbolOop) : Option MethodOop × LookupCache :=
  let h := hash klass selector
  let primary := 2 * h
  let victim := 2 * h + 1
  if (c.entries primary).hits klass selector then (some (c.entries primary).method, c)
  else if (c.entries victim).hits klass selector then
    (some (c.entries victim).method, c.swap primary victim)
  else (none, c)

def insert (c : LookupCache) (klass : KlassOop) (selector : SymbolOop) (method : MethodOop) : LookupCache :=
  let h := hash klass selector
  let primary := 2 * h
  let victim := 2 * h + 1
  (c.set victim (c.entries primary)).set primary ⟨klass, selector, method⟩

def flush (_ : LookupCache) : LookupCache := new

/-- Every occupied entry pairs its key with the method `answer` gives that key. -/
def Agrees (c : LookupCache) (answer : KlassOop → SymbolOop → Option MethodOop) : Prop :=
  ∀ i, (c.entries i).isEmpty = false → answer (c.entries i).klass (c.entries i).selector = some (c.entries i).method

variable {answer : KlassOop → SymbolOop → Option MethodOop} {c : LookupCache}

theorem new_agrees : new.Agrees answer := by
  intro i h
  simp [new, CacheEntry.empty, CacheEntry.isEmpty] at h

section

variable (hc : c.Agrees answer)

include hc

theorem Agrees.set {e : CacheEntry} (he : e.isEmpty = false → answer e.klass e.selector = some e.method) (i : Nat) :
    (c.set i e).Agrees answer := by
  intro x hx
  by_cases h : x = i
  · subst x
    simp only [LookupCache.set, Function.update_self] at hx ⊢
    exact he hx
  · simp only [LookupCache.set, Function.update_of_ne h] at hx ⊢
    exact hc x hx

theorem Agrees.probe (klass : KlassOop) (selector : SymbolOop) : (c.probe klass selector).2.Agrees answer := by
  simp only [LookupCache.probe]
  split
  next => exact hc
  next =>
    split
    next => exact (hc.set (hc _) _).set (hc _) _
    next => exact hc

variable {selector : SymbolOop} {method : MethodOop} {klass : KlassOop}

theorem Agrees.insert (h : answer klass selector = some method) : (c.insert klass selector method).Agrees answer :=
  (hc.set (hc _) _).set (fun _ => h) _

theorem Agrees.probe_hit (h : (c.probe klass selector).1 = some method) : answer klass selector = some method := by
  have hit : ∀ e : CacheEntry, e.hits klass selector = true → e.method = method →
      (e.isEmpty = false → answer e.klass e.selector = some e.method) →
      answer klass selector = some method := by
    intro e he hm ha
    obtain ⟨hne, hk, hs⟩ := CacheEntry.hits_iff.mp he
    rw [← hk, ← hs, ← hm]
    exact ha hne
  simp only [LookupCache.probe] at h
  split at h
  next hp => exact hit _ hp (Option.some.inj h) (hc _)
  next =>
    split at h
    next hv => exact hit _ hv (Option.some.inj h) (hc _)
    next => simp at h

end

end LookupCache

end WinArmVm
