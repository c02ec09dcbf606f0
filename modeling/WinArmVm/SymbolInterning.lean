import WinArmVm.SymbolTable
import Mathlib.Data.Fintype.EquivFin

namespace WinArmVm.Interner

open List LinearProbing SymbolTable

/-- The table holds the symbols handed out, each where its contents lead, under three quarters full. -/
structure Sound (st : Interner) : Prop where
  probed : (st.symbols.entries st.heap).Probed keyHash
  count : st.symbols.count = st.symbols.held.length
  load : st.symbols.count * 4 < st.symbols.buckets.length * 3
  size : 2 ≤ st.symbols.buckets.length
  hashed : ∀ s ∈ st.symbols.held, st.heap.hash s = (contentHash (st.heap.bytes s)).toUInt32 ||| 1
  known : ∀ bytes s, (bytes, s) ∈ st.returned ↔ s ∈ st.symbols.held ∧ st.heap.bytes s = bytes

variable {st : Interner} {heap : SymbolHeap}

theorem Sound.room (h : st.Sound) : st.symbols.count < st.symbols.buckets.length := by
  have := h.load
  omega

theorem Sound.bytes_injective (h : st.Sound) {s s' : SymbolOop} (hs : s ∈ st.symbols.held)
    (hs' : s' ∈ st.symbols.held) (he : st.heap.bytes s = st.heap.bytes s') : s = s' :=
  inj_on_of_nodup_map (held_nodup h.probed) hs hs' he

theorem start_sound (heap : SymbolHeap) : (start heap).Sound := by
  have hheld : (start heap).symbols.held = [] := reduceOption_replicate_none
  have hno : ∀ s, s ∉ (start heap).symbols.held := fun s hs => by
    rw [hheld] at hs
    cases hs
  refine ⟨⟨⟨10, length_replicate⟩, fun i k _ ⟨s, hs⟩ => ?_⟩, by rw [hheld]; rfl, ?_, ?_, ?_, ?_⟩
  · exact absurd (mem_held_iff.mpr ⟨i, (slot_eq_some_iff.mp hs).1⟩) (hno s)
  · show 0 * 4 < (List.replicate SYMBOL_TABLE_CAPACITY none).length * 3
    rw [length_replicate]
    decide
  · show 2 ≤ (List.replicate SYMBOL_TABLE_CAPACITY none).length
    rw [length_replicate]
    decide
  · exact fun s hs => absurd hs (hno s)
  · intro bytes s
    constructor
    · intro hr
      cases hr
    · exact fun hs => absurd hs.1 (hno s)

variable {place s : SymbolOop} {bytes : List UInt8}

theorem alloc_bytes_other (bytes : List UInt8) (h : s ≠ place) :
    (heap.alloc place bytes).bytes s = heap.bytes s := Function.update_of_ne h _ _

theorem alloc_hash_other (bytes : List UInt8) (h : s ≠ place) :
    (heap.alloc place bytes).hash s = heap.hash s := Function.update_of_ne h _ _

theorem alloc_bytes_self (place : SymbolOop) (bytes : List UInt8) :
    (heap.alloc place bytes).bytes place = bytes := Function.update_self ..

theorem alloc_hash_self (place : SymbolOop) (bytes : List UInt8) :
    (heap.alloc place bytes).hash place = (contentHash bytes).toUInt32 ||| 1 := Function.update_self ..

theorem Sound.again (h : st.Sound) {sym : SymbolOop}
    (hsym : sym ∈ st.symbols.held) (hbytes : st.heap.bytes sym = bytes) :
    (⟨st.heap, st.symbols, st.returned ++ [(bytes, sym)]⟩ : Interner).Sound := by
  refine ⟨h.probed, h.count, h.load, h.size, h.hashed, fun bytes' s => ?_⟩
  rw [mem_append, h.known, mem_singleton, Prod.mk.injEq]
  constructor
  · intro hs
    rcases hs with hs | ⟨rfl, rfl⟩
    · exact hs
    · exact ⟨hsym, hbytes⟩
  · exact .inl

theorem Sound.enter (h : st.Sound) {place : SymbolOop} {symbols : SymbolTable}
    (hfree : place ∉ st.symbols.held) (hprobed : (symbols.entries (st.heap.alloc place bytes)).Probed keyHash)
    (hcount : symbols.count = symbols.held.length) (hload : symbols.count * 4 < symbols.buckets.length * 3)
    (hsize : 2 ≤ symbols.buckets.length) (hmem : ∀ s, s ∈ symbols.held ↔ s ∈ st.symbols.held ∨ s = place) :
    (⟨st.heap.alloc place bytes, symbols, st.returned ++ [(bytes, place)]⟩ : Interner).Sound := by
  have hne : ∀ s ∈ st.symbols.held, s ≠ place := fun s hs he => hfree (he ▸ hs)
  refine ⟨hprobed, hcount, hload, hsize, fun s hs => ?_, fun bytes' s => ?_⟩
  · rcases (hmem s).mp hs with hs | rfl
    · show (st.heap.alloc place bytes).hash s = _
      rw [alloc_hash_other bytes (hne s hs), h.hashed s hs, alloc_bytes_other bytes (hne s hs)]
    · show (st.heap.alloc s bytes).hash s = _
      rw [alloc_hash_self, alloc_bytes_self]
  · rw [mem_append, h.known, mem_singleton, Prod.mk.injEq, hmem]
    constructor
    · intro hs
      rcases hs with ⟨hs, hb⟩ | ⟨rfl, rfl⟩
      · exact ⟨.inl hs, (alloc_bytes_other bytes (hne s hs)).trans hb⟩
      · exact ⟨.inr rfl, alloc_bytes_self _ _⟩
    · intro ⟨hs, hb⟩
      rcases hs with hs | rfl
      · exact .inl ⟨hs, (alloc_bytes_other bytes (hne s hs)).symm.trans hb⟩
      · exact .inr ⟨hb.symm.trans (alloc_bytes_self _ _), rfl⟩

theorem Sound.intern (h : st.Sound) (bytes : List UInt8) {place : SymbolOop}
    (hfree : place ∉ st.symbols.held) : ∃ sym heap symbols,
    internCore st.heap st.symbols place bytes = some (sym, heap, symbols) ∧
      (⟨heap, symbols, st.returned ++ [(bytes, sym)]⟩ : Interner).Sound := by
  have hprobe := probe_spec h.probed h.count h.room bytes
  unfold internCore
  dsimp only
  rw [hprobe, Option.bind_eq_bind, Option.bind_some]
  cases hfind : (st.symbols.entries st.heap).find? keyHash bytes with
  | some sym =>
    obtain ⟨i, -, hs⟩ := (Table.find?_eq_some_iff h.probed).mp hfind
    obtain ⟨hb, hbytes⟩ := slot_eq_some_iff.mp hs
    exact ⟨sym, st.heap, st.symbols, rfl, h.again (mem_held_iff.mpr ⟨i, hb⟩) hbytes⟩
  | none =>
    have hne : ∀ s ∈ st.symbols.held, s ≠ place := fun s hs he => hfree (he ▸ hs)
    have hself : (st.heap.alloc place bytes).bytes place = bytes := alloc_bytes_self place bytes
    have hsame : st.symbols.entries (st.heap.alloc place bytes) = st.symbols.entries st.heap :=
      entries_congr fun s hs => alloc_bytes_other bytes (hne s hs)
    obtain ⟨t, hins, ht, htlen, htcount, htheld, htmem⟩ := @insert_spec (st.heap.alloc place bytes)
      st.symbols (by rw [hsame]; exact h.probed) h.count h.room place (by
        intro s hs he
        rw [alloc_bytes_other bytes (hne s hs), hself] at he
        obtain ⟨i, hi⟩ := mem_held_iff.mp hs
        have hslot : (st.symbols.entries st.heap).slot i = some (bytes, s) := slot_eq_some_iff.mpr ⟨hi, he⟩
        have hfound := (Table.find?_eq_some_iff h.probed).mpr ⟨i, (List.getElem?_eq_some_iff.mp hi).1, hslot⟩
        rw [hfind] at hfound
        cases hfound)
    rw [hself] at hins
    have hroom := h.room
    have hload := h.load
    have hsize := h.size
    rw [hins, Option.bind_eq_bind, Option.bind_some]
    by_cases hfull : t.buckets.length * 3 ≤ t.count * 4
    · obtain ⟨t', hre, ht', hlen', hcount', hheld', hmem'⟩ := rehash_spec ht htheld (by omega)
      rw [if_pos hfull, hre]
      refine ⟨place, _, t', rfl, h.enter hfree ht' hheld' (by omega) (by omega) fun s => ?_⟩
      rw [hmem', htmem]
    · rw [if_neg hfull]
      exact ⟨place, _, t, rfl, h.enter hfree ht htheld (by omega) (by omega) htmem⟩

theorem held_updateRoots (symbols : SymbolTable) (f : SymbolOop → SymbolOop) :
    (symbols.updateRoots f).held = symbols.held.map f := by
  unfold held updateRoots List.reduceOption
  rw [filterMap_map, map_filterMap]
  rfl

theorem Sound.collect (h : st.Sound) {f : SymbolOop → SymbolOop}
    (hkeep : ∀ s ∈ st.symbols.held, heap.bytes (f s) = st.heap.bytes s ∧ heap.hash (f s) = st.heap.hash s) :
    (⟨heap, st.symbols.updateRoots f, st.returned.map fun r => (r.1, f r.2)⟩ : Interner).Sound := by
  have hlen : (st.symbols.updateRoots f).buckets.length = st.symbols.buckets.length := length_map _
  have hentries : (st.symbols.updateRoots f).entries heap = (st.symbols.entries st.heap).mapEntries (Equiv.refl _) f := by
    unfold entries Table.mapEntries
    congr 1
    funext i
    show ((st.symbols.buckets.map (Option.map f))[i]?.join.map fun s => (heap.bytes s, s)) =
      (st.symbols.buckets[i]?.join.map fun s => (st.heap.bytes s, s)).map (Prod.map (Equiv.refl _) f)
    rw [List.getElem?_map]
    cases hb : st.symbols.buckets[i]? with
    | none => rfl
    | some o =>
      cases o with
      | none => rfl
      | some s =>
        have hbytes := (hkeep s (mem_held_iff.mpr ⟨i, hb⟩)).1
        show some (heap.bytes (f s), f s) = some (st.heap.bytes s, f s)
        rw [hbytes]
  refine ⟨?_, ?_, ?_, ?_, fun s hs => ?_, fun bytes s => ?_⟩
  · show ((st.symbols.updateRoots f).entries heap).Probed keyHash
    rw [hentries]
    exact h.probed.mapEntries (Equiv.refl _) f
  · show st.symbols.count = (st.symbols.updateRoots f).held.length
    rw [held_updateRoots, length_map]
    exact h.count
  · show st.symbols.count * 4 < (st.symbols.updateRoots f).buckets.length * 3
    rw [hlen]
    exact h.load
  · show 2 ≤ (st.symbols.updateRoots f).buckets.length
    rw [hlen]
    exact h.size
  · rw [held_updateRoots] at hs
    obtain ⟨s₀, hs₀, rfl⟩ := mem_map.mp hs
    show heap.hash (f s₀) = (contentHash (heap.bytes (f s₀))).toUInt32 ||| 1
    rw [(hkeep s₀ hs₀).1, (hkeep s₀ hs₀).2]
    exact h.hashed s₀ hs₀
  · show (bytes, s) ∈ st.returned.map (fun r => (r.1, f r.2)) ↔
      s ∈ (st.symbols.updateRoots f).held ∧ heap.bytes s = bytes
    rw [held_updateRoots, mem_map, mem_map]
    constructor
    · intro ⟨r, hr, he⟩
      cases he
      obtain ⟨hs, hb⟩ := (h.known r.1 r.2).mp hr
      exact ⟨⟨r.2, hs, rfl⟩, (hkeep r.2 hs).1.trans hb⟩
    · intro ⟨⟨s₀, hs₀, he⟩, hb⟩
      subst he
      refine ⟨(bytes, s₀), (h.known bytes s₀).mpr ⟨hs₀, (hkeep s₀ hs₀).1.symm.trans hb⟩, rfl⟩

theorem Sound.step {st st' : Interner} (h : st.Sound) (hstep : Step st st') : st'.Sound := by
  cases hstep with
  | intern hfree hcore =>
    obtain ⟨sym, heap, symbols, hres, hsound⟩ := h.intern _ hfree
    cases (hcore.symm.trans hres)
    exact hsound
  | collect f hkeep => exact h.collect hkeep

theorem sound_of_reachable (h : st.Reachable) : st.Sound := by
  obtain ⟨heap, hrun⟩ := h
  induction hrun with
  | refl => exact start_sound heap
  | tail _ hstep ih => exact ih.step hstep

theorem or_one_ne_zero (x : UInt32) : x ||| 1 ≠ 0 := by
  intro h
  have := congrArg UInt32.toNat h
  rw [UInt32.toNat_or] at this
  have := Nat.or_eq_zero_iff.mp this
  exact absurd this.2 (by decide)

/-- Equal strings have one symbol and different ones different symbols, at every point of every run. -/
theorem symbols_exact {st : Interner} (h : st.Reachable) :
    (∀ r ∈ st.returned, ∀ r' ∈ st.returned, r.2 = r'.2 ↔ r.1 = r'.1) ∧ (∀ s ∈ st.symbols.held, st.heap.hash s ≠ 0) ∧
      (∀ s, s ∈ st.symbols.held ↔ ∃ bytes, (bytes, s) ∈ st.returned) ∧
      (st.symbols.held.map st.heap.bytes).Nodup ∧ st.symbols.count = st.symbols.held.length ∧
      (∀ bytes, ∃ found, st.symbols.probe st.heap (contentHash bytes) bytes = some found ∧
        ∀ s, found = some s ↔ (bytes, s) ∈ st.returned) ∧
      ∀ bytes place, place ∉ st.symbols.held → ∃ r, internCore st.heap st.symbols place bytes = some r := by
  have hs := sound_of_reachable h
  refine ⟨fun r hr r' hr' => ?_, fun s hheld => ?_, fun s => ?_, held_nodup hs.probed, hs.count, fun bytes => ?_,
    fun bytes place hfree => ?_⟩
  · obtain ⟨hm, hb⟩ := (hs.known r.1 r.2).mp hr
    obtain ⟨hm', hb'⟩ := (hs.known r'.1 r'.2).mp hr'
    constructor
    · intro he
      rw [← hb, he, hb']
    · intro he
      exact hs.bytes_injective hm hm' (by rw [hb, he, hb'])
  · rw [hs.hashed s hheld]
    exact or_one_ne_zero _
  · constructor
    · intro hheld
      exact ⟨st.heap.bytes s, (hs.known _ s).mpr ⟨hheld, rfl⟩⟩
    · intro ⟨bytes, hr⟩
      exact ((hs.known bytes s).mp hr).1
  · refine ⟨_, probe_spec hs.probed hs.count hs.room bytes, fun s => ?_⟩
    rw [Table.find?_eq_some_iff hs.probed, hs.known]
    constructor
    · intro ⟨i, _, hslot⟩
      obtain ⟨hi, hb⟩ := slot_eq_some_iff.mp hslot
      exact ⟨mem_held_iff.mpr ⟨i, hi⟩, hb⟩
    · intro ⟨hheld, hb⟩
      obtain ⟨i, hi⟩ := mem_held_iff.mp hheld
      exact ⟨i, (List.getElem?_eq_some_iff.mp hi).1, slot_eq_some_iff.mpr ⟨hi, hb⟩⟩
  · obtain ⟨sym, heap, symbols, hres, -⟩ := hs.intern bytes hfree
    exact ⟨_, hres⟩

theorem exists_place (held : List SymbolOop) : ∃ place, place ∉ held := by
  have : Infinite SymbolOop := Infinite.of_injective SymbolOop.mk fun _ _ h => congrArg SymbolOop.raw h
  obtain ⟨place, hplace⟩ := Infinite.exists_notMem_finset held.toFinset
  exact ⟨place, fun h => hplace (mem_toFinset.mpr h)⟩

theorem exists_run (strings : List (List UInt8)) :
    ∃ st : Interner, st.Reachable ∧ st.returned.map Prod.fst = strings := by
  induction strings using List.reverseRecOn with
  | nil => exact ⟨start ⟨fun _ => [], fun _ => 0⟩, ⟨_, .refl⟩, rfl⟩
  | append_singleton strings bytes ih =>
    obtain ⟨st, hreach, hstrings⟩ := ih
    obtain ⟨place, hfree⟩ := exists_place st.symbols.held
    obtain ⟨sym, heap, symbols, hres, -⟩ := (sound_of_reachable hreach).intern bytes hfree
    obtain ⟨heap₀, hrun⟩ := hreach
    refine ⟨_, ⟨heap₀, hrun.tail (.intern hfree hres)⟩, ?_⟩
    rw [map_append, hstrings]
    rfl

/-- A run that interns one string twice and another between. -/
theorem symbols_exact_twice : ∃ st : Interner, st.returned.map Prod.fst = [[97], [98], [97]] ∧
    ∀ r ∈ st.returned, ∀ r' ∈ st.returned, r.2 = r'.2 ↔ r.1 = r'.1 := by
  obtain ⟨st, hreach, hstrings⟩ := exists_run [[97], [98], [97]]
  exact ⟨st, hstrings, (symbols_exact hreach).1⟩

end WinArmVm.Interner
