import WinArmVm.MethodDict
import Mathlib.Data.List.ReduceOption
import Mathlib.Logic.Relation

namespace WinArmVm

open List LinearProbing

structure SymbolHeap where
  bytes : SymbolOop → List UInt8
  hash : SymbolOop → UInt32

structure SymbolTable where
  buckets : List (Option SymbolOop)
  count : Nat

def SYMBOL_TABLE_CAPACITY : Nat := 1024

namespace SymbolTable

def withCapacity (cap : Nat) : SymbolTable := ⟨List.replicate cap none, 0⟩

def contentHash (bytes : List UInt8) : UInt64 :=
  bytes.foldl (fun h b => (h ^^^ b.toUInt64) * 0x00000100000001B3) 0xcbf29ce484222325

def held (symbols : SymbolTable) : List SymbolOop := symbols.buckets.reduceOption

/-- None where the loop is not through yet, or would read outside the buckets. -/
def probeLoop (heap : SymbolHeap) (symbols : SymbolTable) (bytes : List UInt8) : Nat → Nat → Option (Option SymbolOop)
  | 0, _ => none
  | turns + 1, idx =>
    match symbols.buckets[idx]? with
    | none => none
    | some none => some none
    | some (some sym) =>
      if heap.bytes sym = bytes then some (some sym)
      else probeLoop heap symbols bytes turns ((idx + 1) &&& (symbols.buckets.length - 1))

def probe (heap : SymbolHeap) (symbols : SymbolTable) (hash : UInt64) (bytes : List UInt8) : Option (Option SymbolOop) :=
  probeLoop heap symbols bytes symbols.buckets.length (hash.toNat &&& (symbols.buckets.length - 1))

def insertLoop (symbols : SymbolTable) (sym : SymbolOop) : Nat → Nat → Option SymbolTable
  | 0, _ => none
  | turns + 1, idx =>
    match symbols.buckets[idx]? with
    | none => none
    | some none => some ⟨symbols.buckets.set idx (some sym), symbols.count + 1⟩
    | some (some _) => insertLoop symbols sym turns ((idx + 1) &&& (symbols.buckets.length - 1))

def insert (symbols : SymbolTable) (hash : UInt64) (sym : SymbolOop) : Option SymbolTable :=
  symbols.insertLoop sym (symbols.buckets.length + 1) (hash.toNat &&& (symbols.buckets.length - 1))

def insertEach (heap : SymbolHeap) (symbols : SymbolTable) (syms : List SymbolOop) : Option SymbolTable :=
  syms.foldlM (fun symbols sym => symbols.insert (contentHash (heap.bytes sym)) sym) symbols

def rehash (heap : SymbolHeap) (old : SymbolTable) : Option SymbolTable :=
  (withCapacity (old.buckets.length * 2)).insertEach heap old.held

def updateRoots (symbols : SymbolTable) (f : SymbolOop → SymbolOop) : SymbolTable :=
  { symbols with buckets := symbols.buckets.map (Option.map f) }

end SymbolTable

def SymbolHeap.alloc (heap : SymbolHeap) (place : SymbolOop) (bytes : List UInt8) : SymbolHeap :=
  ⟨Function.update heap.bytes place bytes,
    Function.update heap.hash place ((SymbolTable.contentHash bytes).toUInt32 ||| 1)⟩

/-- `place` is where the allocator puts the symbol if there is none yet. -/
def internCore (heap : SymbolHeap) (symbols : SymbolTable) (place : SymbolOop) (bytes : List UInt8) :
    Option (SymbolOop × SymbolHeap × SymbolTable) := do
  let hash := SymbolTable.contentHash bytes
  match ← symbols.probe heap hash bytes with
  | some found => pure (found, heap, symbols)
  | none =>
    let heap := heap.alloc place bytes
    let symbols ← symbols.insert hash place
    if symbols.buckets.length * 3 ≤ symbols.count * 4 then
      pure (place, heap, ← symbols.rehash heap)
    else pure (place, heap, symbols)

/-- `returned` is each string interned so far with its symbol, which its handle keeps track of. -/
structure Interner where
  heap : SymbolHeap
  symbols : SymbolTable
  returned : List (List UInt8 × SymbolOop)

namespace Interner

inductive Step : Interner → Interner → Prop
  | intern {st : Interner} {bytes : List UInt8} {place sym : SymbolOop} {heap : SymbolHeap} {symbols : SymbolTable} :
      place ∉ st.symbols.held → internCore st.heap st.symbols place bytes = some (sym, heap, symbols) →
      Step st ⟨heap, symbols, st.returned ++ [(bytes, sym)]⟩
  /-- A collection moves the symbols with their contents. -/
  | collect {st : Interner} {heap : SymbolHeap} (f : SymbolOop → SymbolOop) :
      (∀ s ∈ st.symbols.held, heap.bytes (f s) = st.heap.bytes s ∧ heap.hash (f s) = st.heap.hash s) →
      Step st ⟨heap, st.symbols.updateRoots f, st.returned.map fun r => (r.1, f r.2)⟩

def start (heap : SymbolHeap) : Interner := ⟨heap, .withCapacity SYMBOL_TABLE_CAPACITY, []⟩

def Reachable (st : Interner) : Prop := ∃ heap, Relation.ReflTransGen Step (start heap) st

end Interner

namespace SymbolTable

variable {heap : SymbolHeap} {symbols : SymbolTable}

def keyHash (bytes : List UInt8) : Nat := (contentHash bytes).toNat

def entries (heap : SymbolHeap) (symbols : SymbolTable) : Table (List UInt8) SymbolOop :=
  ⟨symbols.buckets.length, fun i => symbols.buckets[i]?.join.map fun s => (heap.bytes s, s)⟩

variable {bytes : List UInt8} {i : Nat} {s : SymbolOop}

theorem mem_held_iff : s ∈ symbols.held ↔ ∃ i : Nat, symbols.buckets[i]? = some (some s) := by
  unfold held
  rw [reduceOption_mem_iff, mem_iff_getElem?]

theorem slot_eq_some_iff :
    (symbols.entries heap).slot i = some (bytes, s) ↔ symbols.buckets[i]? = some (some s) ∧ heap.bytes s = bytes := by
  show (symbols.buckets[i]?.join.map fun s => (heap.bytes s, s)) = some (bytes, s) ↔ _
  rw [Option.map_eq_some_iff]
  constructor
  · intro ⟨s', hs, he⟩
    cases he
    exact ⟨Option.join_eq_some_iff.mp hs, rfl⟩
  · intro ⟨hs, he⟩
    exact ⟨s, Option.join_eq_some_iff.mpr hs, by rw [he]⟩

theorem slot_eq_none_iff (hi : i < symbols.buckets.length) :
    (symbols.entries heap).slot i = none ↔ symbols.buckets[i]? = some none := by
  show (symbols.buckets[i]?.join.map fun s => (heap.bytes s, s)) = none ↔ _
  rw [Option.map_eq_none_iff, getElem?_eq_getElem hi, Option.join_some, Option.some_inj]

theorem entries_congr {heap' : SymbolHeap} (h : ∀ s ∈ symbols.held, heap'.bytes s = heap.bytes s) :
    symbols.entries heap' = symbols.entries heap := by
  unfold entries
  congr 1
  funext i
  cases hb : symbols.buckets[i]?.join with
  | none => rfl
  | some s =>
    have hs := h s (mem_held_iff.mpr ⟨i, Option.join_eq_some_iff.mp hb⟩)
    simp only [Option.map_some, hs]

theorem entries_set (hi : i < symbols.buckets.length) (sym : SymbolOop) (n : Nat) :
    (⟨symbols.buckets.set i (some sym), n⟩ : SymbolTable).entries heap =
      (symbols.entries heap).put i (heap.bytes sym) sym := by
  unfold entries Table.put
  congr 1
  · exact length_set
  · funext j
    by_cases hj : i = j
    · subst hj
      simp [hi]
    · rw [Function.update_of_ne (Ne.symm hj), getElem?_set_ne hj]

theorem mask_lt {n : Nat} (h : 0 < n) (i : Nat) : i &&& (n - 1) < n := by
  have := @Nat.and_le_right i (n - 1)
  omega

theorem insertLoop_entries (sym : SymbolOop) : ∀ {turns i : Nat}, i < symbols.buckets.length →
    (symbols.insertLoop sym turns i).map (entries heap) =
      (symbols.entries heap).insertLoop (heap.bytes sym) sym turns i := by
  intro turns
  induction turns with
  | zero => intro i _; rfl
  | succ turns ih =>
    intro i hi
    unfold insertLoop Table.insertLoop
    cases hb : symbols.buckets[i]? with
    | none =>
      have := getElem?_eq_none_iff.mp hb
      omega
    | some o =>
      cases o with
      | none =>
        rw [(slot_eq_none_iff hi).mpr hb]
        exact congrArg some (entries_set hi sym _)
      | some s =>
        rw [slot_eq_some_iff.mpr ⟨hb, rfl⟩]
        exact ih (mask_lt (Nat.lt_of_le_of_lt (Nat.zero_le i) hi) _)

theorem insert_entries (hpos : 0 < symbols.buckets.length) (sym : SymbolOop) :
    (symbols.insert (contentHash (heap.bytes sym)) sym).map (entries heap) =
      (symbols.entries heap).insertNew keyHash (heap.bytes sym) sym :=
  insertLoop_entries sym (mask_lt hpos _)

theorem insertLoop_count {symbols' : SymbolTable} {sym : SymbolOop} : ∀ {turns i : Nat},
    symbols.insertLoop sym turns i = some symbols' → symbols.count = symbols.held.length →
    symbols'.buckets.length = symbols.buckets.length ∧ symbols'.count = symbols.count + 1 ∧
      symbols'.count = symbols'.held.length ∧ ∀ s, s ∈ symbols'.held ↔ s ∈ symbols.held ∨ s = sym := by
  intro turns
  induction turns with
  | zero => intro i h; cases h
  | succ turns ih =>
    intro i h hcount
    unfold insertLoop at h
    split at h
    next => cases h
    next hb =>
      cases h
      obtain ⟨hi, hget⟩ := List.getElem?_eq_some_iff.mp hb
      refine ⟨length_set, rfl, ?_, fun s => ?_⟩
      · have hlen : (symbols.buckets.set i (some sym)).reduceOption.length = symbols.buckets.reduceOption.length + 1 := by
          rw [reduceOption_length_eq, reduceOption_length_eq, ← countP_eq_length_filter,
            ← countP_eq_length_filter, countP_set hi, hget]
          simp
        show symbols.count + 1 = _
        rw [hcount]
        exact hlen.symm
      · rw [mem_held_iff, mem_held_iff]
        constructor
        · intro ⟨j, hj⟩
          by_cases he : i = j
          · subst he
            rw [List.getElem?_set_self hi] at hj
            cases hj
            exact .inr rfl
          · rw [List.getElem?_set_ne he] at hj
            exact .inl ⟨j, hj⟩
        · intro hs
          rcases hs with ⟨j, hj⟩ | rfl
          · have he : i ≠ j := by
              intro he
              rw [he, hj] at hb
              cases hb
            exact ⟨j, (List.getElem?_set_ne he).trans hj⟩
          · exact ⟨i, List.getElem?_set_self hi⟩
    next => exact ih h hcount

theorem held_nodup (h : (symbols.entries heap).Probed keyHash) : (symbols.held.map heap.bytes).Nodup := by
  unfold held List.reduceOption List.Nodup
  rw [map_filterMap, pairwise_filterMap, pairwise_iff_getElem]
  intro i j hi hj hlt b hb b' hb' he
  obtain ⟨s, hs, rfl⟩ := Option.map_eq_some_iff.mp hb
  obtain ⟨s', hs', rfl⟩ := Option.map_eq_some_iff.mp hb'
  have hold : (symbols.entries heap).Holds (heap.bytes s) i :=
    ⟨s, slot_eq_some_iff.mpr ⟨by rw [getElem?_eq_getElem hi]; exact congrArg some hs, rfl⟩⟩
  have hold' : (symbols.entries heap).Holds (heap.bytes s) j :=
    ⟨s', slot_eq_some_iff.mpr ⟨by rw [getElem?_eq_getElem hj]; exact congrArg some hs', he.symm⟩⟩
  have := h.holds_unique hi hj hold hold'
  omega

theorem room_of_count (hcount : symbols.count = symbols.held.length) (hlt : symbols.count < symbols.buckets.length) :
    ∃ i < (symbols.entries heap).capacity, (symbols.entries heap).slot i = none := by
  rw [hcount] at hlt
  obtain ⟨i, hi, hget⟩ := mem_iff_getElem.mp (reduceOption_length_lt_iff.mp hlt)
  exact ⟨i, hi, (slot_eq_none_iff hi).mpr (by rw [getElem?_eq_getElem hi, hget])⟩

theorem probeLoop_stop (h : (symbols.entries heap).Probed keyHash) {j : Nat}
    (hstop : (symbols.entries heap).slot ((symbols.entries heap).pos keyHash bytes j) = none ∨
      (symbols.entries heap).Holds bytes ((symbols.entries heap).pos keyHash bytes j))
    (past : ∀ j' < j, (symbols.entries heap).HoldsOther bytes ((symbols.entries heap).pos keyHash bytes j')) (more : Nat) :
    ∀ d ≤ j, symbols.probeLoop heap bytes (d + 1 + more) ((symbols.entries heap).pos keyHash bytes (j - d)) =
      some (((symbols.entries heap).slot ((symbols.entries heap).pos keyHash bytes j)).map Prod.snd) := by
  intro d
  induction d with
  | zero =>
    intro _
    rw [Nat.sub_zero, Nat.zero_add, Nat.add_comm]
    unfold probeLoop
    rcases hstop with hn | ⟨s, hs⟩
    · rw [hn, (slot_eq_none_iff (h.pos_lt bytes j)).mp hn]
      rfl
    · obtain ⟨hb, hbytes⟩ := slot_eq_some_iff.mp hs
      rw [hs, hb]
      exact if_pos hbytes
  | succ d ih =>
    intro hd
    obtain ⟨k, s, hs, hne⟩ := past (j - (d + 1)) (by omega)
    obtain ⟨hb, hbytes⟩ := slot_eq_some_iff.mp hs
    rw [show d + 1 + 1 + more = (d + 1 + more) + 1 by omega]
    unfold probeLoop
    rw [hb]
    dsimp only
    rw [if_neg fun he => hne (hbytes.symm.trans he)]
    have hnext := h.next_pos bytes (j - (d + 1))
    rw [show j - (d + 1) + 1 = j - d by omega] at hnext
    rw [← ih (by omega), ← hnext]
    rfl

theorem probe_spec (h : (symbols.entries heap).Probed keyHash) (hcount : symbols.count = symbols.held.length)
    (hlt : symbols.count < symbols.buckets.length) (bytes : List UInt8) :
    symbols.probe heap (contentHash bytes) bytes = some ((symbols.entries heap).find? keyHash bytes) := by
  obtain ⟨j, hj, hstop, past⟩ := h.stop (room_of_count hcount hlt) bytes
  have hcap : j < symbols.buckets.length := hj
  have hloop := probeLoop_stop h hstop past (symbols.buckets.length - (j + 1)) j (Nat.le_refl j)
  have hstart : (contentHash bytes).toNat &&& (symbols.buckets.length - 1) = (symbols.entries heap).pos keyHash bytes 0 :=
    (h.and_mask _).trans (by rw [Table.pos, Nat.add_zero]; rfl)
  rw [Nat.sub_self, show j + 1 + (symbols.buckets.length - (j + 1)) = symbols.buckets.length by omega] at hloop
  rw [h.find?_stop hstop past, ← hloop, probe, hstart]

theorem insert_spec (h : (symbols.entries heap).Probed keyHash) (hcount : symbols.count = symbols.held.length)
    (hlt : symbols.count < symbols.buckets.length) {sym : SymbolOop}
    (absent : ∀ s ∈ symbols.held, heap.bytes s ≠ heap.bytes sym) :
    ∃ symbols', symbols.insert (contentHash (heap.bytes sym)) sym = some symbols' ∧
      (symbols'.entries heap).Probed keyHash ∧ symbols'.buckets.length = symbols.buckets.length ∧
      symbols'.count = symbols.count + 1 ∧ symbols'.count = symbols'.held.length ∧
      ∀ s, s ∈ symbols'.held ↔ s ∈ symbols.held ∨ s = sym := by
  have hno : ∀ i < (symbols.entries heap).capacity, ¬ (symbols.entries heap).Holds (heap.bytes sym) i := by
    intro i _ ⟨s, hs⟩
    obtain ⟨hb, hbytes⟩ := slot_eq_some_iff.mp hs
    exact absent s (mem_held_iff.mpr ⟨i, hb⟩) hbytes
  obtain ⟨i, hi, -, hput, hprobed⟩ := Table.insertNew_spec h hno (room_of_count hcount hlt) sym
  have hins := @insert_entries heap symbols h.capacity_pos sym
  rw [hput] at hins
  obtain ⟨symbols', hs, he⟩ := Option.map_eq_some_iff.mp hins
  obtain ⟨hlen, hc, hheld, hmem⟩ := insertLoop_count hs hcount
  exact ⟨symbols', hs, by rwa [he], hlen, hc, hheld, hmem⟩

theorem insertEach_spec : ∀ (syms : List SymbolOop) {symbols : SymbolTable}, (symbols.entries heap).Probed keyHash →
    symbols.count = symbols.held.length → symbols.count + syms.length ≤ symbols.buckets.length →
    (syms.map heap.bytes).Nodup → (∀ s ∈ symbols.held, ∀ s' ∈ syms, heap.bytes s ≠ heap.bytes s') →
    ∃ symbols', symbols.insertEach heap syms = some symbols' ∧ (symbols'.entries heap).Probed keyHash ∧
      symbols'.buckets.length = symbols.buckets.length ∧ symbols'.count = symbols.count + syms.length ∧
      symbols'.count = symbols'.held.length ∧ ∀ s, s ∈ symbols'.held ↔ s ∈ symbols.held ∨ s ∈ syms := by
  intro syms
  induction syms with
  | nil =>
    intro symbols h hcount _ _ _
    exact ⟨symbols, rfl, h, rfl, rfl, hcount, fun s => by simp⟩
  | cons sym syms ih =>
    intro symbols h hcount hroom hnodup hdisjoint
    rw [length_cons] at hroom
    obtain ⟨hnotin, hnodup'⟩ := nodup_cons.mp hnodup
    obtain ⟨t, hins, ht, htlen, htcount, htheld, htmem⟩ :=
      insert_spec h hcount (by omega) fun s hs => hdisjoint s hs sym mem_cons_self
    obtain ⟨t', hins', ht', hlen', hcount', hheld', hmem'⟩ := ih ht htheld (by omega) hnodup' (by
      intro s hs s' hs' he
      rcases (htmem s).mp hs with hs | rfl
      · exact hdisjoint s hs s' (mem_cons_of_mem _ hs') he
      · exact hnotin (he ▸ mem_map_of_mem hs'))
    refine ⟨t', ?_, ht', hlen'.trans htlen, by rw [length_cons]; omega, hheld', fun s => ?_⟩
    · unfold insertEach at hins' ⊢
      rw [foldlM_cons, hins]
      exact hins'
    · rw [hmem', htmem, mem_cons, or_assoc]

theorem rehash_spec (h : (symbols.entries heap).Probed keyHash) (hcount : symbols.count = symbols.held.length)
    (hle : symbols.count ≤ symbols.buckets.length) :
    ∃ symbols', symbols.rehash heap = some symbols' ∧ (symbols'.entries heap).Probed keyHash ∧
      symbols'.buckets.length = symbols.buckets.length * 2 ∧ symbols'.count = symbols.count ∧
      symbols'.count = symbols'.held.length ∧ ∀ s, s ∈ symbols'.held ↔ s ∈ symbols.held := by
  obtain ⟨p, hp⟩ := h.power
  have hempty : (withCapacity (symbols.buckets.length * 2)).held = [] := by
    unfold held withCapacity
    exact reduceOption_replicate_none
  have hfresh : ((withCapacity (symbols.buckets.length * 2)).entries heap).Probed keyHash := by
    refine ⟨⟨p + 1, ?_⟩, fun i k _ ⟨s, hs⟩ => ?_⟩
    · show (List.replicate (symbols.buckets.length * 2) none).length = _
      rw [length_replicate, Nat.pow_succ]
      exact congrArg (· * 2) hp
    · have hmem := mem_held_iff.mpr ⟨i, (slot_eq_some_iff.mp hs).1⟩
      rw [hempty] at hmem
      cases hmem
  have hlen : (withCapacity (symbols.buckets.length * 2)).buckets.length = symbols.buckets.length * 2 :=
    length_replicate
  obtain ⟨t, ht, hprobed, htlen, htcount, htheld, hmem⟩ := insertEach_spec symbols.held hfresh (by rw [hempty]; rfl)
    (by
      rw [hlen, ← hcount]
      show 0 + symbols.count ≤ _
      omega)
    (held_nodup h) (by
      rw [hempty]
      intro s hs
      cases hs)
  refine ⟨t, ht, hprobed, htlen.trans hlen, ?_, htheld, fun s => ?_⟩
  · rw [htcount, hcount]
    exact Nat.zero_add _
  · rw [hmem, hempty]
    simp

end SymbolTable

end WinArmVm
