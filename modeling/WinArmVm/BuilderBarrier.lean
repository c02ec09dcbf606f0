import WinArmVm.MopForgery
import WinArmVm.RememberedSet

namespace WinArmVm

open List RememberedSet Option

namespace Mop

def HEADER_WORDS : Nat := 2

def WORD_SIZE : Nat := 8

def CARD_SIZE : Nat := 512

def Oop.memAddr : Oop → Option Nat
  | .mem a => some a
  | _ => none

def slotRefs (word : Nat) (slots : List Oop) : List (Nat × Nat) :=
  slots.zipIdx.filterMap fun p => p.1.memAddr.map fun b => (WORD_SIZE * (word + p.2), b)

namespace Object

def refs (m : Object) : List (Nat × Nat) :=
  slotRefs HEADER_WORDS m.body.named ++ slotRefs (HEADER_WORDS + m.body.named.length + 1) m.body.elements

def instanceSize (m : Object) : Nat :=
  match m.body with
  | .slots named => WORD_SIZE * (HEADER_WORDS + named.length)
  | .oops named elements => WORD_SIZE * (HEADER_WORDS + named.length + 1 + elements.length)
  | .bytes named tail => WORD_SIZE * (HEADER_WORDS + named.length + 1 + (tail.length + 7) / 8)
  | .double _ => WORD_SIZE * (HEADER_WORDS + 1)
  | .internal => WORD_SIZE * HEADER_WORDS

end Object

def Store.adds : Store → Object → Option (Nat × Nat)
  | .bodyOop i v, m =>
    if i < m.body.named.length then v.memAddr.map fun b => (WORD_SIZE * (HEADER_WORDS + i), b) else none
  | .tailOop i v, m =>
    if i < m.body.elements.length then
      v.memAddr.map fun b => (WORD_SIZE * (HEADER_WORDS + m.body.named.length + 1 + i), b)
    else none
  | .bytes _, _ => none

variable {slots : List Oop} {r : Nat × Nat}

theorem mem_slotRefs {word : Nat} :
    r ∈ slotRefs word slots ↔ ∃ i, slots[i]? = some (.mem r.2) ∧ r.1 = WORD_SIZE * (word + i) := by
  unfold slotRefs
  rw [mem_filterMap]
  constructor
  · rintro ⟨⟨o, i⟩, hmem, hr⟩
    obtain ⟨b, hb, rfl⟩ := map_eq_some_iff.mp hr
    have ho : o = .mem b := by
      cases o <;> cases hb
      rfl
    exact ⟨i, by rw [← ho]; exact mk_mem_zipIdx_iff_getElem?.mp hmem, rfl⟩
  · rintro ⟨i, hi, hr⟩
    refine ⟨(.mem r.2, i), mk_mem_zipIdx_iff_getElem?.mpr hi, ?_⟩
    show some (WORD_SIZE * (word + i), r.2) = some r
    rw [← hr]

theorem mem_slotRefs_set {word i : Nat} {v : Oop} (h : r ∈ slotRefs word (slots.set i v)) : r ∈ slotRefs word slots ∨
      i < slots.length ∧ v.memAddr.map (fun b => (WORD_SIZE * (word + i), b)) = some r := by
  obtain ⟨j, hj, hr⟩ := mem_slotRefs.mp h
  rw [getElem?_set] at hj
  split at hj
  next heq =>
    subst heq
    split at hj
    next hlt =>
      right
      refine ⟨hlt, ?_⟩
      rw [Option.some.inj hj, ← hr]
      rfl
    next => cases hj
  next => exact .inl (mem_slotRefs.mpr ⟨j, hj, hr⟩)

theorem slotRefs_set_self {word i : Nat} {v : Oop} (hi : i < slots.length)
    (h : v.memAddr.map (fun b => (WORD_SIZE * (word + i), b)) = some r) : r ∈ slotRefs word (slots.set i v) := by
  obtain ⟨b, hb, rfl⟩ := map_eq_some_iff.mp h
  refine mem_slotRefs.mpr ⟨i, ?_, rfl⟩
  rw [getElem?_set_self hi]
  cases v <;> cases hb
  rfl

def layout : Layout Object Store where
  refs := Object.refs
  bytes := Object.instanceSize
  apply := Store.apply
  adds := Store.adds
  inside {m r} h := by
    obtain ⟨k, body⟩ := m
    rcases List.mem_append.mp h with h | h
    · obtain ⟨i, hi, hr⟩ := mem_slotRefs.mp h
      have hlt := (List.getElem?_eq_some_iff.mp hi).1
      cases body <;> simp only [Body.named, List.length_nil] at hlt <;> simp only [Object.instanceSize, WORD_SIZE, HEADER_WORDS] at hr ⊢ <;> omega
    · obtain ⟨i, hi, hr⟩ := mem_slotRefs.mp h
      have hlt := (List.getElem?_eq_some_iff.mp hi).1
      cases body <;> simp only [Body.elements, List.length_nil] at hlt <;> simp only [Object.instanceSize, Body.named, WORD_SIZE, HEADER_WORDS] at hr ⊢ <;> omega
  applied {s m r} h := by
    cases s with
    | bodyOop i v =>
      rw [show Store.apply (.bodyOop i v) m = m.setBodyOop i v from rfl, Object.refs, Object.named_setBodyOop,
        Object.elements_setBodyOop, List.length_set] at h
      rcases List.mem_append.mp h with h | h
      · rcases mem_slotRefs_set h with hold | ⟨hlt, hnew⟩
        · exact Or.inl (List.mem_append_left _ hold)
        · exact Or.inr ((if_pos hlt).trans hnew)
      · exact Or.inl (List.mem_append_right _ h)
    | tailOop i v =>
      rw [show Store.apply (.tailOop i v) m = m.atPut i v from rfl, Object.refs, Object.named_atPut,
        Object.elements_atPut] at h
      rcases List.mem_append.mp h with h | h
      · exact Or.inl (List.mem_append_left _ h)
      · rcases mem_slotRefs_set h with hold | ⟨hlt, hnew⟩
        · exact Or.inl (List.mem_append_right _ hold)
        · exact Or.inr ((if_pos hlt).trans hnew)
    | bytes bs =>
      rw [show Store.apply (.bytes bs) m = m.bytesPut bs from rfl, Object.refs, Object.named_bytesPut,
        Object.elements_bytesPut] at h
      exact Or.inl h
  added {s m r} h := by
    cases s with
    | bodyOop i v =>
      rw [show Store.apply (.bodyOop i v) m = m.setBodyOop i v from rfl, Object.refs, Object.named_setBodyOop]
      simp only [Store.adds] at h
      split at h
      next hlt => exact List.mem_append_left _ (slotRefs_set_self hlt h)
      next => cases h
    | tailOop i v =>
      rw [show Store.apply (.tailOop i v) m = m.atPut i v from rfl, Object.refs, Object.named_atPut,
        Object.elements_atPut]
      simp only [Store.adds] at h
      split at h
      next hlt => exact List.mem_append_right _ (slotRefs_set_self hlt h)
      next => cases h
    | bytes bs => cases h

/-- A rebuilding run with what it does to the heap, which an error does not undo. -/
structure Recorder where
  state : UnpickleState
  ops : List (Op Object Store)

abbrev Record (α : Type) := ExceptT UnpickleErr (StateM Recorder) α

namespace Record

def read {α : Type} (x : Unpickle α) : Record α := fun r =>
  match x r.state with
  | .ok (a, s) => (.ok a, { r with state := s })
  | .error e => (.error e, r)

def log (op : Op Object Store) : Record Unit := fun r => (.ok (), { r with ops := r.ops ++ [op] })

def alloc (m : Object) : Record Nat := do
  log (.alloc m)
  read (Unpickle.alloc m)

def intern (bytes : List UInt8) : Record Nat := do
  let s ← read get
  match s.vm.symbols.lookup bytes with
  | some _ => read (Unpickle.intern bytes)
  | none => do
    log (.bump ⟨s.vm.univ.symbolKlass, .bytes [] bytes⟩)
    read (Unpickle.intern bytes)

def store (a : Nat) (st : Store) : Record Unit := do
  log (.store a st)
  read (update a st.apply)

end Record

instance : Builds Record where
  read := Record.read
  alloc := Record.alloc
  intern := Record.intern
  store := Record.store

end Mop

namespace Codegen

open Mop Builds

/-- Strings are their bytes, a character its code. -/
inductive Literal
  | int (v : SmallInt)
  | bigInt (negative : Bool) (digits : List UInt8)
  | float (bits : BitVec 64)
  | char (c : Char)
  | str (s : List UInt8)
  | symbol (s : List UInt8)
  | array (items : List Literal)
  | byteArray (bytes : List UInt8)
  | nil
  | true
  | false

structure LitCache where
  doubles : List (BitVec 64 × Nat)
  strings : List (List UInt8 × Nat)
  chars : List (Char × Nat)
  bigints : List ((Bool × List UInt8) × Nat)

def charCode (c : Char) : SmallInt where
  value := c.toNat
  inRange := by
    have h := c.valid
    unfold SmallInteger.minVal SmallInteger.maxVal
    have hlt : c.toNat < 0x110000 := by
      rcases h with h | h
      · exact Nat.lt_trans h (by decide)
      · exact h.2
    omega

variable {m : Type → Type} [Monad m] [Builds m]

def allocBytes (klass : Nat) (bytes : List UInt8) : m Nat := do
  let b ← allocIndexableBytes klass bytes.length
  store b (.bytes bytes)
  return b

mutual

def buildLiteralValue (cache : LitCache) : Literal → m (Oop × LitCache)
  | .int v => return (.smi v, cache)
  | .bigInt negative digits =>
    match cache.bigints.lookup (negative, digits) with
    | some h => return (.mem h, cache)
    | none => do
      let s ← read get
      let b ← allocBytes (if negative then s.vm.univ.largeNegIntKlass else s.vm.univ.largePosIntKlass) digits
      return (.mem b, { cache with bigints := ((negative, digits), b) :: cache.bigints })
  | .float bits =>
    match cache.doubles.lookup bits with
    | some h => return (.mem h, cache)
    | none => do
      let s ← read get
      let d ← alloc ⟨s.vm.univ.doubleKlass, .double bits⟩
      return (.mem d, { cache with doubles := (bits, d) :: cache.doubles })
  | .char c =>
    match cache.chars.lookup c with
    | some h => return (.mem h, cache)
    | none => do
      let s ← read get
      let obj ← allocSlots s.vm.univ.characterKlass
      store obj (.bodyOop 0 (.smi (charCode c)))
      return (.mem obj, { cache with chars := (c, obj) :: cache.chars })
  | .str str =>
    match cache.strings.lookup str with
    | some h => return (.mem h, cache)
    | none => do
      let s ← read get
      let b ← allocBytes s.vm.univ.stringKlass str
      return (.mem b, { cache with strings := (str, b) :: cache.strings })
  | .symbol str => do
    let sym ← Builds.intern str
    return (.mem sym, cache)
  | .array items => do
    let s ← read get
    let arr ← allocIndexableOops s.vm.univ.arrayKlass items.length
    let cache ← buildItems cache arr 0 items
    return (.mem arr, cache)
  | .byteArray bytes => do
    let s ← read get
    let b ← allocBytes s.vm.univ.bytearrayKlass bytes
    return (.mem b, cache)
  | .nil => return (.nilObj, cache)
  | .true => return (.trueObj, cache)
  | .false => return (.falseObj, cache)

/-- The loop over the items of an array from index `i` on. -/
def buildItems (cache : LitCache) (arr i : Nat) : List Literal → m LitCache
  | [] => return cache
  | it :: items => do
    let (v, cache) ← buildLiteralValue cache it
    store arr (.tailOop i v)
    buildItems cache arr (i + 1) items

end

end Codegen

namespace Mop

def Blank (ops : List (Op Object Store)) : Prop := ∀ m, .alloc m ∈ ops ∨ .bump m ∈ ops → layout.refs m = []

def KeepsBlank {α : Type} (x : Record α) : Prop := ∀ r : Recorder, Blank r.ops → Blank (x r).2.ops

theorem Blank.snoc {ops : List (Op Object Store)} (h : Blank ops) {op : Op Object Store}
    (hop : ∀ m, op = .alloc m ∨ op = .bump m → layout.refs m = []) : Blank (ops ++ [op]) := by
  intro m hm
  rw [mem_append, mem_append, mem_singleton, mem_singleton] at hm
  rcases hm with (hm | hm) | (hm | hm)
  · exact h m (.inl hm)
  · exact hop m (.inl hm.symm)
  · exact h m (.inr hm)
  · exact hop m (.inr hm.symm)

namespace KeepsBlank

variable {α β : Type}

theorem pure (a : α) : KeepsBlank (pure a : Record α) := fun _ h => h

theorem bind {x : Record α} {f : α → Record β} (hx : KeepsBlank x) (hf : ∀ a, KeepsBlank (f a)) :
    KeepsBlank (x >>= f) := by
  intro r h
  have hr := hx r h
  have hrun : (x >>= f) r = ExceptT.bindCont f (x r).1 (x r).2 := rfl
  rw [hrun]
  cases (x r).1 with
  | ok a => exact hf a _ hr
  | error e => exact hr

theorem read (x : Unpickle α) : KeepsBlank (Builds.read x : Record α) := by
  intro r h
  show Blank (Record.read x r).2.ops
  unfold Record.read
  split
  next => exact h
  next => exact h

theorem log {op : Op Object Store} (hop : ∀ m, op = .alloc m ∨ op = .bump m → layout.refs m = []) :
    KeepsBlank (Record.log op) := fun _ h => h.snoc hop

theorem alloc {m : Object} (hm : layout.refs m = []) : KeepsBlank (Builds.alloc m : Record Nat) := by
  apply bind (log fun m' hm' => ?_) fun _ => read _
  rcases hm' with hm' | hm'
  · cases hm'
    exact hm
  · cases hm'

theorem store (a : Nat) (st : Store) : KeepsBlank (Builds.store a st : Record Unit) := by
  apply bind (log fun m' hm' => ?_) fun _ => read _
  rcases hm' with hm' | hm' <;> cases hm'

theorem intern (bytes : List UInt8) : KeepsBlank (Builds.intern bytes : Record Nat) := by
  show KeepsBlank (Record.intern bytes)
  unfold Record.intern
  apply bind (read get)
  intro s
  split
  next => exact read _
  next =>
    apply bind (log fun m' hm' => ?_) fun _ => read _
    rcases hm' with hm' | hm'
    · cases hm'
    · cases hm'
      rfl

theorem slotRefs_replicate (word n : Nat) : slotRefs word (List.replicate n .nilObj) = [] := by
  apply eq_nil_iff_forall_not_mem.mpr
  intro r hr
  obtain ⟨i, hi, -⟩ := mem_slotRefs.mp hr
  cases eq_of_mem_replicate (mem_of_getElem? hi)

theorem allocSlots (k : Nat) : KeepsBlank (allocSlots k : Record Nat) := by
  apply bind (read get)
  intro s
  apply alloc
  show slotRefs _ (List.replicate _ _) ++ slotRefs _ [] = []
  rw [slotRefs_replicate]
  rfl

theorem allocIndexableOops (k n : Nat) : KeepsBlank (allocIndexableOops k n : Record Nat) := by
  apply bind (read get)
  intro s
  apply alloc
  show slotRefs _ (List.replicate _ _) ++ slotRefs _ (List.replicate _ _) = []
  rw [slotRefs_replicate, slotRefs_replicate]
  rfl

theorem allocIndexableBytes (k n : Nat) : KeepsBlank (allocIndexableBytes k n : Record Nat) := by
  apply bind (read get)
  intro s
  apply alloc
  show slotRefs _ (List.replicate _ _) ++ slotRefs _ [] = []
  rw [slotRefs_replicate]
  rfl

theorem upBytes (klass n : Nat) (bytes : List UInt8) : KeepsBlank (upBytes klass n bytes : Record Oop) :=
  bind (allocIndexableBytes klass n) fun _ => bind (store _ _) fun _ => bind (read _) fun _ => pure _

variable {child : Record Oop}

theorem fill (hchild : KeepsBlank child) (put : Nat → Oop → Store) (a : Nat) :
    ∀ k i, KeepsBlank (fill child put a i k) := by
  intro k
  induction k with
  | zero => intro i; exact pure _
  | succ k ih => intro i; exact bind hchild fun c => bind (store _ _) fun _ => ih _

theorem resolveKlass (name : List UInt8) (nslots : Nat) (subkind : Subkind) (idxN : Nat) :
    KeepsBlank (resolveKlass name nslots subkind idxN : Record Nat) := by
  apply bind (KeepsBlank.intern name)
  intro _
  apply bind (read get)
  intro s
  split
  next => exact read _
  next => exact read _
  next =>
    split
    next => exact read _
    next =>
      split
      next => exact read _
      next =>
        split
        next => exact read _
        next => exact pure _

theorem subkindAlloc (kls idxN : Nat) : ∀ subkind : Subkind, KeepsBlank (subkind.alloc kls idxN : Record Nat)
  | .slots => allocSlots kls
  | .oops => allocIndexableOops kls idxN
  | .bytes => allocIndexableBytes kls idxN

theorem fillTail (hchild : KeepsBlank child) (obj idxN : Nat) :
    ∀ subkind : Subkind, KeepsBlank (subkind.fillTail child obj idxN)
  | .slots => pure _
  | .oops => fill hchild _ _ _ _
  | .bytes => bind (read _) fun _ => store _ _

theorem upObject (hchild : KeepsBlank child) : KeepsBlank (upObject child) := by
  apply bind (read _)
  intro nameLen
  apply bind (read _)
  intro name
  apply bind (read _)
  intro nslots
  apply bind (read _)
  intro sub
  split
  next => exact read _
  next subkind _ =>
    apply bind (read _)
    intro idxN
    apply bind (resolveKlass name nslots subkind idxN)
    intro kls
    apply bind (subkindAlloc kls idxN subkind)
    intro obj
    exact bind (read _) fun _ => bind (fill hchild _ _ _ _) fun _ => bind (fillTail hchild _ _ _) fun _ => pure _

theorem upTagged (hchild : KeepsBlank child) (tag : Tag) : KeepsBlank (upTagged child tag) := by
  cases tag with
  | nil => exact pure _
  | false => exact pure _
  | true => exact pure _
  | smi =>
    apply bind (read _)
    intro u
    split
    next => exact pure _
    next => exact read _
  | double => exact bind (read _) fun _ => bind (read _) fun _ => bind (alloc rfl) fun _ => pure _
  | char =>
    apply bind (read _)
    intro code
    split
    next => exact bind (read _) fun _ => bind (allocSlots _) fun _ => bind (store _ _) fun _ => pure _
    next => exact read _
  | symbol => exact bind (read _) fun _ => bind (read _) fun _ => bind (KeepsBlank.intern _) fun _ => bind (read _) fun _ => pure _
  | string => exact bind (read _) fun _ => bind (read _) fun _ => bind (read _) fun _ => upBytes _ _ _
  | byteArray => exact bind (read _) fun _ => bind (read _) fun _ => bind (read _) fun _ => upBytes _ _ _
  | floatArray => exact bind (read _) fun _ => bind (read _) fun _ => bind (read _) fun _ => upBytes _ _ _
  | array =>
    exact bind (read _) fun _ => bind (read _) fun _ => bind (allocIndexableOops _ _) fun _ => bind (read _) fun _ =>
      bind (fill hchild _ _ _ _) fun _ => pure _
  | object => exact upObject hchild
  | backref =>
    apply bind (read _)
    intro idx
    apply bind (read get)
    intro s
    split
    next => exact read _
    next => exact pure _
  | largeInt =>
    apply bind (read _)
    intro neg
    split
    next => exact read _
    next => exact bind (read _) fun _ => bind (read _) fun _ => bind (read _) fun _ => upBytes _ _ _

theorem up : ∀ room, KeepsBlank (up room : Record Oop) := by
  intro room
  induction room with
  | zero => exact read _
  | succ room ih =>
    apply bind (read get)
    intro s
    split
    next => exact read _
    next =>
      apply bind (read _)
      intro tag
      split
      next => exact read _
      next tag _ => exact upTagged ih tag

end KeepsBlank

end Mop

namespace Codegen

open Mop

theorem allocBytes_blank (klass : Nat) (bytes : List UInt8) : KeepsBlank (allocBytes klass bytes : Record Nat) :=
  .bind (.allocIndexableBytes _ _) fun _ => .bind (.store _ _) fun _ => .pure _

mutual

theorem buildLiteralValue_blank : ∀ (lit : Literal) (cache : LitCache),
    KeepsBlank (buildLiteralValue cache lit : Record (Oop × LitCache))
  | .int _, _ => .pure _
  | .bigInt negative digits, cache => by
    unfold buildLiteralValue
    split
    next => exact .pure _
    next => exact .bind (.read _) fun _ => .bind (allocBytes_blank _ _) fun _ => .pure _
  | .float bits, cache => by
    unfold buildLiteralValue
    split
    next => exact .pure _
    next => exact .bind (.read _) fun _ => .bind (.alloc rfl) fun _ => .pure _
  | .char c, cache => by
    unfold buildLiteralValue
    split
    next => exact .pure _
    next => exact .bind (.read _) fun _ => .bind (.allocSlots _) fun _ => .bind (.store _ _) fun _ => .pure _
  | .str str, cache => by
    unfold buildLiteralValue
    split
    next => exact .pure _
    next => exact .bind (.read _) fun _ => .bind (allocBytes_blank _ _) fun _ => .pure _
  | .symbol str, _ => .bind (.intern _) fun _ => .pure _
  | .array items, cache => by
    unfold buildLiteralValue
    exact .bind (.read _) fun _ => .bind (.allocIndexableOops _ _) fun _ => .bind (buildItems_blank items _ _ _) fun _ => .pure _
  | .byteArray bytes, _ => .bind (.read _) fun _ => .bind (allocBytes_blank _ _) fun _ => .pure _
  | .nil, _ => .pure _
  | .true, _ => .pure _
  | .false, _ => .pure _

theorem buildItems_blank : ∀ (items : List Literal) (cache : LitCache) (arr i : Nat),
    KeepsBlank (buildItems cache arr i items : Record LitCache)
  | [], _, _, _ => .pure _
  | it :: items, cache, _, _ =>
    .bind (buildLiteralValue_blank it cache) fun _ => .bind (.store _ _) fun _ => buildItems_blank items _ _ _

end

end Codegen

def smallInt (n : Fin 100) : Mop.SmallInt := ⟨n.val, by unfold SmallInteger.minVal SmallInteger.maxVal; omega⟩

end WinArmVm
