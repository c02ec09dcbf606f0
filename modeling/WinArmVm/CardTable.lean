import Mathlib.Algebra.Group.Nat.Defs

namespace WinArmVm.HeapGeometry

/-- `kb << 10` of a `usize`; the bits shifted out are lost. -/
def fromKib (kb : Nat) : Nat := (kb <<< 10) % 2 ^ 64

def DEFAULT_EDEN_SIZE : Nat := 32 <<< 20

def defaultEdenFor (totalLen : Nat) : Nat := min DEFAULT_EDEN_SIZE (totalLen / 4)

def edenSizeFor (edenKb : Option Nat) (heapMib : Nat) : Nat :=
  (edenKb.map fromKib).getD (defaultEdenFor (heapMib <<< 20))

def SURVIVOR_SIZE : Nat := 512 <<< 10

def survivorSizeFor (ov : Option Nat) (edenSize : Nat) : Nat :=
  match ov with
  | some kb => fromKib kb
  | none => max SURVIVOR_SIZE (edenSize / 4)

structure SpaceBounds where
  start : Nat
  stop : Nat
deriving DecidableEq, Repr

def SpaceBounds.contains (b : SpaceBounds) (addr : Nat) : Bool := b.start ≤ addr && addr < b.stop

def SpaceBounds.len (b : SpaceBounds) : Nat := b.stop - b.start

structure HeapLayout where
  eden : SpaceBounds
  fromSpace : SpaceBounds
  toSpace : SpaceBounds
  old : SpaceBounds
  oldStart : Nat
deriving DecidableEq, Repr

def HeapLayout.new (ov : Option Nat) (base totalLen edenSize : Nat) : Option HeapLayout :=
  let eden : SpaceBounds := ⟨base, base + edenSize⟩
  let survivor := survivorSizeFor ov edenSize
  let fromSpace : SpaceBounds := ⟨eden.stop, eden.stop + survivor⟩
  let toSpace : SpaceBounds := ⟨fromSpace.stop, fromSpace.stop + survivor⟩
  let oldStart := toSpace.stop
  let reservationEnd := base + totalLen
  if oldStart ≤ reservationEnd ∧ reservationEnd < 2 ^ 64 then
    some ⟨eden, fromSpace, toSpace, ⟨oldStart, reservationEnd⟩, oldStart⟩
  else none

def CARD_SHIFT : Nat := 9

def CARD_SIZE : Nat := 1 <<< CARD_SHIFT

structure CardTable where
  backing : UInt64
  oldStart : Nat
  nCards : Nat

namespace CardTable

def new (backing : UInt64) (oldReserved : SpaceBounds) : CardTable where
  backing := backing
  oldStart := oldReserved.start
  nCards := max ((oldReserved.len + (CARD_SIZE - 1)) / CARD_SIZE) 1

def entry (t : CardTable) (i : Nat) : UInt64 := t.backing + UInt64.ofNat i

def cardIndex (t : CardTable) (slotAddr : Nat) : Nat := (slotAddr - t.oldStart) >>> CARD_SHIFT

def baseBiased (t : CardTable) : UInt64 := t.backing - UInt64.ofNat (t.oldStart >>> CARD_SHIFT)

end CardTable

theorem fromKib_aligned (kb : Nat) : fromKib kb % 1024 = 0 := by
  unfold fromKib
  rw [Nat.shiftLeft_eq]
  omega

theorem edenSizeFor_aligned (edenKb : Option Nat) (heapMib : Nat) : edenSizeFor edenKb heapMib % 1024 = 0 := by
  cases edenKb with
  | some kb => exact fromKib_aligned kb
  | none =>
    show min DEFAULT_EDEN_SIZE (heapMib <<< 20 / 4) % 1024 = 0
    unfold DEFAULT_EDEN_SIZE
    rw [Nat.shiftLeft_eq, Nat.shiftLeft_eq]
    omega

theorem survivors_aligned (ov : Option Nat) {edenSize : Nat} (h : edenSize % 1024 = 0) :
    2 * survivorSizeFor ov edenSize % CARD_SIZE = 0 := by
  unfold survivorSizeFor
  have hcard : CARD_SIZE = 512 := rfl
  have hsize : SURVIVOR_SIZE = 524288 := rfl
  rw [hcard]
  split
  next kb =>
    have hkib := fromKib_aligned kb
    omega
  next => omega

namespace HeapLayout

variable {ov : Option Nat} {base totalLen edenSize : Nat} {l : HeapLayout}

theorem new_old (h : HeapLayout.new ov base totalLen edenSize = some l) :
    l.oldStart = base + edenSize + 2 * survivorSizeFor ov edenSize ∧
      l.old = ⟨l.oldStart, base + totalLen⟩ := by
  simp only [HeapLayout.new, Option.ite_none_right_eq_some, Option.some.injEq] at h
  obtain ⟨-, rfl⟩ := h
  refine ⟨?_, rfl⟩
  show base + edenSize + survivorSizeFor ov edenSize + survivorSizeFor ov edenSize = _
  omega

theorem old_aligned (hbase : base % 4096 = 0) (heden : edenSize % 1024 = 0)
    (h : HeapLayout.new ov base totalLen edenSize = some l) : l.oldStart % CARD_SIZE = 0 := by
  have hcard : CARD_SIZE = 512 := rfl
  have hsurvivors := survivors_aligned ov heden
  rw [(new_old h).1]
  rw [hcard] at hsurvivors ⊢
  omega

end HeapLayout

namespace CardTable

theorem biased_entry {t : CardTable} (hstart : t.oldStart % CARD_SIZE = 0) {a : Nat} (ha : t.oldStart ≤ a) :
    t.baseBiased + UInt64.ofNat (a >>> CARD_SHIFT) = t.entry (t.cardIndex a) := by
  have hsum : a >>> CARD_SHIFT = t.oldStart >>> CARD_SHIFT + t.cardIndex a := by
    have hcard : CARD_SIZE = 512 := rfl
    rw [hcard] at hstart
    simp only [cardIndex, CARD_SHIFT, Nat.shiftRight_eq_div_pow]
    omega
  rw [hsum, UInt64.ofNat_add, ← UInt64.add_assoc]
  unfold baseBiased entry
  rw [UInt64.sub_add_cancel]

theorem cardIndex_lt {backing : UInt64} {old : SpaceBounds} {a : Nat} (ha : old.contains a) :
    (CardTable.new backing old).cardIndex a < (CardTable.new backing old).nCards := by
  simp only [SpaceBounds.contains, Bool.and_eq_true, decide_eq_true_eq] at ha
  have hcard : CARD_SIZE = 512 := rfl
  simp only [cardIndex, CardTable.new, SpaceBounds.len, CARD_SHIFT, Nat.shiftRight_eq_div_pow]
  rw [hcard]
  omega

end CardTable

/-- The biased base reaches the byte of every old slot's card, in every heap that is laid out. -/
theorem HeapLayout.baseBiased_entry {ov edenKb : Option Nat} {base totalLen heapMib : Nat} {l : HeapLayout}
    (hbase : base % 4096 = 0) (h : HeapLayout.new ov base totalLen (edenSizeFor edenKb heapMib) = some l)
    (backing : UInt64) {a : Nat} (ha : l.old.contains a) :
    let t := CardTable.new backing l.old
    t.baseBiased + UInt64.ofNat (a >>> CARD_SHIFT) = t.entry (t.cardIndex a) ∧ t.cardIndex a < t.nCards := by
  intro t
  have hstart : t.oldStart = l.oldStart := congrArg SpaceBounds.start (new_old h).2
  have haligned : t.oldStart % CARD_SIZE = 0 := by
    rw [hstart]
    exact old_aligned hbase (edenSizeFor_aligned edenKb heapMib) h
  have hle : t.oldStart ≤ a := by
    simp only [SpaceBounds.contains, Bool.and_eq_true, decide_eq_true_eq] at ha
    exact ha.1
  exact ⟨CardTable.biased_entry haligned hle, CardTable.cardIndex_lt ha⟩

theorem HeapLayout.baseBiased_entry_oddEden :
    let t := CardTable.new 4096 ⟨1060864, 2097152⟩
    t.baseBiased + UInt64.ofNat (1061888 >>> CARD_SHIFT) = t.entry (t.cardIndex 1061888) ∧
      t.cardIndex 1061888 < t.nCards :=
  @HeapLayout.baseBiased_entry none (some 8) 4096 2093056 2
    ⟨⟨4096, 12288⟩, ⟨12288, 536576⟩, ⟨536576, 1060864⟩, ⟨1060864, 2097152⟩, 1060864⟩ (by decide) (by decide)
    4096 1061888 (by decide)

end WinArmVm.HeapGeometry
