import Mathlib.Data.List.Basic

namespace RememberedSet

open List Option

/-- How objects hold references: the offset of each slot that has one, and what a store adds. -/
structure Layout (Obj St : Type) where
  refs : Obj → List (Nat × Nat)
  bytes : Obj → Nat
  apply : St → Obj → Obj
  adds : St → Obj → Option (Nat × Nat)
  inside : ∀ {m r}, r ∈ refs m → r.1 < bytes m
  applied : ∀ {s m r}, r ∈ refs (apply s m) → r ∈ refs m ∨ adds s m = some r
  added : ∀ {s m r}, adds s m = some r → r ∈ refs (apply s m)

/-- Objects by number; `home` is an object's address in the old generation, none while it is young. -/
structure Heap (Obj : Type) where
  objects : List Obj
  home : Nat → Option Nat
  dirty : Nat → Bool

/-- What a collection decides: who is promoted and to where, or every old object's new address. -/
inductive Collection
  | scavenge (promoted : Nat → Option Nat)
  | full (homes : Nat → Option Nat)

/-- What an allocation does besides: collections first, and a place in the old generation for objects
that the young one cannot hold. -/
structure Turn where
  collections : List Collection
  place : Option Nat

/-- Allocations of objects without references, with and without a chance to collect, and raw stores. -/
inductive Op (Obj St : Type)
  | alloc (m : Obj)
  | bump (m : Obj)
  | store (a : Nat) (s : St)

def Op.next {Obj St : Type} (i : Nat) : Op Obj St → Nat
  | .alloc _ => i + 1
  | _ => i

namespace Heap

variable {Obj St : Type} (L : Layout Obj St) (card : Nat)

/-- The card overlaps the bytes from `base` on. -/
def covers (base size c : Nat) : Bool := base / card ≤ c && c ≤ (base + size - 1) / card

/-- Some object for which `f` has an address satisfies the test. -/
def anyAt (h : Heap Obj) (f : Nat → Option Nat) (test : Nat → Obj → Bool) : Bool :=
  (List.range h.objects.length).any fun a =>
    match f a, h.objects[a]? with
    | some base, some m => test base m
    | _, _ => false

def top (h : Heap Obj) : Nat := (List.range h.objects.length).foldr (fun a t =>
    match h.home a, h.objects[a]? with
    | some base, some m => max (base + L.bytes m) t
    | _, _ => t) 0

def pointsYoung (h : Heap Obj) (home : Nat → Option Nat) (c : Nat) : Bool :=
  h.anyAt h.home fun base m => (L.refs m).any fun r => (base + r.1) / card = c && (home r.2).isNone

/-- A promoted object's cards are dirtied; a dirty card below the end that was is cleaned when no slot
on it refers to a young object any more. -/
def scavenge (h : Heap Obj) (promoted : Nat → Option Nat) : Heap Obj :=
  let home := fun a => (h.home a).or (if a < h.objects.length then promoted a else none)
  { h with
    home := home
    dirty := fun c =>
      h.anyAt (fun a => if (h.home a).isNone then promoted a else none) (fun base m => covers card base (L.bytes m) c) ||
        (h.dirty c && (h.top L < (c + 1) * card || h.pointsYoung L card home c)) }

def fullGc (h : Heap Obj) (homes : Nat → Option Nat) : Heap Obj :=
  let home := fun a => if a < h.objects.length then homes a else none
  { h with home := home, dirty := fun c => c * card < { h with home := home }.top L }

def collect (h : Heap Obj) : Collection → Heap Obj
  | .scavenge promoted => h.scavenge L card promoted
  | .full homes => h.fullGc L card homes

def place (h : Heap Obj) (m : Obj) (base : Option Nat) : Heap Obj where
  objects := h.objects ++ [m]
  home := match base with
    | some base => fun a => if a = h.objects.length then some base else h.home a
    | none => h.home
  dirty := fun c => h.dirty c || match base with
    | some base => covers card base (L.bytes m) c
    | none => false

def step (turn : Turn) (h : Heap Obj) : Op Obj St → Heap Obj
  | .alloc m => (turn.collections.foldl (collect L card) h).place L card m turn.place
  | .bump m => h.place L card m none
  | .store a s => { h with objects := h.objects.modify a (L.apply s) }

/-- The heaps a run goes through; the `i`-th allocation has the `i`-th turn. -/
def run (turns : Nat → Turn) : Nat → Heap Obj → List (Op Obj St) → List (Heap Obj)
  | _, h, [] => [h]
  | i, h, op :: ops => h :: run turns (op.next i) (h.step L card (turns i) op) ops

def storeOf (h : Heap Obj) : Op Obj St → List (Heap Obj × Nat × St)
  | .store a s => [(h, a, s)]
  | _ => []

def stores (turns : Nat → Turn) : Nat → Heap Obj → List (Op Obj St) → List (Heap Obj × Nat × St)
  | _, _, [] => []
  | i, h, op :: ops => storeOf h op ++ stores turns (op.next i) (h.step L card (turns i) op) ops

def Remembered (h : Heap Obj) : Prop :=
  ∀ (a base : Nat) (m : Obj) (r : Nat × Nat), h.home a = some base → h.objects[a]? = some m → r ∈ L.refs m →
    h.home r.2 = none → h.dirty ((base + r.1) / card) = true

def Marked (h : Heap Obj) (a : Nat) (s : St) : Prop :=
  ∀ (base : Nat) (m : Obj) (r : Nat × Nat), h.home a = some base → h.objects[a]? = some m → L.adds s m = some r →
    h.home r.2 = none → h.dirty ((base + r.1) / card) = true

variable {L card} {h : Heap Obj} {m : Obj} {a base : Nat}

theorem anyAt_of {f : Nat → Option Nat} {test : Nat → Obj → Bool} (hf : f a = some base)
    (hm : h.objects[a]? = some m) (ht : test base m = true) : h.anyAt f test = true := by
  apply any_eq_true.mpr
  refine ⟨a, mem_range.mpr (List.getElem?_eq_some_iff.mp hm).1, ?_⟩
  simp only [hf, hm]
  exact ht

theorem covers_slot {base size off : Nat} (h : off < size) : covers card base size ((base + off) / card) = true := by
  unfold covers
  have h₁ : base / card ≤ (base + off) / card := Nat.div_le_div_right (by omega)
  have h₂ : (base + off) / card ≤ (base + size - 1) / card := Nat.div_le_div_right (by omega)
  simp [h₁, h₂]

theorem le_top (hf : h.home a = some base) (hm : h.objects[a]? = some m) : base + L.bytes m ≤ h.top L := by
  have hmem : a ∈ List.range h.objects.length := mem_range.mpr (List.getElem?_eq_some_iff.mp hm).1
  unfold top
  generalize List.range h.objects.length = as at hmem
  induction as with
  | nil => cases hmem
  | cons x xs ih =>
    rw [foldr_cons]
    cases mem_cons.mp hmem with
    | inl heq =>
      subst heq
      simp only [hf, hm]
      exact Nat.le_max_left _ _
    | inr hmem =>
      have hrest := ih hmem
      split
      next => exact Nat.le_trans hrest (Nat.le_max_right _ _)
      next => exact hrest

theorem Remembered.scavenge (h' : h.Remembered L card) (promoted : Nat → Option Nat) :
    (h.scavenge L card promoted).Remembered L card := by
  intro a base m r hhome hm hr hyoung
  have hm₀ : h.objects[a]? = some m := hm
  have hlt : a < h.objects.length := (List.getElem?_eq_some_iff.mp hm₀).1
  have hyoung' : (h.home r.2).or (if r.2 < h.objects.length then promoted r.2 else none) = none := hyoung
  have hhome' : (h.home a).or (promoted a) = some base := by
    have : (h.home a).or (if a < h.objects.length then promoted a else none) = some base := hhome
    rwa [if_pos hlt] at this
  obtain ⟨hold, -⟩ := or_eq_none_iff.mp hyoung'
  show (h.anyAt _ _ || (_ && (_ || h.pointsYoung L card _ _))) = true
  cases hwas : h.home a with
  | none =>
    have hprom : (if (h.home a).isNone then promoted a else none) = some base := by
      rw [hwas, none_or] at hhome'
      simpa [hwas] using hhome'
    rw [anyAt_of hprom hm₀ (covers_slot (L.inside hr)), Bool.true_or]
  | some base' =>
    rw [hwas, some_or] at hhome'
    cases hhome'
    have hdirty := h' a base m r hwas hm₀ hr hold
    rw [hdirty]
    have hpoints : h.pointsYoung L card (fun a => (h.home a).or (if a < h.objects.length then promoted a else none))
        ((base + r.1) / card) = true := by
      apply anyAt_of hwas hm₀
      apply any_eq_true.mpr
      refine ⟨r, hr, ?_⟩
      show (decide _ && Option.isNone (Option.or _ _)) = true
      rw [hyoung']
      simp
    rw [hpoints]
    simp

theorem Remembered.fullGc (homes : Nat → Option Nat) : (h.fullGc L card homes).Remembered L card := by
  intro a base m r hhome hm hr _
  have htop := le_top (h := { h with home := fun a => if a < h.objects.length then homes a else none }) (L := L) hhome hm
  have hin := L.inside hr
  have hdiv : (base + r.1) / card * card ≤ base + r.1 := Nat.div_mul_le_self _ _
  apply decide_eq_true
  omega

theorem Remembered.collect (h' : h.Remembered L card) (c : Collection) : (h.collect L card c).Remembered L card := by
  cases c with
  | scavenge promoted => exact h'.scavenge promoted
  | full homes => exact Remembered.fullGc homes

theorem Remembered.collections : ∀ {cs : List Collection} {h : Heap Obj}, h.Remembered L card →
    (cs.foldl (Heap.collect L card) h).Remembered L card := by
  intro cs
  induction cs with
  | nil => intro h h'; exact h'
  | cons c cs ih => intro h h'; exact ih (h'.collect c)

theorem Remembered.place (h' : h.Remembered L card) (hm : L.refs m = []) (base : Option Nat) :
    (h.place L card m base).Remembered L card := by
  intro a base' m' r hhome hm' hr hyoung
  rcases Nat.lt_or_ge a h.objects.length with hlt | hge
  · have hm'' : h.objects[a]? = some m' := by
      rw [← getElem?_append_left hlt]
      exact hm'
    have hboth : h.home a = some base' ∧ h.home r.2 = none := by
      cases base with
      | none => exact ⟨hhome, hyoung⟩
      | some b =>
        have hhome₁ : (if a = h.objects.length then some b else h.home a) = some base' := hhome
        have hyoung₁ : (if r.2 = h.objects.length then some b else h.home r.2) = none := hyoung
        rw [if_neg (Nat.ne_of_lt hlt)] at hhome₁
        split at hyoung₁
        next => cases hyoung₁
        next => exact ⟨hhome₁, hyoung₁⟩
    show (h.dirty _ || _) = true
    rw [h' a base' m' r hboth.1 hm'' hr hboth.2, Bool.true_or]
  · have hm'' : (h.objects ++ [m])[a]? = some m' := hm'
    rw [getElem?_append_right hge] at hm''
    rw [mem_singleton.mp (mem_of_getElem? hm''), hm] at hr
    cases hr

end Heap

end RememberedSet
