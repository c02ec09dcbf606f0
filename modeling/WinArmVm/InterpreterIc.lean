import WinArmVm.CodeTable

namespace WinArmVm

open List

def icMetaEpochBits : Nat := 24

def icPolyMaxPairs : Nat := 4

def polyCountMax : Nat := 2 ^ 31 - 1

structure PolyArm where
  klass : KlassOop
  method : MethodOop
  count : Nat
deriving DecidableEq, Repr

structure PolyPairs where
  arms : List PolyArm
  arms_le : arms.length ≤ icPolyMaxPairs
deriving DecidableEq, Repr

/-- The guard and target slots read together. A mono target is a method, or an
nmethod id when the site was linked to compiled code. -/
inductive IcShape
  | empty
  | mono (klass : KlassOop) (method : MethodOop)
  | monoCompiled (klass : KlassOop) (id : NmethodId)
  | poly (pairs : PolyPairs)
  | mega
deriving DecidableEq, Repr

structure InterpreterIc where
  selector : SymbolOop
  argc : Nat
  epoch : Nat
  shape : IcShape
deriving DecidableEq, Repr

inductive IcState
  | empty
  | mono
  | poly (arity : Nat)
  | mega
deriving DecidableEq, Repr

namespace InterpreterIc

def new (selector : SymbolOop) (argc : Nat) : InterpreterIc := ⟨selector, argc, 0, .empty⟩

def setMeta (ic : InterpreterIc) (epoch : Nat) : InterpreterIc := { ic with epoch := epoch % 2 ^ icMetaEpochBits }

def setMono (ic : InterpreterIc) (k : KlassOop) (m : MethodOop) (epoch : Nat) : InterpreterIc :=
  { ic with shape := .mono k m }.setMeta epoch

def setMonoCompiled (ic : InterpreterIc) (k : KlassOop) (id : NmethodId) (epoch : Nat) : InterpreterIc :=
  { ic with shape := .monoCompiled k id }.setMeta epoch

def setPoly (ic : InterpreterIc) (pairs : PolyPairs) (epoch : Nat) : InterpreterIc :=
  { ic with shape := .poly pairs }.setMeta epoch

/-- Mega is a sink, and its epoch is never read again. -/
def setMega (ic : InterpreterIc) : InterpreterIc := { ic with shape := .mega }

def setEmpty (ic : InterpreterIc) : InterpreterIc := { ic with shape := .empty }

def guard (ic : InterpreterIc) : Option KlassOop :=
  match ic.shape with
  | .mono k _ => some k
  | .monoCompiled k _ => some k
  | _ => none

def icState (ic : InterpreterIc) : IcState :=
  match ic.shape with
  | .empty => .empty
  | .mono _ _ => .mono
  | .monoCompiled _ _ => .mono
  | .poly pairs => .poly pairs.arms.length
  | .mega => .mega

end InterpreterIc

namespace PolyPairs

def hit (pairs : PolyPairs) (k : KlassOop) : Option PolyArm := pairs.arms.find? fun arm => arm.klass = k

/-- Bump the count of the first arm keyed by `k`. -/
def bumpArms (k : KlassOop) : List PolyArm → List PolyArm
  | [] => []
  | arm :: rest =>
    if arm.klass = k then
      { arm with count := if arm.count < polyCountMax then arm.count + 1 else arm.count } :: rest
    else arm :: bumpArms k rest

theorem bumpArms_length (k : KlassOop) (arms : List PolyArm) : (bumpArms k arms).length = arms.length := by
  induction arms with
  | nil => rfl
  | cons arm rest ih =>
    unfold bumpArms
    split
    next => rfl
    next => simp [ih]

def bump (pairs : PolyPairs) (k : KlassOop) : PolyPairs :=
  ⟨bumpArms k pairs.arms, by rw [bumpArms_length]; exact pairs.arms_le⟩

/-- The two arms a mono site turns into; the triggering dispatch is arm 1's first hit. -/
def pair (k0 : KlassOop) (m0 : MethodOop) (k : KlassOop) (m : MethodOop) : PolyPairs :=
  ⟨[⟨k0, m0, 0⟩, ⟨k, m, 1⟩], Nat.le_of_ble_eq_true rfl⟩

def append (pairs : PolyPairs) (h : pairs.arms.length < icPolyMaxPairs) (k : KlassOop) (m : MethodOop) : PolyPairs :=
  ⟨pairs.arms ++ [⟨k, m, 1⟩], by rw [List.length_append]; exact h⟩

/-- Every arm pairs its klass with the method `answer` gives it. -/
def Agrees (pairs : PolyPairs) (answer : KlassOop → Option MethodOop) : Prop :=
  ∀ arm ∈ pairs.arms, answer arm.klass = some arm.method

variable {answer : KlassOop → Option MethodOop} {pairs : PolyPairs} {k : KlassOop} {arm : PolyArm}

theorem Agrees.hit (h : pairs.Agrees answer) (hk : pairs.hit k = some arm) : answer k = some arm.method := by
  have hm := mem_of_find?_eq_some hk
  have he := List.find?_some hk
  rw [← of_decide_eq_true he]
  exact h arm hm

theorem mem_bumpArms {arms : List PolyArm}
    (h : arm ∈ bumpArms k arms) : ∃ old ∈ arms, old.klass = arm.klass ∧ old.method = arm.method := by
  induction arms with
  | nil => simp [bumpArms] at h
  | cons first rest ih =>
    unfold bumpArms at h
    split at h
    next =>
      rcases mem_cons.mp h with rfl | hr
      · exact ⟨first, mem_cons_self, rfl, rfl⟩
      · exact ⟨arm, mem_cons_of_mem _ hr, rfl, rfl⟩
    next =>
      rcases mem_cons.mp h with rfl | hr
      · exact ⟨arm, mem_cons_self, rfl, rfl⟩
      · obtain ⟨old, ho, he⟩ := ih hr
        exact ⟨old, mem_cons_of_mem _ ho, he⟩

theorem Agrees.bump (h : pairs.Agrees answer) (k : KlassOop) : (pairs.bump k).Agrees answer := by
  intro arm ha
  obtain ⟨old, ho, hk, hm⟩ := mem_bumpArms ha
  rw [← hk, ← hm]
  exact h old ho

theorem Agrees.pair {k0 k : KlassOop} {m0 m : MethodOop} (h0 : answer k0 = some m0)
    (h : answer k = some m) : (PolyPairs.pair k0 m0 k m).Agrees answer := by
  intro arm ha
  simp only [PolyPairs.pair, mem_cons, not_mem_nil, or_false] at ha
  rcases ha with rfl | rfl
  · exact h0
  · exact h

theorem Agrees.append (h : pairs.Agrees answer) (hlt : pairs.arms.length < icPolyMaxPairs)
    {m : MethodOop} (hm : answer k = some m) :
    (pairs.append hlt k m).Agrees answer := by
  intro arm ha
  rcases mem_append.mp ha with ho | hn
  · exact h arm ho
  · rw [mem_singleton] at hn
    subst hn
    exact hm

end PolyPairs

end WinArmVm
