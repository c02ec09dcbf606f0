import WinArmVm.Bytecode
import WinArmVm.DepthFirst
import WinArmVm.TypeFeedback

namespace WinArmVm

open Bytecode

def graftSnapshotDepth : Nat := 4

def deeper (depth : Nat) : Nat := min (depth + 1) 255

def IcState.tag : IcState → UInt8
  | .empty => 0
  | .mono => 1
  | .poly _ => 2
  | .mega => 3

def SiteFeedback.targets : SiteFeedback → List MethodOop
  | .mono _ method => [method]
  | .poly cases => (cases.insertionSort fun a b => a.klass.raw ≤ b.klass.raw).map FeedbackCase.method
  | .untaken | .mega => []

structure SnapshotWalk where
  bytes : List UInt8
  visited : List MethodOop
deriving DecidableEq, Repr

def SnapshotWalk.start : SnapshotWalk := ⟨[], []⟩

def SnapshotWalk.fold (w : SnapshotWalk) (bytes : List UInt8) : SnapshotWalk := { w with bytes := w.bytes ++ bytes }

/-- The methods' bytecodes and literal blocks beside the state the send sites are read from. -/
structure CallSites where
  vm : VmState
  code : MethodOop → List UInt8
  literalMethod : MethodOop → Nat → Option MethodOop

namespace CallSites

def decoded (g : CallSites) (m : MethodOop) : Option (List Instr) :=
  (decodeAll (g.code m)).map fun walk => walk.map fun r => r.2.1

def snapshotInstr (g : CallSites) (into : Nat → MethodOop → SnapshotWalk → Option SnapshotWalk) (m : MethodOop)
    (depth : Nat) (w : SnapshotWalk) : Instr → Option SnapshotWalk
  | .send ic false =>
    let w := w.fold [UInt8.ofNat ic, UInt8.ofNat (ic >>> 8), (g.vm.ics m ic).icState.tag]
    if depth < graftSnapshotDepth then
      (g.vm.readSendSite m ic).targets.foldlM (fun w target => into (deeper depth) target w) w
    else some w
  | .pushClosure lit _ =>
    match g.literalMethod m lit.toNat with
    | some blk => into (deeper depth) blk w
    | none => some w
  | _ => some w

/-- None is a panic on bytes that decode to no instruction, or the turns are used up. -/
def snapshotInto (g : CallSites) : Nat → Nat → MethodOop → SnapshotWalk → Option SnapshotWalk
  | 0, _, _, _ => none
  | turns + 1, depth, m, w =>
    if m ∈ w.visited then some w
    else do
      let instrs ← g.decoded m
      let w := { w with visited := w.visited ++ [m] }.fold [0xB5, UInt8.ofNat depth]
      instrs.foldlM (g.snapshotInstr (snapshotInto g turns) m depth) w

def instrs (g : CallSites) (m : MethodOop) : List Instr := (g.decoded m).getD []

def siteBytes (g : CallSites) (m : MethodOop) : Instr → List UInt8
  | .send ic false => [UInt8.ofNat ic, UInt8.ofNat (ic >>> 8), (g.vm.ics m ic).icState.tag]
  | _ => []

def followed (g : CallSites) (m : MethodOop) (depth : Nat) : Instr → List MethodOop
  | .send ic false => if depth < graftSnapshotDepth then (g.vm.readSendSite m ic).targets else []
  | .pushClosure lit _ => (g.literalMethod m lit.toNat).toList
  | _ => []

theorem snapshotInstr_eq (g : CallSites) (into : Nat → MethodOop → SnapshotWalk → Option SnapshotWalk)
    (m : MethodOop) (depth : Nat) (w : SnapshotWalk) (i : Instr) :
    g.snapshotInstr into m depth w i = (g.followed m depth i).foldlM (fun w target => into (deeper depth) target w)
      (w.fold (g.siteBytes m i)) := by
  have hnone : w.fold [] = w := by simp [SnapshotWalk.fold]
  cases i with
  | send ic isSuper =>
    cases isSuper with
    | true => exact congrArg some hnone.symm
    | false =>
      unfold snapshotInstr followed siteBytes
      dsimp only
      split
      next => rfl
      next => rfl
  | pushClosure lit _ =>
    unfold snapshotInstr followed siteBytes
    dsimp only
    rw [hnone]
    cases g.literalMethod m lit.toNat with
    | some blk => simp
    | none => rfl
  | _ => exact congrArg some hnone.symm

end CallSites

/-- The send sites of the heap's methods. Every method decodes and leads to methods of the heap, and the
arms of a poly site have klasses of their own. -/
structure ProfileGraph extends CallSites where
  methods : List MethodOop
  decodes : ∀ m ∈ methods, (toCallSites.decoded m).isSome
  closed : ∀ m ∈ methods, ∀ i ∈ toCallSites.instrs m, ∀ target ∈ toCallSites.followed m 0 i, target ∈ methods
  distinct : ∀ m ic pairs, (vm.ics m ic).shape = .poly pairs → (pairs.arms.map PolyArm.klass).Nodup

namespace ProfileGraph

variable (g : ProfileGraph) {root m : MethodOop}

def snapshotStream (root : MethodOop) : Option (List UInt8) :=
  (g.snapshotInto (g.methods.length + 1) 0 root .start).map SnapshotWalk.bytes

def children (m : MethodOop) (depth : Nat) : List MethodOop := (g.instrs m).flatMap (g.followed m depth)

/-- The methods in the order a depth-first search first meets them, each with its depth then. Send sites
are followed from below the graft depth only. -/
def order (root : MethodOop) : Option (List (MethodOop × Nat)) :=
  DepthFirst.visit g.children deeper (g.methods.length + 1) 0 root []

theorem decoded_eq (hm : m ∈ g.methods) : g.decoded m = some (g.instrs m) := by
  obtain ⟨is, his⟩ := Option.isSome_iff_exists.mp (g.decodes m hm)
  unfold CallSites.instrs
  rw [his]
  rfl

theorem followed_shallow {g : CallSites} {depth : Nat} {i : Instr} {target : MethodOop}
    (h : target ∈ g.followed m depth i) : target ∈ g.followed m 0 i := by
  unfold CallSites.followed at h ⊢
  split at h
  next ic =>
    split at h
    next => exact h
    next => cases h
  next => exact h
  next => cases h

theorem children_mem (hm : m ∈ g.methods) (depth : Nat) : ∀ c ∈ g.children m depth, c ∈ g.methods := by
  intro c hc
  obtain ⟨i, hi, ht⟩ := List.mem_flatMap.mp hc
  exact g.closed m hm i hi c (followed_shallow ht)

theorem snapshotInto_visited (turns : Nat) : ∀ (depth : Nat) (m : MethodOop) (w : SnapshotWalk)
    (seen : List (MethodOop × Nat)), m ∈ g.methods → w.visited = seen.map Prod.fst →
    (g.snapshotInto turns depth m w).map SnapshotWalk.visited =
      (DepthFirst.visit g.children deeper turns depth m seen).map fun out => out.map Prod.fst := by
  induction turns with
  | zero => exact fun _ _ _ _ _ _ => rfl
  | succ turns ih =>
    intro depth m w seen hm hw
    unfold CallSites.snapshotInto DepthFirst.visit
    rw [hw]
    split
    next => exact congrArg some hw
    next =>
      rw [g.decoded_eq hm]
      unfold children
      rw [DepthFirst.foldlM_flatMap]
      apply DepthFirst.foldlM_map
      · intro w seen i hi hw
        rw [CallSites.snapshotInstr_eq]
        apply DepthFirst.foldlM_map
        · intro w seen t ht hw
          exact ih _ _ _ _ (g.closed m hm i hi t (followed_shallow ht)) hw
        · exact hw
      · simp [SnapshotWalk.fold]

theorem order_exists (hroot : root ∈ g.methods) : ∃ out, g.order root = some out := by
  apply DepthFirst.visit_total (fun _ hm d => g.children_mem hm d) _ _ _ _ hroot
  exact Nat.lt_succ_of_le (List.length_filter_le _ _)

theorem snapshot_total (hroot : root ∈ g.methods) : ∃ w, g.snapshotInto (g.methods.length + 1) 0 root .start = some w ∧
    g.snapshotStream root = some w.bytes ∧ ∃ out, g.order root = some out ∧ w.visited = out.map Prod.fst := by
  obtain ⟨out, hout⟩ := g.order_exists hroot
  have h := g.snapshotInto_visited (g.methods.length + 1) 0 root .start [] hroot rfl
  unfold order at hout
  rw [hout] at h
  obtain ⟨w, hw, hv⟩ := Option.map_eq_some_iff.mp h
  exact ⟨w, hw, by unfold snapshotStream; rw [hw]; rfl, out, hout, hv⟩

end ProfileGraph

end WinArmVm
