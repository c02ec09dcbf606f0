import WinArmVm.Forest
import WinArmVm.LookupCache
import WinArmVm.InterpreterIc

namespace WinArmVm

open Function

/-- What no step of a run writes: the klass tree, the selectors' identity hashes,
and the immutable parts of the methods. `literalBlocks` are the blocks in a
method's literal pool; a block is built before the method that holds it. -/
structure Image where
  klasses : Forest KlassOop
  symbolHash : SymbolOop → Nat
  selector : MethodOop → SymbolOop
  literalBlocks : MethodOop → List MethodOop
  nesting : MethodOop → Nat
  nesting_lt : ∀ {m b}, b ∈ literalBlocks m → nesting b < nesting m
  superSite : MethodOop → Nat → Bool
  primitive : MethodOop → Nat
  argc : MethodOop → Nat
  isBlock : MethodOop → Bool
  closureKlass : KlassOop
  valueSelector : Nat → SymbolOop
  selDoesNotUnderstand : SymbolOop

/-- The arity of a `value` primitive, the four that activate a block. -/
def Image.valueArgc (image : Image) (m : MethodOop) : Option Nat :=
  if 50 ≤ image.primitive m ∧ image.primitive m ≤ 53 then some (image.primitive m - 50) else none

/-- Root klasses only, with no block in any pool, no primitive and no super site. -/
def Image.flat (selector : MethodOop → SymbolOop) : Image where
  klasses := { parent := fun _ => none, depth := fun _ => 0, depth_lt := fun h => by cases h }
  symbolHash := SymbolOop.raw
  selector := selector
  literalBlocks := fun _ => []
  nesting := fun _ => 0
  nesting_lt := fun h => by cases h
  superSite := fun _ _ => false
  primitive := fun _ => 0
  argc := fun _ => 0
  isBlock := fun _ => false
  closureKlass := ⟨8⟩
  valueSelector := fun _ => ⟨8⟩
  selDoesNotUnderstand := ⟨8⟩

structure VmState where
  image : Image
  methods : KlassOop → Option MethodDict
  holder : MethodOop → Option KlassOop
  lookupCache : LookupCache
  icEpoch : Nat
  codeTable : CodeTable
  ics : MethodOop → Nat → InterpreterIc
  invocations : MethodOop → Nat
  compileDisabled : MethodOop → Bool
  jitThreshold : Option Nat

namespace VmState

def boot (image : Image) (sites : MethodOop → Nat → SymbolOop × Nat) (jitThreshold : Option Nat) : VmState where
  image := image
  methods := fun _ => none
  holder := fun _ => none
  lookupCache := .new
  icEpoch := 0
  codeTable := .new
  ics := fun m i => .new (sites m i).1 (sites m i).2
  invocations := fun _ => 0
  compileDisabled := fun _ => false
  jitThreshold := jitThreshold

def ownMethod (vm : VmState) (selector : SymbolOop) (k : KlassOop) : Option MethodOop :=
  (vm.methods k).bind fun dict => dict.probe vm.image.symbolHash selector

def lookupUncached (vm : VmState) (klass : KlassOop) (selector : SymbolOop) : Option MethodOop :=
  vm.image.klasses.firstOn (vm.ownMethod selector) klass

def lookup (vm : VmState) (klass : KlassOop) (selector : SymbolOop) : Option MethodOop × VmState :=
  match vm.lookupCache.probe klass selector with
  | (some m, cache) => (some m, { vm with lookupCache := cache })
  | (none, cache) =>
    match vm.lookupUncached klass selector with
    | some m => (some m, { vm with lookupCache := cache.insert klass selector m })
    | none => (none, { vm with lookupCache := cache })

def superchainContains (vm : VmState) (k holder : KlassOop) : Bool := vm.image.klasses.onChain k holder

/-- Whether installing `selector` in `holder` can change a lookup `nm` assumed:
that of its own key, or of an inlined callee. -/
def dependsOn (vm : VmState) (nm : Nmethod) (holder : KlassOop) (selector : SymbolOop) : Bool :=
  (nm.keySelector = selector && vm.superchainContains nm.keyKlass holder) ||
    nm.inlineDeps.any fun dep => dep.2 = selector && vm.superchainContains dep.1 holder

def affectedByInstall (vm : VmState) (holder : KlassOop) (selector : SymbolOop) : List NmethodId :=
  ((List.range vm.codeTable.size).map NmethodId.mk).filter fun id =>
    (vm.codeTable.get id).any fun nm => nm.state = .alive && vm.dependsOn nm holder selector

def invalidateDependents (vm : VmState) (holder : KlassOop) (selector : SymbolOop) : VmState :=
  { vm with codeTable := (vm.affectedByInstall holder selector).foldl CodeTable.setNotEntrant vm.codeTable }

/-- Blocks nest, so the pools are walked to the depth of `m`'s nesting. -/
def patchBlockHolders (image : Image) (klass : KlassOop) :
    Nat → MethodOop → (MethodOop → Option KlassOop) → MethodOop → Option KlassOop
  | 0, _, holder => holder
  | n + 1, m, holder =>
    (image.literalBlocks m).foldl
      (fun holder b => patchBlockHolders image klass n b (Function.update holder b (some klass)))
      holder

def methodDict (vm : VmState) (klass : KlassOop) : MethodDict := (vm.methods klass).getD (MethodDict.allocMethodDict 8)

/-- `none` is the panic of a dictionary insert. -/
def installMethod (vm : VmState) (klass : KlassOop) (selector : SymbolOop) (m : MethodOop) : Option VmState := do
  let dict ← (vm.methodDict klass).insert vm.image.symbolHash selector m
  let holder := Function.update vm.holder m (some klass)
  let installed : VmState :=
    { vm with
      methods := Function.update vm.methods klass (some dict)
      holder := patchBlockHolders vm.image klass (vm.image.nesting m) m holder
      lookupCache := vm.lookupCache.flush
      icEpoch := vm.icEpoch + 1 }
  pure (installed.invalidateDependents klass selector)

def gcEpilogue (vm : VmState) : VmState := { vm with lookupCache := vm.lookupCache.flush }

def withCache (vm : VmState) (cache : LookupCache) : VmState := { vm with lookupCache := cache }

def setIc (vm : VmState) (caller : MethodOop) (icIdx : Nat) (ic : InterpreterIc) : VmState :=
  { vm with ics := Function.update vm.ics caller (Function.update (vm.ics caller) icIdx ic) }

def DictsValid (vm : VmState) : Prop := ∀ k dict, vm.methods k = some dict → dict.Valid vm.image.symbolHash

def CacheCoherent (vm : VmState) : Prop := vm.lookupCache.Agrees vm.lookupUncached

variable {vm vm' : VmState}

theorem lookupUncached_congr (hi : vm'.image = vm.image) (hm : vm'.methods = vm.methods) :
    vm'.lookupUncached = vm.lookupUncached := by
  funext k sel
  unfold lookupUncached ownMethod
  rw [hi, hm]

theorem DictsValid.methodDict_valid (h : vm.DictsValid) (k : KlassOop) :
    (vm.methodDict k).Valid vm.image.symbolHash := by
  unfold methodDict
  cases hk : vm.methods k with
  | none => exact MethodDict.allocMethodDict_valid 3 _
  | some dict => exact h k dict hk

theorem methodDict_probe (vm : VmState) (k : KlassOop) (sel : SymbolOop) :
    (vm.methodDict k).probe vm.image.symbolHash sel = vm.ownMethod sel k := by
  unfold methodDict ownMethod
  cases hk : vm.methods k with
  | none => exact MethodDict.allocMethodDict_probe 3 _ sel
  | some dict => rfl

theorem installMethod_spec (h : vm.DictsValid) (k : KlassOop) (sel : SymbolOop) (m : MethodOop) :
    ∃ vm', vm.installMethod k sel m = some vm' ∧ vm'.DictsValid ∧
      ∀ s x, vm'.ownMethod s x = if x = k ∧ s = sel then some m else vm.ownMethod s x := by
  obtain ⟨dict, hd, hv, hp⟩ := (h.methodDict_valid k).insert_spec sel m
  refine ⟨_, by simp only [installMethod, hd]; rfl, ?_, fun s x => ?_⟩
  · intro x d hx
    by_cases he : x = k
    · subst x
      simp only [invalidateDependents, update_self, Option.some.injEq] at hx
      subst d
      exact hv
    · simp only [invalidateDependents, update_of_ne he] at hx
      exact h x d hx
  · unfold ownMethod
    by_cases he : x = k
    · subst x
      simp only [invalidateDependents, update_self, Option.bind_some, hp]
      by_cases hs : s = sel
      · simp [hs]
      · simp [hs, methodDict_probe, ownMethod]
    · simp only [invalidateDependents, update_of_ne he]
      simp [he]

end VmState

structure Relocation where
  klass : KlassOop ≃ KlassOop
  symbol : SymbolOop ≃ SymbolOop
  method : MethodOop ≃ MethodOop

variable (r : Relocation)

def MethodDict.relocate (d : MethodDict) : MethodDict := ⟨d.table.mapEntries r.symbol r.method, d.tally⟩

def Image.relocate (image : Image) : Image where
  klasses :=
    { parent := fun k => (image.klasses.parent (r.klass.symm k)).map r.klass
      depth := fun k => image.klasses.depth (r.klass.symm k)
      depth_lt := by
        intro k p h
        obtain ⟨p', hp, rfl⟩ := Option.map_eq_some_iff.mp h
        simpa using image.klasses.depth_lt hp }
  symbolHash := image.symbolHash ∘ r.symbol.symm
  selector := fun m => r.symbol (image.selector (r.method.symm m))
  literalBlocks := fun m => (image.literalBlocks (r.method.symm m)).map r.method
  nesting := fun m => image.nesting (r.method.symm m)
  nesting_lt := by
    intro m b h
    obtain ⟨b', hb, rfl⟩ := List.mem_map.mp h
    simpa using image.nesting_lt hb
  superSite := fun m i => image.superSite (r.method.symm m) i
  primitive := fun m => image.primitive (r.method.symm m)
  argc := fun m => image.argc (r.method.symm m)
  isBlock := fun m => image.isBlock (r.method.symm m)
  closureKlass := r.klass image.closureKlass
  valueSelector := fun n => r.symbol (image.valueSelector n)
  selDoesNotUnderstand := r.symbol image.selDoesNotUnderstand

/-- The collector rewrites every reference to a moved klass or method it scans.
The lookup cache is not scanned: its entries keep the old addresses. -/
def VmState.relocate (vm : VmState) : VmState :=
  { vm with
    image := vm.image.relocate r
    methods := fun k => (vm.methods (r.klass.symm k)).map (MethodDict.relocate r)
    holder := fun m => (vm.holder (r.method.symm m)).map r.klass }

namespace Relocation

theorem dict_valid {d : MethodDict} {hash : SymbolOop → Nat} (h : d.Valid hash) :
    (d.relocate r).Valid (hash ∘ r.symbol.symm) := by
  refine ⟨h.probed.mapEntries _ _, ?_, h.load⟩
  have ho : (d.table.mapEntries r.symbol r.method).occupied = d.table.occupied :=
    LinearProbing.Table.mapEntries_occupied r.symbol r.method d.table
  change d.tally = (d.table.mapEntries r.symbol r.method).occupied
  rw [ho]
  exact h.tally

theorem dictsValid {vm : VmState} (h : vm.DictsValid) : (vm.relocate r).DictsValid := by
  intro k d hk
  obtain ⟨d', hd, rfl⟩ := Option.map_eq_some_iff.mp hk
  exact dict_valid r (h _ d' hd)

end Relocation

end WinArmVm
