import WinArmVm.VmState

namespace WinArmVm.VmState

/-- The states any interleaving of lookups, installs and collections reaches. -/
inductive LookupReach : VmState → Prop
  | boot (image : Image) (sites : MethodOop → Nat → SymbolOop × Nat) (jit : Option Nat) :
      LookupReach (boot image sites jit)
  | lookup {vm : VmState} (k : KlassOop) (sel : SymbolOop) : LookupReach vm → LookupReach (vm.lookup k sel).2
  | install {vm vm' : VmState} {k : KlassOop} {sel : SymbolOop} {m : MethodOop} :
      LookupReach vm → vm.installMethod k sel m = some vm' → LookupReach vm'
  | collect {vm : VmState} (r : Relocation) : LookupReach vm → LookupReach (vm.relocate r).gcEpilogue

variable {vm vm' : VmState}

theorem lookup_frame (vm : VmState) (k : KlassOop) (sel : SymbolOop) :
    (vm.lookup k sel).2 = { vm with lookupCache := (vm.lookup k sel).2.lookupCache } := by
  unfold VmState.lookup
  split
  next => rfl
  next => split <;> rfl

theorem lookup_lookupUncached (vm : VmState) (k : KlassOop) (sel : SymbolOop) :
    (vm.lookup k sel).2.lookupUncached = vm.lookupUncached := by
  rw [lookup_frame]
  rfl

theorem CacheCoherent.lookup_eq (h : vm.CacheCoherent) (k : KlassOop) (sel : SymbolOop) :
    (vm.lookup k sel).1 = vm.lookupUncached k sel := by
  unfold VmState.lookup
  split
  next m cache hp =>
    have hm : (vm.lookupCache.probe k sel).1 = some m := by rw [hp]
    exact (LookupCache.Agrees.probe_hit h hm).symm
  next cache hp =>
    split
    next m hm => exact hm.symm
    next hm => exact hm.symm

theorem CacheCoherent.lookup (h : vm.CacheCoherent) (k : KlassOop) (sel : SymbolOop) :
    (vm.lookup k sel).2.CacheCoherent := by
  unfold CacheCoherent
  rw [lookup_lookupUncached]
  have hprobe : (vm.lookupCache.probe k sel).2.Agrees vm.lookupUncached := LookupCache.Agrees.probe h k sel
  unfold VmState.lookup
  split
  next m cache hp =>
    rw [hp] at hprobe
    exact hprobe
  next cache hp =>
    rw [hp] at hprobe
    split
    next m hm => exact hprobe.insert hm
    next => exact hprobe

theorem lookup_withCache (h : vm.CacheCoherent) (k : KlassOop) (sel : SymbolOop) :
    ∃ cache : LookupCache, cache.Agrees vm.lookupUncached ∧
      vm.lookup k sel = (vm.lookupUncached k sel, vm.withCache cache) := by
  refine ⟨(vm.lookup k sel).2.lookupCache, ?_, ?_⟩
  · have hc := h.lookup k sel
    unfold CacheCoherent at hc
    rw [lookup_lookupUncached] at hc
    exact hc
  · have h1 := h.lookup_eq k sel
    have h2 := lookup_frame vm k sel
    exact Prod.ext h1 h2

variable {sel : SymbolOop} {m : MethodOop} {k : KlassOop}

section

variable (h : vm.installMethod k sel m = some vm')

include h

theorem installMethod_flushes : vm'.lookupCache = LookupCache.new := by
  obtain ⟨dict, _, h⟩ := Option.bind_eq_some_iff.mp h
  cases h
  rfl

theorem installMethod_image : vm'.image = vm.image := by
  obtain ⟨dict, _, h⟩ := Option.bind_eq_some_iff.mp h
  cases h
  rfl

theorem installMethod_ics : vm'.ics = vm.ics := by
  obtain ⟨dict, _, h⟩ := Option.bind_eq_some_iff.mp h
  cases h
  rfl

end

theorem LookupReach.dictsValid (h : LookupReach vm) : vm.DictsValid := by
  induction h with
  | boot image sites jit =>
    intro k d hk
    simp [VmState.boot] at hk
  | lookup k sel _ ih =>
    rw [lookup_frame]
    exact ih
  | install _ hi ih =>
    obtain ⟨vm', he, hv, _⟩ := installMethod_spec ih ..
    rw [hi] at he
    cases he
    exact hv
  | collect r _ ih => exact Relocation.dictsValid r ih

theorem LookupReach.cacheCoherent (h : LookupReach vm) : vm.CacheCoherent := by
  induction h with
  | boot image sites jit => exact LookupCache.new_agrees
  | lookup k sel _ ih => exact ih.lookup k sel
  | install _ hi _ =>
    unfold CacheCoherent
    rw [installMethod_flushes hi]
    exact LookupCache.new_agrees
  | collect r _ _ => exact LookupCache.new_agrees

theorem LookupReach.install_total (h : LookupReach vm) (k : KlassOop) (sel : SymbolOop)
    (m : MethodOop) : ∃ vm', vm.installMethod k sel m = some vm' ∧ LookupReach vm' ∧
      ∀ s x, vm'.ownMethod s x = if x = k ∧ s = sel then some m else vm.ownMethod s x := by
  obtain ⟨vm', he, _, hown⟩ := installMethod_spec h.dictsValid k sel m
  exact ⟨vm', he, h.install he, hown⟩

/-- The global lookup cache is coherent after any interleaving of lookups,
installs and collections: a lookup answers what the uncached search of the
current hierarchy answers, and no entry pairs a key with another key's method. -/
theorem lookup_coherent (h : LookupReach vm) : (∀ k sel, (vm.lookup k sel).1 = vm.lookupUncached k sel) ∧
    (∀ k sel m, (vm.lookupCache.probe k sel).1 = some m → vm.lookupUncached k sel = some m) ∧
    ∀ i, (vm.lookupCache.entries i).isEmpty = false →
      vm.lookupUncached (vm.lookupCache.entries i).klass (vm.lookupCache.entries i).selector =
        some (vm.lookupCache.entries i).method := by
  have hc := h.cacheCoherent
  exact ⟨hc.lookup_eq, fun k sel m hm => LookupCache.Agrees.probe_hit hc hm, hc⟩

theorem lookup_coherent_after_install : ∃ vm, LookupReach vm ∧
    vm.lookupUncached ⟨16⟩ ⟨24⟩ = some ⟨32⟩ ∧ (vm.lookup ⟨16⟩ ⟨24⟩).1 = some ⟨32⟩ := by
  have hboot := LookupReach.boot (.flat fun _ => ⟨24⟩) (fun _ _ => (⟨24⟩, 0)) none
  obtain ⟨vm, _, hreach, hown⟩ := hboot.install_total ⟨16⟩ ⟨24⟩ ⟨32⟩
  have hl : vm.lookupUncached ⟨16⟩ ⟨24⟩ = some ⟨32⟩ := by
    apply Forest.firstOn_of_some
    rw [hown]
    rfl
  exact ⟨vm, hreach, hl, ((lookup_coherent hreach).1 ⟨16⟩ ⟨24⟩).trans hl⟩

end WinArmVm.VmState
