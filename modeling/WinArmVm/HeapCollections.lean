import WinArmVm.FullGcGraph
import WinArmVm.ScavengeGraph
import WinArmVm.RawAllocation

namespace WinArmVm

open List HeapView NmethodRoots Tiling

namespace HeapView

/-- The heap `v` seen at new places. -/
def carried (v : HeapView) (f : Nat → Nat) (eden survivors old : List Nat) : HeapView where
  eden := eden.map f
  survivors := survivors.map f
  old := old.map f
  shape x :=
    match (eden ++ survivors ++ old).find? fun a => f a == x with
    | some a => { v.shape a with klass := f (v.shape a).klass }
    | none => v.shape x

/-- The objects `l` are found in `m'` where `f` says. -/
structure Carried (v : HeapView) (m : Memory) (f : Nat → Nat) (l : List Nat) (m' : Memory) : Prop where
  objects : ∀ a ∈ l, a ∈ v.objects
  sharing : ∀ a ∈ l, ∀ b ∈ l, f a = f b → a = b
  object : ∀ a ∈ l, m'.Object (f a) (f (v.shape a).klass) (v.shape a)
  header : ∀ a ∈ l, ∃ k, m' (f a) = .mark k ∧ k.gcMark = false
  oops : ∀ a ∈ l, ∀ j ∈ v.oopWords a, m' (f a + 8 * j) = (m (a + 8 * j)).rename f
  closed : ∀ a ∈ l, ∀ j ∈ v.oopWords a, ∀ x, m (a + 8 * j) = .mem x → x ∈ l

structure Hosts (v : HeapView) (f : Nat → Nat) (es ss os : List Nat) (m' : Memory) (u' : Universe) : Prop where
  geometry : u'.Geometry
  eden : Tiles f v.bytes u'.eden.start es u'.eden.top
  survivors : Tiles f v.bytes u'.fromSpace.start ss u'.fromSpace.top
  old : Tiles f v.bytes u'.old.start os u'.old.top
  to_empty : u'.toSpace.top = u'.toSpace.start
  no_stall : u'.pendingStall = false
  resolves : u'.Resolves (os.map fun a => (f a, v.bytes a))
  remembered : ∀ a ∈ os, ∀ j ∈ v.oopWords a, u'.isNewOop (m' (f a + 8 * j)) = true →
    u'.cards (u'.cardIndex (f a + 8 * j)) = true

variable {v : HeapView} {m m' : Memory} {u u' : Universe} {f : Nat → Nat} {eden survivors old : List Nat} {a : Nat}

namespace Carried

section

variable (h : v.Carried m f (eden ++ survivors ++ old) m')

include h

theorem shape (ha : a ∈ eden ++ survivors ++ old) :
    (v.carried f eden survivors old).shape (f a) = { v.shape a with klass := f (v.shape a).klass } := by
  unfold carried
  dsimp only
  cases hf : (eden ++ survivors ++ old).find? fun b => f b == f a with
  | none =>
    have := find?_eq_none.mp hf a ha
    simp at this
  | some b =>
    have he : f b = f a := by simpa using find?_some hf
    cases h.sharing b (mem_of_find?_eq_some hf) a ha he
    rfl

theorem bytes (ha : a ∈ eden ++ survivors ++ old) : (v.carried f eden survivors old).bytes (f a) = v.bytes a := by
  unfold HeapView.bytes
  rw [h.shape ha]
  rfl

theorem oopWords (ha : a ∈ eden ++ survivors ++ old) :
    (v.carried f eden survivors old).oopWords (f a) = v.oopWords a := by
  unfold HeapView.oopWords
  rw [h.shape ha]
  rfl

omit h in
theorem mem {x : Nat} : x ∈ (v.carried f eden survivors old).objects ↔ ∃ a ∈ eden ++ survivors ++ old, f a = x := by
  unfold HeapView.objects young carried
  dsimp only
  rw [← map_append, ← map_append, mem_map]

omit h in
theorem valid {w : Word} (hw : ∀ x, w = .mem x → x ∈ eden ++ survivors ++ old) :
    (v.carried f eden survivors old).Valid (w.rename f) := by
  intro x hx
  cases w with
  | mem a =>
    cases hx
    exact mem.mpr ⟨a, hw a rfl, rfl⟩
  | smi i => cases hx
  | mark k => cases hx
  | bits b => cases hx

theorem coherent (hw : v.Coherent m u) (hh : v.Hosts f eden survivors old m' u') :
    (v.carried f eden survivors old).Coherent m' u' := by
  have heden : ∀ a ∈ eden, a ∈ eden ++ survivors ++ old := fun a ha => by simp [ha]
  have hfrom : ∀ a ∈ survivors, a ∈ eden ++ survivors ++ old := fun a ha => by simp [ha]
  have hold : ∀ a ∈ old, a ∈ eden ++ survivors ++ old := fun a ha => by simp [ha]
  refine ⟨hh.geometry, hh.eden.map (fun _ _ => rfl) fun a ha => h.bytes (heden a ha),
    hh.survivors.map (fun _ _ => rfl) fun a ha => h.bytes (hfrom a ha),
    hh.old.map (fun _ _ => rfl) fun a ha => h.bytes (hold a ha), hh.to_empty, hh.no_stall, fun x hx => ?_, fun x hx => ?_,
    fun x hx j hj => ?_, ?_, fun x hx j hj => ?_⟩
  · obtain ⟨a, ha, rfl⟩ := mem.mp hx
    have hs := hw.shaped a (h.objects a ha)
    have hfield : m (a + 8 * 1) = .mem (v.shape a).klass := hs.klass
    have hk := h.closed a ha 1 mem_cons_self _ hfield
    have hr := (h.object a ha).2
    have hslot := h.oops a ha 1 mem_cons_self
    rw [hfield] at hslot
    refine ⟨?_, ?_, ?_, ?_, ?_⟩
    · rw [h.shape ha]
      exact hslot
    · rw [h.shape ha]
      exact ⟨hr.format, hr.nis, hr.nis_ge, hr.len⟩
    · rw [h.shape ha]
      exact mem.mpr ⟨_, hk, rfl⟩
    · rw [h.shape ha, h.shape hk]
      exact hs.klass_format
    · rw [h.shape ha]
      exact hs.klass_nis
  · obtain ⟨a, ha, rfl⟩ := mem.mp hx
    exact h.header a ha
  · obtain ⟨a, ha, rfl⟩ := mem.mp hx
    rw [h.oopWords ha] at hj
    rw [h.oops a ha j hj]
    exact Carried.valid fun x hx => h.closed a ha j hj x hx
  · have hblocks : (v.carried f eden survivors old).oldBlocks = old.map fun a => (f a, v.bytes a) := by
      unfold oldBlocks
      show (old.map f).map _ = _
      rw [map_map]
      apply map_congr_left
      intro a ha
      show (f a, (v.carried f eden survivors old).bytes (f a)) = _
      rw [h.bytes (hold a ha)]
    rw [hblocks]
    exact hh.resolves
  · obtain ⟨a, ha, rfl⟩ := mem_map.mp hx
    rw [h.oopWords (hold a ha)] at hj
    exact hh.remembered a ha j hj

theorem wellFormed (hw : v.WellFormed m u) (hh : v.Hosts f eden survivors old m' u') :
    (v.carried f eden survivors old).WellFormed m' u' := by
  refine ⟨h.coherent hw.toCoherent hh, fun x hx => ?_⟩
  obtain ⟨a, ha, rfl⟩ := mem.mp hx
  rw [h.shape ha]
  exact hw.sizes a (h.objects a ha)

end

end Carried

section

variable {r : Roots} (hw : v.WellFormed m u) (hvalid : ∀ w ∈ r.words, v.Valid w)

theorem kept_live {w : Word} (hw : w ∈ (v.kept m r).words) {x : Nat} (hx : w = .mem x) : v.Live m r.strong x := by
  have hroot : w ∈ r.strong → v.Live m r.strong x := fun h => Live.root (hx ▸ h)
  unfold Roots.words at hw
  unfold Roots.strong at hroot
  rcases mem_append.mp hw with hw | hw
  · exact hroot (mem_append.mpr (.inl hw))
  · obtain ⟨nm, hnm, hw⟩ := mem_flatMap.mp hw
    obtain ⟨hnm, hkept⟩ := mem_filter.mp hnm
    have hstrong : w ∈ nm.strong → v.Live m r.strong x := fun h =>
      hroot (mem_append.mpr (.inr (mem_flatMap.mpr ⟨nm, hnm, h⟩)))
    unfold strong at hstrong
    by_cases halive : nm.alive = true
    · rw [if_pos halive] at hstrong hkept
      rcases mem_append.mp hw with hw | hw
      · exact hstrong hw
      · -- the key of an nmethod that is entered is weak: the sweep has kept it for a live one
        obtain ⟨a, hkey, hlive⟩ : ∃ a, nm.key = .mem a ∧ v.Live m r.strong a := by simpa using hkept
        rw [mem_singleton.mp hw, hkey] at hx
        cases hx
        exact hlive
    · rw [if_neg halive] at hstrong
      exact hstrong hw

include hw

theorem Compacted.shrinks (h : v.Compacted m u r.strong f m' u') :
    u'.eden.top ≤ u.eden.top ∧ u'.fromSpace.top ≤ u.fromSpace.top ∧ u'.old.top ≤ u.old.top := by
  have hsum (l : List Nat) : ((v.alive m r.strong l).map v.bytes).sum ≤ (l.map v.bytes).sum :=
    (filter_sublist.map v.bytes).sum_le_sum fun _ _ => Nat.zero_le _
  have h₁ := hsum v.eden
  have h₂ := hsum v.survivors
  have h₃ := hsum v.old
  have := h.eden.length_eq
  have := hw.eden.length_eq
  have := h.survivors.length_eq
  have := hw.survivors.length_eq
  have := h.old.length_eq
  have := hw.old.length_eq
  omega

theorem Compacted.hosts (h : v.Compacted m u r.strong f m' u') : v.Hosts f (v.alive m r.strong v.eden)
    (v.alive m r.strong v.survivors) (v.alive m r.strong v.old) m' u' := by
  have hg := hw.geometry
  obtain ⟨heden, hfrom, hold⟩ := h.shrinks hw
  have h₁ := h.eden.le
  have h₂ := h.survivors.le
  have h₃ := h.old.le
  have hstart : u'.eden.start = u.eden.start ∧ u'.eden.stop = u.eden.stop := by rw [h.frame]; exact ⟨rfl, rfl⟩
  have hfstart : u'.fromSpace.start = u.fromSpace.start ∧ u'.fromSpace.stop = u.fromSpace.stop := by
    rw [h.frame]; exact ⟨rfl, rfl⟩
  have hostart : u'.old.start = u.old.start ∧ u'.old.bound = u.old.bound ∧ u'.old.committedEnd = u.old.committedEnd := by
    rw [h.frame]; exact ⟨rfl, rfl, rfl⟩
  have hto : u'.toSpace = u.toSpace ∧ u'.nCards = u.nCards ∧ u'.pendingStall = u.pendingStall := by
    rw [h.frame]; exact ⟨rfl, rfl, rfl⟩
  have hedenle := hg.eden_le
  have hfromle := hg.from_le
  have holdle := hg.old_le
  refine ⟨⟨by omega, by omega, hto.1 ▸ hg.to_le, by omega, ?_, ?_, ?_, ?_, ?_, ?_⟩, ?_, ?_, ?_, ?_, ?_, h.resolves,
    fun a ha j hj _ => ?_⟩
  · rw [hstart.2, hfstart.1]
    exact hg.eden_from
  · rw [hstart.2, hto.1]
    exact hg.eden_to
  · rw [hfstart.1, hfstart.2, hto.1]
    exact hg.from_to
  · rw [hfstart.2, hostart.1]
    exact hg.from_old
  · rw [hto.1, hostart.1]
    exact hg.to_old
  · rw [hostart.1, hostart.2.1, hto.2.1]
    exact hg.cards
  · rw [hstart.1]
    exact h.eden
  · rw [hfstart.1]
    exact h.survivors
  · rw [hostart.1]
    exact h.old
  · rw [hto.1]
    exact hw.to_empty
  · rw [hto.2.2]
    exact hw.no_stall
  · have hb := h.old.bounds ha
    have hlt := (oopWords_lt (hw.nis_ge (mem_objects.mpr (.inr (mem_alive.mp ha).1))) hj).2
    have hbytes := v.bytes_eq a
    exact h.dirty _ (by omega) (by omega)

include hvalid

theorem Compacted.carried (h : v.Compacted m u r.strong f m' u') :
    v.Carried m f (v.alive m r.strong v.eden ++ v.alive m r.strong v.survivors ++ v.alive m r.strong v.old) m' := by
  rw [← alive_objects]
  have hstrong : ∀ w ∈ r.strong, v.Valid w := fun w hw => hvalid w (strong_subset r hw)
  refine ⟨fun a ha => (mem_alive.mp ha).1, fun a ha b hb he => h.sharing a b (mem_alive.mp ha).2 (mem_alive.mp hb).2 he,
    fun a ha => h.object a (mem_alive.mp ha).2, fun a ha => ?_, fun a ha j hj => h.oops a (mem_alive.mp ha).2 j hj,
    fun a ha j hj x hx => ?_⟩
  · obtain ⟨hobj, hlive⟩ := mem_alive.mp ha
    obtain ⟨k, hk, hclear⟩ := hw.marks a hobj
    obtain ⟨t, _, hm⟩ := h.header a hlive k hk
    exact ⟨_, hm, hclear⟩
  · have hlive := Live.child (mem_alive.mp ha).2 hj hx
    exact mem_alive.mpr ⟨live_object hw hstrong hlive, hlive⟩

end

section

variable {m₀ : Memory} {u₀ : Universe} {c : Copies} {ws ws' : List Word}

theorem rename_of_renamed {w w' : Word} (h : Renamed f w w') : w' = w.rename f := by
  cases w with
  | mem x => exact h
  | smi i => exact h
  | mark k => exact h
  | bits b => exact h

namespace Ended

theorem words (h : v.Ended m₀ u₀ m u c ws ws') : ws' = ws.map (Word.rename c.fate) := by
  have ht := h.copying.targets
  have hroots := h.roots
  clear h
  induction hroots with
  | nil => rfl
  | cons hw _ ih => rw [map_cons, ← ih, rename_of_renamed (hw.renamed ht)]

variable (hw : v.Coherent m₀ u₀) (h : v.Ended m₀ u₀ m u c ws ws')

include hw h

theorem holder_iff : v.Holder c (a, c.fate a) ↔
    a ∈ [] ++ c.survivors.map Prod.fst ++ (v.old ++ c.promoted.map Prod.fst) := by
  have ht := h.copying.targets
  have hpair (l : List (Nat × Nat)) (hl : ∀ p ∈ l, p ∈ c.pairs) : a ∈ l.map Prod.fst → (a, c.fate a) ∈ l := by
    intro ha
    obtain ⟨p, hp, rfl⟩ := mem_map.mp ha
    rw [Copies.fate_pair ht.once (hl p hp)]
    exact hp
  unfold Holder Copies.pairs
  rw [nil_append, mem_append, mem_append, mem_append]
  constructor
  · intro hp
    rcases hp with (hp | hp) | ⟨ho, _⟩
    · exact .inl (mem_map.mpr ⟨_, hp, rfl⟩)
    · exact .inr (.inr (mem_map.mpr ⟨_, hp, rfl⟩))
    · exact .inr (.inl ho)
  · intro ha
    rcases ha with ha | ho | ha
    · exact .inl (.inl (hpair _ (fun p hp => mem_append.mpr (.inl hp)) ha))
    · exact .inr ⟨ho, fate_not_young ht fun hy => hw.not_old_of_young hy ho⟩
    · exact .inl (.inr (hpair _ (fun p hp => mem_append.mpr (.inr hp)) ha))

theorem carried : v.Carried m₀ c.fate ([] ++ c.survivors.map Prod.fst ++ (v.old ++ c.promoted.map Prod.fst)) m := by
  have ht := h.copying.targets
  refine ⟨fun a ha => holder_object ht ((h.holder_iff hw).mpr ha), fun a ha b hb he => ?_,
    fun a ha => h.object hw ((h.holder_iff hw).mpr ha), fun a ha => ?_, fun a ha j hj => ?_, fun a ha j hj x hx => ?_⟩
  · have hpa := (h.holder_iff hw).mpr ha
    have hpb := (h.holder_iff hw).mpr hb
    have hsa := hw.size_ge (holder_object ht hpa)
    have hsb := hw.size_ge (holder_object ht hpb)
    have hpair := (holder_word_inj hw ht hpa hpb (i := 0) (j := 0) (by omega) (by omega) (by rw [he])).1
    exact congrArg Prod.fst hpair
  · have hp := (h.holder_iff hw).mpr ha
    obtain ⟨k, k', hk, hk', _, _, _, hgc⟩ := h.copying.contents.marks _ hp
    obtain ⟨k₀, hk₀, hclear⟩ := hw.marks a (holder_object ht hp)
    cases hk₀.symm.trans hk
    exact ⟨k', hk', hgc.trans hclear⟩
  · exact rename_of_renamed ((h.slot hw ((h.holder_iff hw).mpr ha) hj).renamed ht)
  · have hp := (h.holder_iff hw).mpr ha
    have hm := h.slot hw hp hj
    rw [hx] at hm
    exact (h.holder_iff hw).mp (hm.holder ht (hw.slots a (holder_object ht hp) j hj x hx))

theorem hosts (hroom : Room u₀) :
    v.Hosts c.fate [] (c.survivors.map Prod.fst) (v.old ++ c.promoted.map Prod.fst) m u.swapSpaces := by
  have ht := h.copying.targets
  have hg := hw.geometry
  have hfate : ∀ p ∈ c.pairs, c.fate p.1 = p.2 := fun p hp => Copies.fate_pair ht.once hp
  have hstay : ∀ a ∈ v.old, c.fate a = a := fun a ha => fate_not_young ht fun hy => hw.not_old_of_young hy ha
  have hsurvive : ∀ p ∈ c.survivors, c.fate p.1 = p.2 := fun p hp => hfate p (mem_append.mpr (.inl hp))
  have hpromote : ∀ p ∈ c.promoted, c.fate p.1 = p.2 := fun p hp => hfate p (mem_append.mpr (.inr hp))
  have htop := ht.promoted.le
  have hle := ht.survivors.le
  have hcopied := copied_le hw ht
  have hto := ht.to_same
  have hold := ht.old_same
  have hfromle := hg.from_le
  have htole := hg.to_le
  have holdle := hg.old_le
  have hbelow := ht.to_le
  have hcards := ht.nCards
  have hstart : (u.swapSpaces).old = u.old ∧ (u.swapSpaces).fromSpace = u.toSpace ∧
      (u.swapSpaces).toSpace = u₀.fromSpace.reset ∧ (u.swapSpaces).eden = u₀.eden.reset := by
    rw [← ht.fromSpace, ← ht.eden]
    exact ⟨rfl, rfl, rfl, rfl⟩
  obtain ⟨hold', hfrom', hto', heden'⟩ := hstart
  unfold Room OldGen.freeBytes at hroom
  have hblocks : (v.old ++ c.promoted.map Prod.fst).map (fun a => (c.fate a, v.bytes a)) =
      v.oldBlocks ++ c.promoted.map fun p => (p.2, v.bytes p.1) := by
    unfold oldBlocks
    rw [map_append, map_map]
    congr 1
    · exact map_congr_left fun a ha => by rw [hstay a ha]
    · exact map_congr_left fun p hp => by
        show (c.fate p.1, v.bytes p.1) = _
        rw [hpromote p hp]
  refine ⟨⟨?_, ?_, ?_, ?_, ?_, ?_, ?_, ?_, ?_, ?_⟩, ?_, ?_, ?_, ?_, ht.no_stall, ?_, fun a ha j hj hnew => ?_⟩
  · rw [heden']
    exact ⟨Nat.le_refl _, Nat.le_trans hg.eden_le.1 hg.eden_le.2⟩
  · rw [hfrom']
    exact ⟨by omega, hbelow⟩
  · rw [hto']
    exact ⟨Nat.le_refl _, Nat.le_trans hfromle.1 hfromle.2⟩
  · rw [hold']
    omega
  · rw [heden', hfrom', hto.1]
    exact hg.eden_to
  · rw [heden', hto']
    exact hg.eden_from
  · rw [hfrom', hto', hto.1, hto.2]
    exact hg.from_to.symm
  · rw [hfrom', hold', hto.2, hold.1]
    exact hg.to_old
  · rw [hto', hold', hold.1]
    exact hg.from_old
  · rw [hold', hold.1, hold.2.1]
    show _ ≤ u.nCards * cardSize
    rw [hcards]
    exact hg.cards
  · rw [heden']
    exact Tiles.nil _
  · rw [hfrom', hto.1]
    exact ht.survivors.map (fun p hp => hsurvive p hp) fun _ _ => rfl
  · rw [hold', hold.1]
    exact (hw.old.congr hstay fun _ _ => rfl).append (ht.promoted.map (fun p hp => hpromote p hp) fun _ _ => rfl)
  · rw [hto']
    rfl
  · rw [hblocks]
    exact ht.resolves.congr rfl rfl rfl
  · have hcard : (u.swapSpaces).cardIndex (c.fate a + 8 * j) = u.cardIndex (c.fate a + 8 * j) := rfl
    have hcards' : (u.swapSpaces).cards = u.cards := rfl
    have hobj := (h.carried hw).objects a (mem_append.mpr (.inr ha))
    rw [hcard, hcards']
    rcases mem_append.mp ha with ha | ha
    · rw [hstay a ha] at hnew ⊢
      exact ht.remembered a ha j hj hnew
    · obtain ⟨p, hp, rfl⟩ := mem_map.mp ha
      have hb := ht.promoted.bounds hp
      have hlt := (oopWords_lt (hw.nis_ge hobj) hj).2
      have hbytes := v.bytes_eq p.1
      rw [hpromote p hp]
      exact ht.dirty _ (by omega) (by omega)

end Ended

end

end HeapView

theorem Roots.rename_words (r : Roots) (f : Nat → Nat) : (r.rename f).words = r.words.map (Word.rename f) := by
  have hnm : ∀ l : List NmethodRoots, (l.map (NmethodRoots.rename f)).flatMap NmethodRoots.words =
      (l.flatMap NmethodRoots.words).map (Word.rename f) := by
    intro l
    induction l with
    | nil => rfl
    | cons nm l ih =>
      rw [map_cons, flatMap_cons, flatMap_cons, map_append, ih]
      unfold NmethodRoots.words NmethodRoots.rename
      rw [map_append]
      rfl
  unfold Roots.words
  rw [map_append, map_append, ← hnm]
  rfl

namespace VmHeap

/-- `v` says where the objects of the heap are, and the roots lead nowhere else. -/
structure Sound (h : VmHeap) (v : HeapView) : Prop where
  wellFormed : v.WellFormed h.m h.u
  roots : ∀ w ∈ h.roots.words, v.Valid w

def Reserved (h : VmHeap) : Prop := h.u.old.top + h.worstCase ≤ h.u.old.bound

/-- `h'` is `h` collected or grown: its objects are where `v'` says, and no space holds more. -/
structure Collected (h h' : VmHeap) (v' : HeapView) : Prop where
  sound : h'.Sound v'
  bound : h'.u.old.bound = h.u.old.bound
  worst : h'.worstCase ≤ h.worstCase
  spent : h'.u.old.top + h'.worstCase ≤ h.u.old.top + h.worstCase

variable {h h' h'' : VmHeap} {v v' v'' : HeapView}

theorem Collected.trans (hc : h.Collected h' v') (hc' : h'.Collected h'' v'') : h.Collected h'' v'' where
  sound := hc'.sound
  bound := hc'.bound.trans hc.bound
  worst := Nat.le_trans hc'.worst hc.worst
  spent := Nat.le_trans hc'.spent hc.spent

theorem Collected.reserved (hc : h.Collected h' v') (hr : h.Reserved) : h'.Reserved := by
  have := hc.bound
  have := hc.spent
  unfold Reserved at hr ⊢
  omega

theorem Collected.grown (hs : h.Sound v) {e : Nat} (hlow : h.u.old.committedEnd ≤ e) (hhigh : e ≤ h.u.old.bound)
    (hu : h'.u = { h.u with old := { h.u.old with committedEnd := e } }) (hm : h'.m = h.m) (hr : h'.roots = h.roots) :
    h.Collected h' v := by
  have hw := hs.wellFormed
  have hgeo := hw.geometry
  have hworst : h'.worstCase = h.worstCase := by
    unfold worstCase
    rw [hu]
  have hold : h'.u.old.top = h.u.old.top ∧ h'.u.old.bound = h.u.old.bound := by
    rw [hu]
    exact ⟨rfl, rfl⟩
  refine ⟨⟨⟨?_, hw.sizes⟩, ?_⟩, hold.2, by omega, by omega⟩
  · rw [hu, hm]
    have hle := hgeo.old_le
    exact ⟨⟨hgeo.eden_le, hgeo.from_le, hgeo.to_le, ⟨hle.1, Nat.le_trans hle.2.1 hlow, hhigh⟩, hgeo.eden_from,
      hgeo.eden_to, hgeo.from_to, hgeo.from_old, hgeo.to_old, hgeo.cards⟩, hw.eden, hw.survivors, hw.old, hw.to_empty,
      hw.no_stall, hw.shaped, hw.marks, hw.slots, hw.resolves.congr rfl rfl rfl, hw.remembered⟩
  · rw [hr]
    exact hs.roots

theorem Collected.grown_segment (hs : h.Sound v) (segment : Nat) :
    h.Collected (h.growOld (h.u.old.grow segment)) v := by
  have hle := hs.wellFormed.geometry.old_le
  have hlow : h.u.old.committedEnd ≤ min (h.u.old.committedEnd + max segment 1) h.u.old.bound :=
    Nat.le_min.mpr ⟨Nat.le_add_right _ _, hle.2.2⟩
  exact Collected.grown hs hlow (Nat.min_le_right _ _) rfl rfl rfl

theorem fullGc_collects (hs : h.Sound v) (hrun : h.fullGc = some h') : ∃ v', h.Collected h' v' := by
  have hw := hs.wellFormed
  obtain ⟨m₁, f, m', hf, hgc, hrel, hheaders⟩ := fullGc_spec hw hs.roots
  have hc := hf.compacted hw hs.roots hrel hheaders
  generalize f.spaces.post = u' at hgc hc
  generalize f.afterOld.1.destination = g at hgc hc
  unfold VmHeap.fullGc at hrun
  by_cases hg : h.gcEnabled = true
  · rw [if_pos hg, hgc] at hrun
    cases hrun
    have hcarried := hc.carried hw hs.roots
    have hlive {a : Nat} (ha : v.Live h.m h.roots.strong a) : a ∈ v.alive h.m h.roots.strong v.eden ++
        v.alive h.m h.roots.strong v.survivors ++ v.alive h.m h.roots.strong v.old := by
      rw [← alive_objects]
      exact mem_alive.mpr ⟨live_object hw (fun w hw => hs.roots w (strong_subset _ hw)) ha, ha⟩
    have hshrinks := hc.shrinks hw
    have hstart : u'.eden.start = h.u.eden.start ∧ u'.fromSpace.start = h.u.fromSpace.start ∧
        u'.old.bound = h.u.old.bound := by
      rw [hc.frame]
      exact ⟨rfl, rfl, rfl⟩
    have hworst : (u'.eden.top - u'.eden.start) + (u'.fromSpace.top - u'.fromSpace.start) ≤ h.worstCase := by
      unfold worstCase
      omega
    refine ⟨_, ⟨hcarried.wellFormed hw (hc.hosts hw), fun w hmem => ?_⟩, hstart.2.2, hworst,
      Nat.add_le_add hshrinks.2.2 hworst⟩
    have hmem : w ∈ ((v.kept h.m h.roots).rename g).words := hmem
    rw [Roots.rename_words] at hmem
    obtain ⟨w₀, hkept, rfl⟩ := mem_map.mp hmem
    exact HeapView.Carried.valid fun x hx => hlive (kept_live hkept hx)
  · rw [if_neg hg] at hrun
    cases hrun

theorem fullGc_runs (hs : h.Sound v) (hg : h.gcEnabled = true) : h.fullGc.isSome = true := by
  obtain ⟨m₁, f, m', _, hgc, _⟩ := fullGc_spec hs.wellFormed hs.roots
  unfold VmHeap.fullGc
  rw [if_pos hg, hgc]
  rfl

theorem scavenge_collects (hs : h.Sound v) (hroom : HeapView.Room h.u) :
    ∃ h' v', h.scavenge = some h' ∧ h.Collected h' v' := by
  have hw := hs.wellFormed
  obtain ⟨r', m', u', c, hrun, hcopying, hroots⟩ := scavenge_spec hw.toCoherent hroom hs.roots
  have he : v.Ended h.m h.u m' u' c h.roots.words r'.words := ⟨hcopying, hroots⟩
  have hcopied := copied_le hw.toCoherent hcopying.targets
  have hpromoted := hcopying.targets.promoted.le
  have hmem {a : Nat} (ha : .mem a ∈ h.roots.words) :
      a ∈ [] ++ c.survivors.map Prod.fst ++ (v.old ++ c.promoted.map Prod.fst) :=
    (he.holder_iff hw.toCoherent).mp (he.holder hw.toCoherent hs.roots (Memory.Reachable.root ha))
  refine ⟨{ h with roots := r', m := m', u := u'.swapSpaces }, _, ?_, ⟨(he.carried hw.toCoherent).wellFormed hw
    (he.hosts hw.toCoherent hroom), fun w hw' => ?_⟩, hcopying.targets.old_same.2.1, ?_, ?_⟩
  · unfold VmHeap.scavenge
    rw [hrun]
    rfl
  · have hw' : w ∈ r'.words := hw'
    rw [he.words] at hw'
    obtain ⟨w₀, hw₀, rfl⟩ := mem_map.mp hw'
    exact HeapView.Carried.valid fun x hx => hmem (hx ▸ hw₀)
  · show (u'.eden.start - u'.eden.start) + (u'.toSpace.top - u'.toSpace.start) ≤ h.worstCase
    unfold worstCase
    omega
  · show u'.old.top + ((u'.eden.start - u'.eden.start) + (u'.toSpace.top - u'.toSpace.start)) ≤ _
    unfold worstCase
    omega

theorem growFor_spec (worst turns : Nat) {o : OldGen} (hle : o.committedEnd ≤ o.bound) :
    ∃ e, o.growFor worst turns = { o with committedEnd := e } ∧ o.committedEnd ≤ e ∧ e ≤ o.bound ∧
      (o.bound - o.committedEnd < turns → worst ≤ e - o.top ∨ e = o.bound) := by
  obtain ⟨segment, hsegment⟩ : ∃ segment, segment = oldGrowthSegment := ⟨_, rfl⟩
  induction turns generalizing o with
  | zero => exact ⟨o.committedEnd, rfl, Nat.le_refl _, hle, fun h => absurd h (by omega)⟩
  | succ turns ih =>
    unfold OldGen.growFor OldGen.freeBytes
    rw [← hsegment]
    have hgrow : (o.grow segment).committedEnd = min (o.committedEnd + max segment 1) o.bound := rfl
    have hone := Nat.le_max_right segment 1
    by_cases hfree : o.committedEnd - o.top < worst
    · rw [if_pos hfree]
      by_cases hfull : (o.grow segment).committedEnd = o.committedEnd
      · rw [if_pos hfull]
        exact ⟨o.committedEnd, rfl, Nat.le_refl _, hle, fun _ => .inr (by omega)⟩
      · rw [if_neg hfull]
        obtain ⟨e, he, hlow, hhigh, hend⟩ := ih (o := o.grow segment) (by rw [hgrow]; exact Nat.min_le_right _ _)
        have hbound : (o.grow segment).bound = o.bound := rfl
        rw [hbound] at hhigh hend
        exact ⟨e, he, by omega, hhigh, fun h => hend (by omega)⟩
    · rw [if_neg hfree]
      exact ⟨o.committedEnd, rfl, Nat.le_refl _, hle, fun _ => .inl (by omega)⟩

section

variable (hs : h.Sound v) (hres : h.Reserved)

include hs hres

theorem ensurePromotionGuarantee_collects (hrun : h.ensurePromotionGuarantee = some h') :
    ∃ v', h.Collected h' v' ∧ HeapView.Room h'.u := by
  unfold ensurePromotionGuarantee at hrun
  dsimp only at hrun
  split at hrun
  next =>
    obtain ⟨h₁, hgc, hrun⟩ := Option.bind_eq_some_iff.mp hrun
    cases hrun
    obtain ⟨v₁, hm⟩ := fullGc_collects hs hgc
    have hgeo := hm.sound.wellFormed.geometry.old_le
    obtain ⟨e, he, hlow, hhigh, hend⟩ := growFor_spec h.worstCase (h₁.u.old.bound - h₁.u.old.committedEnd + 1) hgeo.2.2
    refine ⟨v₁, hm.trans (Collected.grown hm.sound hlow hhigh ?_ rfl rfl), ?_⟩
    · exact congrArg (fun o => { h₁.u with old := o }) he
    · have hroom := hend (Nat.lt_succ_self _)
      have hres₁ := hm.reserved hres
      have hworst := hm.worst
      unfold Reserved at hres₁
      show h₁.worstCase ≤ (h₁.u.old.growFor _ _).freeBytes
      rw [he]
      show h₁.worstCase ≤ e - h₁.u.old.top
      omega
  next hshort =>
    cases hrun
    exact ⟨v, Collected.grown hs (Nat.le_refl _) hs.wellFormed.geometry.old_le.2.2 rfl rfl rfl, Nat.le_of_not_lt hshort⟩

omit hres in
theorem ensurePromotionGuarantee_runs (hg : h.gcEnabled = true) : h.ensurePromotionGuarantee.isSome = true := by
  unfold ensurePromotionGuarantee
  obtain ⟨h₁, hgc⟩ := Option.isSome_iff_exists.mp (fullGc_runs hs hg)
  by_cases hshort : h.u.old.freeBytes < h.worstCase
  · simp [hshort, hgc]
  · simp [hshort]

theorem collectYoung_collects (hrun : h.collectYoung = some h') : ∃ v', h.Collected h' v' := by
  unfold collectYoung at hrun
  obtain ⟨h₁, hensure, hrun⟩ := Option.bind_eq_some_iff.mp hrun
  obtain ⟨v₁, hm, hroom⟩ := ensurePromotionGuarantee_collects hs hres hensure
  obtain ⟨h₂, v₂, hscavenge, hm'⟩ := scavenge_collects hm.sound hroom
  cases hscavenge.symm.trans hrun
  exact ⟨v₂, hm.trans hm'⟩

theorem collectYoung_runs (hg : h.gcEnabled = true) : h.collectYoung.isSome = true := by
  obtain ⟨h₁, hensure⟩ := Option.isSome_iff_exists.mp (ensurePromotionGuarantee_runs hs hg)
  obtain ⟨v₁, hm, hroom⟩ := ensurePromotionGuarantee_collects hs hres hensure
  obtain ⟨h₂, v₂, hscavenge, _⟩ := scavenge_collects hm.sound hroom
  unfold collectYoung
  simp [hensure, hscavenge]

end

end VmHeap

end WinArmVm
