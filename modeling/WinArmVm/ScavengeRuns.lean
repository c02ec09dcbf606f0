import WinArmVm.ScavengeTrace

namespace WinArmVm

open List Tiling Option

def NmethodRoots.words (nm : NmethodRoots) : List Word := nm.oops ++ [nm.key]

def Roots.words (r : Roots) : List Word := r.plain ++ r.code ++ r.nmethods.flatMap NmethodRoots.words

namespace HeapView

variable {v : HeapView} {m₀ m m' : Memory} {u₀ u u' : Universe} {c c' : Copies}
  {done : Nat → Prop} {a x i j : Nat} {p : Nat × Nat}

theorem moved_forall {l l' : List Word} (h : List.Forall₂ (v.Moved c) l l') (he : c.Extends c') :
    List.Forall₂ (v.Moved c') l l' := h.imp fun _ _ hm => hm.mono he.subset

section

variable (hw : v.Coherent m₀ u₀)

include hw

theorem mapRoots_spec (hroom : Room u₀) {ws : List Word}
    (hvalid : ∀ w ∈ ws, v.Valid w) (h : v.Copying m₀ u₀ m u c done) :
    ∃ ws' m' u' c', Memory.mapRoots Universe.scavengeOop ws m u = some (ws', m', u') ∧
      v.Copying m₀ u₀ m' u' c' done ∧ List.Forall₂ (v.Moved c') ws ws' ∧ c.Extends c' := by
  induction ws generalizing m u c with
  | nil => exact ⟨[], m, u, c, rfl, h, List.Forall₂.nil, Copies.Extends.refl c⟩
  | cons w ws ih =>
    obtain ⟨w', m₁, u₁, c₁, hrun₁, h₁, hm₁, hk₁⟩ := scavengeOop_spec hw hroom h (hvalid w mem_cons_self)
    obtain ⟨ws', m', u', c', hrun, h', hm, he⟩ := ih (fun w hw => hvalid w (mem_cons_of_mem _ hw)) h₁
    refine ⟨w' :: ws', m', u', c', ?_, h', List.Forall₂.cons (hm₁.mono he.subset) hm, hk₁.extends_.trans he⟩
    unfold Memory.mapRoots
    simp only [hrun₁, hrun, bind_eq_bind, bind_some, Option.pure_def]

theorem visitNmethods_spec (hroom : Room u₀) {l : List NmethodRoots}
    (hvalid : ∀ w ∈ l.flatMap NmethodRoots.words, v.Valid w) (h : v.Copying m₀ u₀ m u c done) :
    ∃ l' m' u' c', visitNmethods Universe.scavengeOop l m u = some (l', m', u') ∧
      v.Copying m₀ u₀ m' u' c' done ∧ List.Forall₂ (v.Moved c') (l.flatMap NmethodRoots.words)
        (l'.flatMap NmethodRoots.words) ∧ c.Extends c' := by
  induction l generalizing m u c with
  | nil => exact ⟨[], m, u, c, rfl, h, List.Forall₂.nil, Copies.Extends.refl c⟩
  | cons nm l ih =>
    rw [flatMap_cons] at hvalid
    have hnm : ∀ w ∈ nm.words, v.Valid w := fun w hw => hvalid w (mem_append.mpr (.inl hw))
    obtain ⟨oops, m₁, u₁, c₁, hrun₁, h₁, hm₁, he₁⟩ := mapRoots_spec hw hroom
      (fun w hw => hnm w (mem_append.mpr (.inl hw))) h
    obtain ⟨key, m₂, u₂, c₂, hrun₂, h₂, hm₂, hk₂⟩ := scavengeOop_spec hw hroom h₁
      (hnm nm.key (mem_append.mpr (.inr (mem_singleton.mpr rfl))))
    obtain ⟨l', m', u', c', hrun, h', hm, he⟩ := ih (fun w hw => hvalid w (mem_append.mpr (.inr hw))) h₂
    refine ⟨{ nm with oops := oops, key := key } :: l', m', u', c', ?_, h', ?_,
      he₁.trans (hk₂.extends_.trans he)⟩
    · unfold visitNmethods
      simp only [hrun₁, hrun₂, hrun, bind_eq_bind, bind_some, Option.pure_def]
    · rw [flatMap_cons, flatMap_cons]
      refine rel_append (rel_append (moved_forall hm₁ (hk₂.extends_.trans he)) ?_) hm
      exact List.Forall₂.cons (hm₂.mono he.subset) List.Forall₂.nil

theorem eachCodeRoot_spec (hroom : Room u₀) {r : Roots}
    (hcode : ∀ w ∈ r.code, v.Valid w) (hnmethods : ∀ w ∈ r.nmethods.flatMap NmethodRoots.words, v.Valid w)
    (h : v.Copying m₀ u₀ m u c done) :
    ∃ r' m' u' c', eachCodeRoot Universe.scavengeOop r m u = some (r', m', u') ∧
      v.Copying m₀ u₀ m' u' c' done ∧ r'.plain = r.plain ∧ List.Forall₂ (v.Moved c') r.code r'.code ∧
      List.Forall₂ (v.Moved c') (r.nmethods.flatMap NmethodRoots.words)
        (r'.nmethods.flatMap NmethodRoots.words) ∧ c.Extends c' := by
  obtain ⟨code, m₁, u₁, c₁, hrun₁, h₁, hm₁, he₁⟩ := mapRoots_spec hw hroom hcode h
  obtain ⟨nmethods, m', u', c', hrun, h', hm, he⟩ := visitNmethods_spec hw hroom hnmethods h₁
  refine ⟨{ r with nmethods := nmethods, code := code }, m', u', c', ?_, h', rfl, moved_forall hm₁ he, hm,
    he₁.trans he⟩
  unfold eachCodeRoot
  simp only [hrun₁, hrun, bind_eq_bind, bind_some, Option.pure_def]

theorem Copying.start : v.Copying m₀ u₀ m₀ { u₀.clearAges with toSpace := u₀.toSpace.reset } ⟨[], []⟩
      (scanned u₀ (u₀.cardBase 0)) := by
  have hreset : u₀.toSpace.reset = u₀.toSpace := by
    have hempty := hw.to_empty
    unfold Space.reset
    generalize u₀.toSpace = t at hempty ⊢
    cases t
    simp only [Space.mk.injEq, true_and, and_true]
    exact hempty.symm
  have hholder : ∀ p, v.Holder ⟨[], []⟩ p → p.1 ∈ v.old ∧ p.2 = p.1 := by
    intro p hp
    rcases hp with hp | hp
    · cases hp
    · exact hp
  have hsame : ∀ p, v.Holder ⟨[], []⟩ p → ∀ x, m₀ (p.2 + x) = m₀ (p.1 + x) := by
    intro p hp x
    rw [(hholder p hp).2]
  have hnone : ∀ p, p ∉ Copies.pairs ⟨[], []⟩ := fun p => not_mem_nil
  refine ⟨⟨fun p hp => absurd hp (hnone p), fun a _ _ => rfl, fun a _ j _ _ => rfl, fun p hp => ?_,
    fun p hp j _ _ _ => hsame p hp _, fun p hp j _ _ => hsame p hp _, fun p hp j _ hd => ?_⟩, ?_⟩
  · obtain ⟨ho, he⟩ := hholder p hp
    obtain ⟨mark, hm, _⟩ := hw.marks p.1 (mem_objects.mpr (.inr ho))
    rw [he]
    exact ⟨mark, mark, hm, hm, rfl, rfl, rfl, rfl⟩
  · exact absurd hd (scanned_start u₀ _)
  · refine ⟨rfl, rfl, ⟨rfl, rfl⟩, ⟨rfl, rfl, rfl⟩, rfl, hw.no_stall, ?_, Tiles.nil _, ?_, nodup_nil,
      fun p hp => absurd hp (hnone p), fun x hx => absurd hx (scanned_start u₀ x), fun x hlow hhigh => ?_,
      hw.remembered, ?_⟩
    · exact Tiles.nil _
    · dsimp only
      rw [hreset]
      exact hw.geometry.to_le.2
    · exact absurd hhigh (Nat.not_lt.mpr hlow)
    · have := hw.resolves
      rw [map_nil, append_nil]
      exact this.congr rfl rfl rfl

theorem cheneyFuel_gt : v.young.length < u₀.cheneyFuel := by
  have heden := hw.eden.length_le
  have hfrom := hw.survivors.length_le
  unfold young Universe.cheneyFuel
  rw [length_append]
  omega

theorem scavenge_spec (hroom : Room u₀) {r : Roots} (hvalid : ∀ w ∈ r.words, v.Valid w) :
    ∃ r' m' u' c, Universe.scavenge r m₀ u₀ = some (r', m', u'.swapSpaces) ∧
      v.Copying m₀ u₀ m' u' c (traced u₀ u'.toSpace.top u'.old.top) ∧
      List.Forall₂ (v.Moved c) r.words r'.words := by
  have hplain : ∀ w ∈ r.plain, v.Valid w := fun w hw =>
    hvalid w (mem_append.mpr (.inl (mem_append.mpr (.inl hw))))
  have hcode : ∀ w ∈ r.code, v.Valid w := fun w hw =>
    hvalid w (mem_append.mpr (.inl (mem_append.mpr (.inr hw))))
  have hnmethods : ∀ w ∈ r.nmethods.flatMap NmethodRoots.words, v.Valid w := fun w hw =>
    hvalid w (mem_append.mpr (.inr hw))
  obtain ⟨plain, m₁, u₁, c₁, hrun₁, h₁, hm₁, he₁⟩ := mapRoots_spec hw hroom hplain (Copying.start hw)
  obtain ⟨m₂, u₂, c₂, hrun₂, h₂, he₂⟩ := dirtyCardScan_spec hw hroom (Nat.zero_add _) h₁
  obtain ⟨r₃, m₃, u₃, c₃, hrun₃, h₃, hp₃, hcode₃, hnm₃, he₃⟩ := eachCodeRoot_spec (r := { r with plain := plain })
    hw hroom hcode hnmethods h₂
  have htrace : v.Tracing m₀ u₀ u₃.toSpace.start u₀.old.top [] [] m₃ u₃ c₃ := by
    refine ⟨h₃.congr fun y => ?_, ?_, Tiles.nil _, nil_prefix, nil_prefix⟩
    · have hto := h₃.targets.to_same.1
      unfold scanned traced
      omega
    · rw [h₃.targets.to_same.1]
      exact Tiles.nil _
  obtain ⟨m', u', c', hrun, h', he⟩ := htrace.run hw hroom (cheneyFuel_gt hw)
  have hcheney : Universe.cheney u₀.cheneyFuel u₃.toSpace.start u₀.old.top m₃ u₃ = some (m', u') := hrun
  refine ⟨r₃, m', u', c', ?_, h', ?_⟩
  · unfold Universe.scavenge
    simp only [hrun₁, h₁.targets.nCards, range_eq_range', hrun₂, hrun₃, h₃.targets.no_stall, hcheney,
      h'.targets.no_stall, bind_eq_bind, bind_some, Bool.false_eq_true, if_false, Option.pure_def]
  · unfold Roots.words
    rw [hp₃]
    refine rel_append (rel_append ?_ (moved_forall hcode₃ he)) (moved_forall hnm₃ he)
    exact moved_forall hm₁ (he₂.trans (he₃.trans he))

end

/-- With room in the old generation for all that is in use, a scavenge stalls nowhere, and
copies no more than that. -/
theorem promotion_guarantee (hw : v.Coherent m₀ u₀) (hroom : Room u₀) {r : Roots} (hvalid : ∀ w ∈ r.words, v.Valid w) :
    ∃ r' m' u', Universe.scavenge r m₀ u₀ = some (r', m', u') ∧ u'.pendingStall = false ∧
      (u'.fromSpace.top - u'.fromSpace.start) + (u'.old.top - u₀.old.top) ≤
        (u₀.eden.top - u₀.eden.start) + (u₀.fromSpace.top - u₀.fromSpace.start) := by
  obtain ⟨r', m', u', c, hrun, h, _⟩ := scavenge_spec hw hroom hvalid
  exact ⟨r', m', u'.swapSpaces, hrun, h.targets.no_stall, copied_le hw h.targets⟩

/-- A metaclass and a class, an old instance that refers to the second of two young ones,
which refer to each other. To-space has room for one of them. -/
def tight : Universe where
  eden := ⟨1024, 1088, 2048⟩
  fromSpace := ⟨2048, 2048, 2560⟩
  toSpace := ⟨3072, 3072, 3104⟩
  old := ⟨4096, 8192, 8192, 4192⟩
  nCards := 8
  cards := fun i => i == 0
  offsets := fun _ => 0
  tenuringThreshold := 100
  bytesAtAge := fun _ => 0
  pendingStall := false

def tightMemory : Memory := fun x =>
  ([(4096, .mark Mark.pristine), (4104, .mem 4096), (4112, .smi 4), (4120, .smi 4),
    (4128, .mark Mark.pristine), (4136, .mem 4096), (4144, .smi 0), (4152, .smi 4),
    (4160, .mark Mark.pristine), (4168, .mem 4128), (4176, .mem 1056), (4184, .smi 7),
    (1024, .mark ⟨5, 0, false, false, false⟩), (1032, .mem 4128), (1040, .mem 1056), (1048, .smi 7),
    (1056, .mark ⟨6, 0, false, false, false⟩), (1064, .mem 4128), (1072, .mem 1024),
    (1080, .smi 7)].lookup x).getD (.bits 0)

def tightView : HeapView where
  eden := [1024, 1056]
  survivors := []
  old := [4096, 4128, 4160]
  shape a := if a = 4096 ∨ a = 4128 then ⟨4096, .klass, 4, 0⟩ else ⟨4128, .slots, 4, 0⟩

theorem mem_tightView {a : Nat} (ha : a ∈ tightView.objects) :
    a = 1024 ∨ a = 1056 ∨ a = 4096 ∨ a = 4128 ∨ a = 4160 := by
  simpa [objects, young, tightView] using ha

theorem tightView_bytes (a : Nat) : tightView.bytes a = 32 := by
  unfold bytes tightView
  dsimp only
  split
  next => rfl
  next => rfl

theorem tightMemory_words {a j : Nat} (ha : a ∈ tightView.objects) (hj : j ∈ tightView.oopWords a) :
    tightView.Valid (tightMemory (a + 8 * j)) ∧
      (a ∈ tightView.old → tight.cards (tight.cardIndex (a + 8 * j)) = true) := by
  have hall : ∀ a ∈ tightView.objects, ∀ j ∈ tightView.oopWords a,
      tightMemory (a + 8 * j) ∈ [.mem 4096, .mem 4128, .mem 1024, .mem 1056, .smi 4, .smi 0, .smi 7] := by
    decide
  have hcards : ∀ a ∈ tightView.old, ∀ j ∈ tightView.oopWords a,
      tight.cards (tight.cardIndex (a + 8 * j)) = true := by decide
  have hmem : ∀ w ∈ [Word.mem 4096, .mem 4128, .mem 1024, .mem 1056, .smi 4, .smi 0, .smi 7],
      tightView.Valid w := by
    intro w hw x hx
    rw [hx] at hw
    have hx : x = 4096 ∨ x = 4128 ∨ x = 1024 ∨ x = 1056 := by simpa using hw
    rcases hx with rfl | rfl | rfl | rfl <;> decide
  exact ⟨hmem _ (hall a ha j hj), fun ho => hcards a ho j hj⟩

theorem tightView_shaped {a : Nat} (ha : a ∈ tightView.objects) : tightView.Shaped tightMemory a := by
  rcases mem_tightView ha with rfl | rfl | rfl | rfl | rfl
  all_goals
    exact ⟨by decide, ⟨by decide, by decide, by decide, fun _ => by contradiction⟩, by decide, by decide,
      fun _ => by decide⟩

theorem tight_coherent : tightView.Coherent tightMemory tight where
  geometry := by constructor <;> decide
  eden := Tiles.cons rfl (by rw [tightView_bytes]; decide) (Tiles.cons (by rw [tightView_bytes]; rfl)
    (by rw [tightView_bytes]; decide) (by rw [tightView_bytes, tightView_bytes]; exact Tiles.nil _))
  survivors := Tiles.nil _
  old := Tiles.cons rfl (by rw [tightView_bytes]; decide) (Tiles.cons (by rw [tightView_bytes]; rfl)
    (by rw [tightView_bytes]; decide) (Tiles.cons (by rw [tightView_bytes, tightView_bytes]; rfl)
      (by rw [tightView_bytes]; decide)
      (by rw [tightView_bytes, tightView_bytes, tightView_bytes]; exact Tiles.nil _)))
  to_empty := rfl
  no_stall := rfl
  shaped _ ha := tightView_shaped ha
  marks a ha := by
    rcases mem_tightView ha with rfl | rfl | rfl | rfl | rfl <;> exact ⟨_, rfl, rfl⟩
  slots a ha j hj := (tightMemory_words ha hj).1
  resolves := by
    intro i hi
    have hzero : i = 0 := by
      unfold Universe.cardBase cardSize tight at hi
      dsimp only at hi
      omega
    rw [hzero]
    exact ⟨(4096, 32), by decide, by decide, by decide, by decide⟩
  remembered a ha j hj _ := (tightMemory_words (mem_objects.mpr (.inr ha)) hj).2 ha

theorem tight_room : Room tight := by
  unfold Room OldGen.freeBytes
  decide

def tightRoots : Roots := ⟨[.mem 1024, .smi 3], [⟨.mem 4128, [.mem 1056], true, false⟩], [.mem 4160]⟩

theorem tightRoots_valid : ∀ w ∈ tightRoots.words, tightView.Valid w := by
  intro w hw x hx
  rw [hx] at hw
  have hx : x = 1024 ∨ x = 4160 ∨ x = 1056 ∨ x = 4128 := by
    simpa [tightRoots, Roots.words, NmethodRoots.words] using hw
  rcases hx with rfl | rfl | rfl | rfl <;> decide

/-- The second survivor overflows to-space and is promoted. -/
theorem promotion_guarantee_tight : ∃ r' m' u', Universe.scavenge tightRoots tightMemory tight = some (r', m', u') ∧
    u'.pendingStall = false ∧ (u'.fromSpace.top - u'.fromSpace.start) + (u'.old.top - tight.old.top) ≤
      (tight.eden.top - tight.eden.start) + (tight.fromSpace.top - tight.fromSpace.start) :=
  promotion_guarantee tight_coherent tight_room tightRoots_valid

end HeapView

end WinArmVm
