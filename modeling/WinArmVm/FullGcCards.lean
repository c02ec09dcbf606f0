import WinArmVm.FullGcPlan
import WinArmVm.OffsetTable

namespace WinArmVm

open Tiling Universe

namespace HeapView

variable {v : HeapView} {m mc m' : Memory} {u : Universe} {roots : List Word} {a : Nat}

open Classical in
noncomputable def liveBytes (v : HeapView) (m : Memory) (roots : List Word) (l : List Nat) : Nat :=
  ((l.filter fun a => v.Live m roots a).map v.bytes).sum

theorem fullGc_oldTop (hw : v.WellFormed m u) {r r' : Roots} {u' : Universe} (hvalid : ∀ w ∈ r.strong, v.Valid w)
    (h : Universe.fullGc r m u = some (r', m', u')) :
    ∃ s : Universe, u' = s.post ∧ s.cards = u.cards ∧
      s.old = { u.old with top := u.old.start + v.liveBytes m r.strong v.old } := by
  obtain ⟨m₁, g, hmark, f, rfl⟩ := fullGc_cases h
  obtain ⟨m₁', g', hmark', hsame, hmarks⟩ := mark_marks hw hvalid
  cases (hmark.symm.trans hmark')
  obtain ⟨f', hf⟩ := forwards hw hsame hmarks
  cases f.eq f'
  obtain ⟨offsets, hslide⟩ := u.slideOld_eq f.oldPlan
  have hcards : (u.slideOld f.oldPlan).cards = u.cards := by rw [hslide]
  refine ⟨f.spaces, rfl, hcards, ?_⟩
  show { (u.slideOld f.oldPlan).old with top := f.oldTop } = _
  rw [hslide, hf.old.tiles.length_eq]
  rfl

end HeapView

namespace Universe

def Overlaps (u : Universe) (i : Nat) : Prop :=
  ∃ x, u.cardBase i ≤ x ∧ x < u.cardBase i + cardSize ∧ u.old.start ≤ x ∧ x < u.old.top

theorem overlaps_iff (u : Universe) (i : Nat) : u.Overlaps i ↔ u.cardBase i < u.old.top := by
  unfold Overlaps cardBase cardSize
  constructor
  · rintro ⟨x, hlow, -, -, hhigh⟩
    omega
  · intro h
    exact ⟨u.old.start + i * 512, by omega, by omega, by omega, h⟩

theorem post_cards (u : Universe) (i : Nat) : u.post.cards i = true ↔ u.cardBase i < u.old.top ∨ u.cards i = true := by
  have hbase : u.cardBase i = u.old.start + i * 512 := rfl
  have hfirst : u.cardIndex u.old.start = 0 := by
    unfold cardIndex
    rw [Nat.sub_self, Nat.zero_div]
  have hlast : u.cardIndex (u.old.top - 1) = (u.old.top - 1 - u.old.start) / 512 := rfl
  unfold post recordMultistores clearAges
  by_cases hlt : u.old.start < u.old.top
  · simp only [if_pos hlt]
    show (decide (u.cardIndex u.old.start ≤ i) && decide (i ≤ u.cardIndex (u.old.top - 1)) ||
      (if i ≤ u.cardIndex (u.old.top - 1) then false else u.cards i)) = true ↔ _
    rw [hfirst, hlast, hbase]
    by_cases hi : i ≤ (u.old.top - 1 - u.old.start) / 512
    · have hin : u.old.start + i * 512 < u.old.top := by omega
      simp [hi, hin]
    · have hout : ¬ u.old.start + i * 512 < u.old.top := by omega
      simp [hi, hout]
  · simp only [if_neg hlt]
    have hout : ¬ u.cardBase i < u.old.top := by omega
    simp [hout]

end Universe

namespace HeapView

variable {v : HeapView} {m m' : Memory} {u u' : Universe} {r r' : Roots}

/-- The table is exact where no card behind the surviving bytes was dirty. -/
theorem cards_exact_iff (hw : v.WellFormed m u) (hvalid : ∀ w ∈ r.strong, v.Valid w)
    (h : Universe.fullGc r m u = some (r', m', u')) :
    (∀ i, u'.cardBase i < u'.old.committedEnd → (u'.cards i = true ↔ u'.Overlaps i)) ↔
      ∀ i, u.cardBase i < u.old.committedEnd → u.old.start + v.liveBytes m r.strong v.old ≤ u.cardBase i →
        u.cards i = false := by
  obtain ⟨s, rfl, hcards, hold⟩ := fullGc_oldTop hw hvalid h
  have hpost : s.post.old = { u.old with top := u.old.start + v.liveBytes m r.strong v.old } :=
    (post_old s).trans hold
  have hbase (i : Nat) : s.cardBase i = u.cardBase i := by
    unfold cardBase
    rw [hold]
  have hbase' (i : Nat) : s.post.cardBase i = u.cardBase i := by
    unfold cardBase
    rw [hpost]
  have hcommitted : s.post.old.committedEnd = u.old.committedEnd := by rw [hpost]
  have htop : s.post.old.top = u.old.start + v.liveBytes m r.strong v.old := by rw [hpost]
  have htop' : s.old.top = u.old.start + v.liveBytes m r.strong v.old := by rw [hold]
  constructor
  · intro hexact i hi hge
    have hiff := hexact i (by rw [hbase', hcommitted]; exact hi)
    rw [overlaps_iff, post_cards, hbase, hbase', htop, htop', hcards] at hiff
    cases hc : u.cards i with
    | false => rfl
    | true =>
      have hlt := hiff.mp (.inr hc)
      omega
  · intro hclean i hi
    rw [hbase', hcommitted] at hi
    rw [overlaps_iff, post_cards, hbase, hbase', htop, htop', hcards]
    constructor
    · rintro (hlt | hc)
      · exact hlt
      · by_contra hge
        rw [hclean i hi (by omega)] at hc
        cases hc
    · exact .inl

def stale (cards : Nat → Bool) : Universe where
  eden := ⟨0, 0, 1024⟩
  fromSpace := ⟨1024, 1024, 2048⟩
  toSpace := ⟨2048, 2048, 3072⟩
  old := ⟨4096, 8192, 8192, 4784⟩
  nCards := 8
  cards := cards
  offsets := fun i => if i = 1 then 56 else 0
  tenuringThreshold := 0
  bytesAtAge := fun _ => 0
  pendingStall := false

def staleMemory : Memory := fun x =>
  ([(4096, .mark Mark.pristine), (4104, .mem 4096), (4112, .smi 4), (4120, .smi 4),
    (4128, .mark Mark.pristine), (4136, .mem 4096), (4144, .smi 2), (4152, .smi 2),
    (4160, .mark Mark.pristine), (4168, .mem 4128), (4176, .smi 600)].lookup x).getD (.bits 0)

def staleView : HeapView where
  eden := []
  survivors := []
  old := [4096, 4128, 4160]
  shape a := if a = 4160 then ⟨4128, .indexableBytes, 2, 600⟩ else ⟨4096, .klass, 4, 0⟩

theorem mem_staleView {a : Nat} (ha : a ∈ staleView.objects) : a = 4096 ∨ a = 4128 ∨ a = 4160 := by
  simpa [objects, young, staleView] using ha

theorem staleMemory_words {a j : Nat} (ha : a ∈ staleView.objects) (hj : j ∈ staleView.oopWords a) :
    staleMemory (a + 8 * j) = .mem 4096 ∨ staleMemory (a + 8 * j) = .mem 4128 ∨
      ∃ i, staleMemory (a + 8 * j) = .smi i := by
  have hall : ∀ a ∈ staleView.objects, ∀ j ∈ staleView.oopWords a,
      staleMemory (a + 8 * j) ∈ [.mem 4096, .mem 4128, .smi 4, .smi 2] := by decide
  have hword := hall a ha j hj
  simp only [List.mem_cons, List.not_mem_nil, or_false] at hword
  rcases hword with h | h | h | h
  · exact .inl h
  · exact .inr (.inl h)
  · exact .inr (.inr ⟨4, h⟩)
  · exact .inr (.inr ⟨2, h⟩)

theorem staleView_shaped {a : Nat} (ha : a ∈ staleView.objects) : staleView.Shaped staleMemory a := by
  rcases mem_staleView ha with rfl | rfl | rfl
  · exact ⟨by decide, ⟨by decide, by decide, by decide, fun _ => by contradiction⟩, by decide, by decide,
      fun _ => by decide⟩
  · exact ⟨by decide, ⟨by decide, by decide, by decide, fun _ => by contradiction⟩, by decide, by decide,
      fun _ => by decide⟩
  · exact ⟨by decide, ⟨by decide, by decide, by decide, fun _ => by decide⟩, by decide, by decide,
      fun _ => by contradiction⟩

theorem stale_geometry (cards : Nat → Bool) : (stale cards).Geometry where
  eden_le := by
    show 0 ≤ 0 ∧ 0 ≤ 1024
    decide
  from_le := by
    show 1024 ≤ 1024 ∧ 1024 ≤ 2048
    decide
  to_le := by
    show 2048 ≤ 2048 ∧ 2048 ≤ 3072
    decide
  old_le := by
    show 4096 ≤ 4784 ∧ 4784 ≤ 8192 ∧ 8192 ≤ 8192
    decide
  eden_from := Nat.le_refl 1024
  eden_to := by
    show 1024 ≤ 2048
    decide
  from_to := .inl (Nat.le_refl 2048)
  from_old := by
    show 2048 ≤ 4096
    decide
  to_old := by
    show 3072 ≤ 4096
    decide
  cards := by
    show 8192 - 4096 ≤ 8 * 512
    decide

theorem staleView_tiles : Tiles id staleView.bytes 4096 staleView.old 4784 := by
  have h₁ : staleView.bytes 4096 = 32 := by decide
  have h₂ : staleView.bytes 4128 = 32 := by decide
  have h₃ : staleView.bytes 4160 = 624 := by decide
  refine Tiles.cons (by decide) (by rw [h₁]; decide) ?_
  rw [h₁]
  refine Tiles.cons (by decide) (by rw [h₂]; decide) ?_
  rw [h₂]
  refine Tiles.cons (by decide) (by rw [h₃]; decide) ?_
  rw [h₃]
  exact Tiles.nil _

theorem staleView_wellFormed (cards : Nat → Bool) : staleView.WellFormed staleMemory (stale cards) where
  geometry := stale_geometry cards
  eden := Tiles.nil _
  survivors := Tiles.nil _
  old := staleView_tiles
  to_empty := rfl
  no_stall := rfl
  shaped _ ha := staleView_shaped ha
  marks a ha := by
    rcases mem_staleView ha with rfl | rfl | rfl <;> exact ⟨Mark.pristine, rfl, rfl⟩
  slots a ha j hj x hx := by
    rcases staleMemory_words ha hj with h | h | ⟨i, h⟩ <;> rw [h] at hx <;> cases hx
    · decide
    · decide
  sizes a ha := by
    rcases mem_staleView ha with rfl | rfl | rfl <;> decide
  resolves := by
    intro i hi
    have hlt : i < 2 := by
      unfold cardBase cardSize stale at hi
      dsimp only at hi
      omega
    have hcases : i = 0 ∨ i = 1 := by omega
    rcases hcases with rfl | rfl
    · refine ⟨(4096, 32), by decide, ?_, ?_⟩
      · rw [resolve_step]
        simp [stale, maxDirect, cardBase]
      · simp [stale, cardBase]
    · refine ⟨(4160, 624), by decide, ?_, ?_⟩
      · rw [resolve_step]
        simp [stale, maxDirect, cardBase, cardSize, wordSize]
      · simp [stale, cardBase, cardSize]
  remembered a ha j hj hnew := by
    rcases staleMemory_words (mem_objects.mpr (.inr ha)) hj with h | h | ⟨i, h⟩ <;> rw [h] at hnew <;>
      simp [stale, isNewOop, isNew] at hnew

def staleRoots : Roots := ⟨[.mem 4128], [], []⟩

theorem staleRoots_valid : ∀ w ∈ staleRoots.strong, staleView.Valid w := by
  intro w hw x hx
  have hw : w = .mem 4128 := by simpa [staleRoots, Roots.strong] using hw
  rw [hw] at hx
  cases hx
  decide

/-- All cards clean before, and all behind the survivors clean after. -/
theorem cards_exact_clean : ∃ r' m' u', Universe.fullGc staleRoots staleMemory (stale fun _ => false) = some (r', m', u') ∧
    ∀ i, u'.cardBase i < u'.old.committedEnd → (u'.cards i = true ↔ u'.Overlaps i) := by
  have hsome : (fullGc staleRoots staleMemory (stale fun _ => false)).isSome = true := by decide
  obtain ⟨⟨r', m', u'⟩, h⟩ := Option.isSome_iff_exists.mp hsome
  exact ⟨r', m', u', h, (cards_exact_iff (staleView_wellFormed _) staleRoots_valid h).mpr fun _ _ _ => rfl⟩

/-- The garbage's card was dirty; the collection leaves it so, behind the new top. -/
theorem stale_card_dirty : ∃ r' m' u', Universe.fullGc staleRoots staleMemory (stale (· == 1)) = some (r', m', u') ∧
    u'.cardBase 1 < u'.old.committedEnd ∧ u'.cards 1 = true ∧ ¬ u'.Overlaps 1 := by
  have hsome : (fullGc staleRoots staleMemory (stale (· == 1))).isSome = true := by decide
  obtain ⟨⟨r', m', u'⟩, h⟩ := Option.isSome_iff_exists.mp hsome
  have hread : (fullGc staleRoots staleMemory (stale (· == 1))).map
      (fun s => (s.2.2.old, s.2.2.cards 1)) = some (⟨4096, 8192, 8192, 4160⟩, true) := by decide
  rw [h] at hread
  obtain ⟨hold, hcard⟩ := Prod.mk.inj (Option.some.inj hread)
  refine ⟨r', m', u', h, ?_, hcard, ?_⟩
  · unfold cardBase
    rw [hold]
    decide
  · rw [overlaps_iff]
    unfold cardBase
    rw [hold]
    decide

end HeapView

end WinArmVm
