import WinArmVm.LinearScan
import Mathlib.Data.List.Nodup
import Mathlib.Data.List.Perm.Basic

namespace WinArmVm.LinearScan

open List Function

variable (ivs : List LiveInterval)

structure FileSound (assigned : Nat → Option Assignment) (isFp : Bool) (size now : Nat) (f : RegFile) : Prop where
  full : f.active.length + f.free.length = size
  freeNodup : f.free.Nodup
  freeSmall : ∀ r ∈ f.free, r.toNat < size
  activeNodup : f.active.Nodup
  holds : ∀ j ∈ f.active, (interval ivs j).isFp = isFp ∧ ∃ r, assigned j = some (.reg r) ∧ r ∉ f.free
  distinct : ∀ j ∈ f.active, ∀ j' ∈ f.active, assigned j = assigned j' → j = j'
  small : ∀ j r, (interval ivs j).isFp = isFp → assigned j = some (.reg r) → r.toNat < size
  past : ∀ j r, (interval ivs j).isFp = isFp → assigned j = some (.reg r) → j ∈ f.active ∨ (interval ivs j).end_ < now
  apart : ∀ j j' r, j ≠ j' → (interval ivs j).isFp = isFp → (interval ivs j').isFp = isFp → assigned j = some (.reg r) →
    assigned j' = some (.reg r) → ¬ (interval ivs j).Overlaps (interval ivs j')

structure SlotsSound (assigned : Nat → Option Assignment) (slotIsOop : List Bool) (spilled : List Nat) : Prop where
  nodup : spilled.Nodup
  flags : slotIsOop = spilled.map fun i => (interval ivs i).isOop
  slot : ∀ (k : Nat) i, spilled[k]? = some i → assigned i = some (.spill (UInt16.ofNat k))
  all : ∀ i slot, assigned i = some (.spill slot) → i ∈ spilled

variable {ivs} {assigned : Nat → Option Assignment} {isFp : Bool} {f : RegFile} {i : Nat} {size now : Nat}

theorem FileSound.congr {assigned assigned' : Nat → Option Assignment}
    (h : FileSound ivs assigned isFp size now f) (hsame : ∀ j, (interval ivs j).isFp = isFp → assigned' j = assigned j) :
    FileSound ivs assigned' isFp size now f := by
  refine ⟨h.full, h.freeNodup, h.freeSmall, h.activeNodup, fun j hj => ?_, fun j hj j' hj' he => ?_,
    fun j r hc hr => ?_, fun j r hc hr => ?_, fun j j' r hne hc hc' hr hr' => ?_⟩
  · obtain ⟨hc, r, hr, hfree⟩ := h.holds j hj
    exact ⟨hc, r, (hsame j hc).trans hr, hfree⟩
  · rw [hsame j (h.holds j hj).1, hsame j' (h.holds j' hj').1] at he
    exact h.distinct j hj j' hj' he
  · rw [hsame j hc] at hr
    exact h.small j r hc hr
  · rw [hsame j hc] at hr
    exact h.past j r hc hr
  · rw [hsame j hc] at hr
    rw [hsame j' hc'] at hr'
    exact h.apart j j' r hne hc hc' hr hr'

theorem FileSound.later {size now now' : Nat}
    (h : FileSound ivs assigned isFp size now f) (hle : now ≤ now') : FileSound ivs assigned isFp size now' f :=
  { h with past := fun j r hc hr => (h.past j r hc hr).imp_right fun hlt => Nat.lt_of_lt_of_le hlt hle }

theorem release_spec {assigned : Nat → Option Assignment} {start : Nat} : ∀ {active : List Nat} {free : List UInt8},
    active.Nodup → free.Nodup → (∀ j ∈ active, ∃ r, assigned j = some (.reg r) ∧ r ∉ free) →
    (∀ j ∈ active, ∀ j' ∈ active, assigned j = assigned j' → j = j') →
    (active.foldl (release ivs assigned start) free).Nodup ∧
      (active.filter fun j => ¬ (interval ivs j).end_ < start).length +
        (active.foldl (release ivs assigned start) free).length = active.length + free.length ∧
      ∀ r, r ∈ active.foldl (release ivs assigned start) free ↔
        r ∈ free ∨ ∃ j ∈ active, (interval ivs j).end_ < start ∧ assigned j = some (.reg r) := by
  intro active
  induction active with
  | nil => intro free _ hfree _ _; exact ⟨hfree, rfl, fun r => by simp⟩
  | cons j active ih =>
    intro free hnodup hfree hheld hdistinct
    obtain ⟨hnotin, hnodup'⟩ := nodup_cons.mp hnodup
    obtain ⟨r, hr, hrfree⟩ := hheld j mem_cons_self
    have hother : ∀ j' ∈ active, assigned j' ≠ some (.reg r) := by
      intro j' hj' he
      have := hdistinct j mem_cons_self j' (mem_cons_of_mem _ hj') (hr.trans he.symm)
      exact hnotin (this ▸ hj')
    have hdistinct' : ∀ j ∈ active, ∀ j' ∈ active, assigned j = assigned j' → j = j' :=
      fun a ha b hb => hdistinct a (mem_cons_of_mem _ ha) b (mem_cons_of_mem _ hb)
    rw [foldl_cons]
    by_cases hend : (interval ivs j).end_ < start
    · have hrel : release ivs assigned start free j = r :: free := by
        unfold release
        rw [if_pos hend, hr]
      have hheld' : ∀ j' ∈ active, ∃ r', assigned j' = some (.reg r') ∧ r' ∉ r :: free := by
        intro j' hj'
        obtain ⟨r', hr', hfree'⟩ := hheld j' (mem_cons_of_mem _ hj')
        refine ⟨r', hr', fun hmem => ?_⟩
        rcases mem_cons.mp hmem with rfl | hmem
        · exact hother j' hj' hr'
        · exact hfree' hmem
      obtain ⟨h1, h2, h3⟩ := ih hnodup' (nodup_cons.mpr ⟨hrfree, hfree⟩) hheld' hdistinct'
      rw [hrel]
      refine ⟨h1, ?_, fun q => ?_⟩
      · rw [filter_cons_of_neg (by simpa using hend), length_cons]
        rw [length_cons] at h2
        omega
      · rw [h3, mem_cons]
        constructor
        · intro hq
          rcases hq with (rfl | hq) | ⟨j', hj', hq⟩
          · exact .inr ⟨j, mem_cons_self, hend, hr⟩
          · exact .inl hq
          · exact .inr ⟨j', mem_cons_of_mem _ hj', hq⟩
        · intro hq
          rcases hq with hq | ⟨j', hj', hend', hq⟩
          · exact .inl (.inr hq)
          · rcases mem_cons.mp hj' with rfl | hj'
            · rw [hr] at hq
              cases hq
              exact .inl (.inl rfl)
            · exact .inr ⟨j', hj', hend', hq⟩
    · have hrel : release ivs assigned start free j = free := if_neg hend
      obtain ⟨h1, h2, h3⟩ := ih hnodup' hfree (fun j' hj' => hheld j' (mem_cons_of_mem _ hj')) hdistinct'
      rw [hrel]
      refine ⟨h1, ?_, fun q => ?_⟩
      · rw [filter_cons_of_pos (by simpa using hend), length_cons, length_cons]
        omega
      · rw [h3]
        constructor
        · intro hq
          rcases hq with hq | ⟨j', hj', hq⟩
          · exact .inl hq
          · exact .inr ⟨j', mem_cons_of_mem _ hj', hq⟩
        · intro hq
          rcases hq with hq | ⟨j', hj', hend', hq⟩
          · exact .inl hq
          · rcases mem_cons.mp hj' with rfl | hj'
            · exact absurd hend' hend
            · exact .inr ⟨j', hj', hend', hq⟩

theorem FileSound.expire {size now start : Nat} (h : FileSound ivs assigned isFp size now f) (hle : now ≤ start) :
    FileSound ivs assigned isFp size start (expire ivs assigned start f) := by
  obtain ⟨hnodup, hlen, hmem⟩ := @release_spec ivs assigned start f.active f.free h.activeNodup h.freeNodup
    (fun j hj => (h.holds j hj).2) h.distinct
  have hactive : ∀ j, j ∈ (LinearScan.expire ivs assigned start f).active ↔
      j ∈ f.active ∧ ¬ (interval ivs j).end_ < start := by
    intro j
    show j ∈ f.active.filter _ ↔ _
    rw [mem_filter, decide_eq_true_iff]
  refine ⟨hlen.trans h.full, hnodup, fun r hr => ?_, h.activeNodup.filter _, fun j hj => ?_,
    fun j hj j' hj' he => h.distinct j ((hactive j).mp hj).1 j' ((hactive j').mp hj').1 he, h.small,
    fun j r hc hr => ?_, h.apart⟩
  · rcases (hmem r).mp hr with hr | ⟨j, hj, -, hr⟩
    · exact h.freeSmall r hr
    · exact h.small j r (h.holds j hj).1 hr
  · obtain ⟨hj, hend⟩ := (hactive j).mp hj
    obtain ⟨hc, r, hr, hfree⟩ := h.holds j hj
    refine ⟨hc, r, hr, fun hback => ?_⟩
    rcases (hmem r).mp hback with hback | ⟨j', hj', hend', hr'⟩
    · exact hfree hback
    · have he := h.distinct j hj j' hj' (hr.trans hr'.symm)
      exact hend (he ▸ hend')
  · by_cases hend : (interval ivs j).end_ < start
    · exact .inr hend
    · rcases h.past j r hc hr with hj | hlt
      · exact .inl ((hactive j).mpr ⟨hj, hend⟩)
      · exact .inr (by omega)

variable {slotIsOop : List Bool} {spilled : List Nat} {active : List Nat} {r : UInt8}

theorem foldl_best {step : Option (Nat × Nat) → Nat × Nat → Option (Nat × Nat)}
    (hstep : ∀ best e, step best e = some (e.2, e.1) ∨ step best e = best ∧ best.isSome) :
    ∀ (es : List (Nat × Nat)) (best : Option (Nat × Nat)), (best.isSome ∨ es ≠ []) →
      (∀ b, best = some b → active[b.1]? = some b.2) → (∀ e ∈ es, active[e.2]? = some e.1) →
      ∃ pos j, es.foldl step best = some (pos, j) ∧ active[pos]? = some j := by
  intro es
  induction es with
  | nil =>
    intro best hsome hbest _
    obtain ⟨b, hb⟩ := Option.isSome_iff_exists.mp (hsome.resolve_right fun h => h rfl)
    exact ⟨b.1, b.2, hb, hbest b hb⟩
  | cons e es ih =>
    intro best _ hbest hes
    have he := hes e mem_cons_self
    have hrest : ∀ e' ∈ es, active[e'.2]? = some e'.1 := fun e' he' => hes e' (mem_cons_of_mem _ he')
    rw [foldl_cons]
    rcases hstep best e with htaken | ⟨hkept, hsome⟩
    · rw [htaken]
      exact ih _ (.inl rfl) (fun b hb => by cases hb; exact he) hrest
    · rw [hkept]
      exact ih _ (.inl hsome) hbest hrest

theorem furthest_spec {active : List Nat} (h : active ≠ []) :
    ∃ pos j, furthest ivs active = some (pos, j) ∧ active[pos]? = some j := by
  unfold furthest
  refine foldl_best (fun best e => ?_) active.zipIdx none (.inr (by simpa using h)) (fun b hb => by cases hb)
    fun e he => ?_
  · cases best with
    | none => exact .inl rfl
    | some b =>
      dsimp only
      split
      next => exact .inl rfl
      next => exact .inr ⟨rfl, rfl⟩
  · obtain ⟨x, i⟩ := e
    exact mk_mem_zipIdx_iff_getElem?.mp he

theorem FileSound.take {size : Nat}
    {free : List UInt8} (h : FileSound ivs assigned isFp size (interval ivs i).start ⟨active, r :: free⟩)
    (hi : (interval ivs i).isFp = isFp) (hnone : ∀ r, assigned i ≠ some (.reg r)) :
    FileSound ivs (Function.update assigned i (some (.reg r))) isFp size (interval ivs i).start ⟨active ++ [i], free⟩ := by
  have hnotin : i ∉ active := by
    intro hmem
    obtain ⟨-, q, hq, -⟩ := h.holds i hmem
    exact hnone q hq
  have hself : Function.update assigned i (some (.reg r)) i = some (.reg r) := update_self ..
  have hother : ∀ j, j ≠ i → Function.update assigned i (some (.reg r)) j = assigned j :=
    fun j hj => update_of_ne hj _ _
  have hne : ∀ j ∈ active, j ≠ i := fun j hj he => hnotin (he ▸ hj)
  obtain ⟨hrfree, hfree⟩ := nodup_cons.mp h.freeNodup
  -- No earlier interval that reaches to the new one has the register on top.
  have hclear : ∀ j, j ≠ i → (interval ivs j).isFp = isFp → assigned j = some (.reg r) →
      (interval ivs j).end_ < (interval ivs i).start := by
    intro j _ hc hr
    rcases h.past j r hc hr with hj | hlt
    · obtain ⟨-, q, hq, hqfree⟩ := h.holds j hj
      rw [hr] at hq
      cases hq
      exact absurd mem_cons_self hqfree
    · exact hlt
  refine ⟨?_, hfree, fun q hq => h.freeSmall q (mem_cons_of_mem _ hq), ?_, fun j hj => ?_, fun j hj j' hj' he => ?_,
    fun j q hc hq => ?_, fun j q hc hq => ?_, fun j j' q hjj hc hc' hq hq' => ?_⟩
  · have hfull : active.length + (r :: free).length = size := h.full
    show (active ++ [i]).length + free.length = size
    rw [length_append, length_singleton]
    rw [length_cons] at hfull
    omega
  · exact nodup_append'.mpr ⟨h.activeNodup, nodup_singleton i,
      fun j hj hj' => hne j hj (mem_singleton.mp hj')⟩
  · rcases mem_append.mp hj with hj | hj
    · obtain ⟨hc, q, hq, hqfree⟩ := h.holds j hj
      exact ⟨hc, q, (hother j (hne j hj)).trans hq, fun hmem => hqfree (mem_cons_of_mem _ hmem)⟩
    · cases mem_singleton.mp hj
      exact ⟨hi, r, hself, hrfree⟩
  · have hfresh : ∀ j ∈ active, assigned j ≠ some (.reg r) := by
      intro j hj hr
      obtain ⟨-, q, hq, hqfree⟩ := h.holds j hj
      rw [hr] at hq
      cases hq
      exact hqfree mem_cons_self
    rcases mem_append.mp hj with hj | hj
    · rcases mem_append.mp hj' with hj' | hj'
      · rw [hother j (hne j hj), hother j' (hne j' hj')] at he
        exact h.distinct j hj j' hj' he
      · cases mem_singleton.mp hj'
        rw [hother j (hne j hj), hself] at he
        exact absurd he (hfresh j hj)
    · cases mem_singleton.mp hj
      rcases mem_append.mp hj' with hj' | hj'
      · rw [hother j' (hne j' hj'), hself] at he
        exact absurd he.symm (hfresh j' hj')
      · exact (mem_singleton.mp hj').symm
  · by_cases hji : j = i
    · subst hji
      rw [hself] at hq
      cases hq
      exact h.freeSmall r mem_cons_self
    · rw [hother j hji] at hq
      exact h.small j q hc hq
  · by_cases hji : j = i
    · subst hji
      exact .inl (mem_append_right _ (mem_singleton.mpr rfl))
    · rw [hother j hji] at hq
      exact (h.past j q hc hq).imp_left fun hj => mem_append_left _ hj
  · intro hover
    by_cases hji : j = i
    · subst hji
      rw [hself] at hq
      cases hq
      rw [hother j' (Ne.symm hjj)] at hq'
      have := hclear j' (Ne.symm hjj) hc' hq'
      exact absurd hover.1 (by omega)
    · rw [hother j hji] at hq
      by_cases hji' : j' = i
      · subst hji'
        rw [hself] at hq'
        cases hq'
        have := hclear j hji hc hq
        exact absurd hover.2 (by omega)
      · rw [hother j' hji'] at hq'
        exact h.apart j j' q hjj hc hc' hq hq' hover

theorem mem_eraseIdx_iff {xs : List Nat} {pos j x : Nat} (hnodup : xs.Nodup) (hj : xs[pos]? = some j) :
    x ∈ xs.eraseIdx pos ↔ x ∈ xs ∧ x ≠ j := by
  rw [mem_eraseIdx_iff_getElem?]
  constructor
  · intro ⟨k, hk, hx⟩
    refine ⟨mem_of_getElem? hx, fun he => hk ?_⟩
    rw [he] at hx
    obtain ⟨hklt, hkx⟩ := List.getElem?_eq_some_iff.mp hx
    obtain ⟨hplt, hpx⟩ := List.getElem?_eq_some_iff.mp hj
    exact (hnodup.getElem_inj_iff).mp (hkx.trans hpx.symm)
  · intro ⟨hx, hne⟩
    obtain ⟨k, hk⟩ := mem_iff_getElem?.mp hx
    refine ⟨k, fun he => hne ?_, hk⟩
    rw [he, hj] at hk
    exact (Option.some.inj hk).symm

theorem FileSound.evict (h : FileSound ivs assigned isFp size now f) {pos j : Nat} (hpos : f.active[pos]? = some j)
    (hr : assigned j = some (.reg r)) (slot : UInt16) :
    FileSound ivs (Function.update assigned j (some (.spill slot))) isFp size now ⟨f.active.eraseIdx pos, r :: f.free⟩ := by
  have hmem : j ∈ f.active := mem_of_getElem? hpos
  have herase : ∀ x, x ∈ f.active.eraseIdx pos ↔ x ∈ f.active ∧ x ≠ j :=
    fun x => mem_eraseIdx_iff h.activeNodup hpos
  have hother : ∀ x, x ≠ j → Function.update assigned j (some (.spill slot)) x = assigned x :=
    fun x hx => update_of_ne hx _ _
  -- A register in the new table was there before and is not that of `j`.
  have hback : ∀ {x q}, Function.update assigned j (some (.spill slot)) x = some (.reg q) → x ≠ j ∧ assigned x = some (.reg q) := by
    intro x q hq
    by_cases hx : x = j
    · subst hx
      rw [update_self] at hq
      cases hq
    · rw [hother x hx] at hq
      exact ⟨hx, hq⟩
  have hrfree : r ∉ f.free := by
    obtain ⟨-, q, hq, hqfree⟩ := h.holds j hmem
    rw [hr] at hq
    cases hq
    exact hqfree
  refine ⟨?_, nodup_cons.mpr ⟨hrfree, h.freeNodup⟩, fun q hq => ?_, h.activeNodup.eraseIdx pos, fun x hx => ?_,
    fun x hx x' hx' he => ?_, fun x q hc hq => h.small x q hc (hback hq).2, fun x q hc hq => ?_,
    fun x x' q hne hc hc' hq hq' => h.apart x x' q hne hc hc' (hback hq).2 (hback hq').2⟩
  · have hlt := (List.getElem?_eq_some_iff.mp hpos).1
    have := h.full
    show (f.active.eraseIdx pos).length + (r :: f.free).length = size
    rw [length_eraseIdx_of_lt hlt, length_cons]
    omega
  · rcases mem_cons.mp hq with rfl | hq
    · exact h.small j q (h.holds j hmem).1 hr
    · exact h.freeSmall q hq
  · obtain ⟨hold, hne⟩ := (herase x).mp hx
    obtain ⟨hc, q, hq, hqfree⟩ := h.holds x hold
    refine ⟨hc, q, (hother x hne).trans hq, fun hmem' => ?_⟩
    rcases mem_cons.mp hmem' with heq | hmem'
    · exact hne (h.distinct x hold j hmem (by rw [hq, hr, heq]))
    · exact hqfree hmem'
  · obtain ⟨hx, hne⟩ := (herase x).mp hx
    obtain ⟨hx', hne'⟩ := (herase x').mp hx'
    rw [hother x hne, hother x' hne'] at he
    exact h.distinct x hx x' hx' he
  · obtain ⟨hne, hq⟩ := hback hq
    exact (h.past x q hc hq).imp_left fun hx => (herase x).mpr ⟨hx, hne⟩

theorem FileSound.skip (h : FileSound ivs assigned isFp size now f) (hnone : ∀ r, assigned i ≠ some (.reg r)) (slot : UInt16) :
    FileSound ivs (Function.update assigned i (some (.spill slot))) isFp size now f := by
  have hne : ∀ j ∈ f.active, j ≠ i := by
    intro j hj he
    obtain ⟨-, r, hr, -⟩ := h.holds j hj
    exact hnone r (he ▸ hr)
  have hother : ∀ x, x ≠ i → Function.update assigned i (some (.spill slot)) x = assigned x :=
    fun x hx => update_of_ne hx _ _
  have hback : ∀ {x q}, Function.update assigned i (some (.spill slot)) x = some (.reg q) → assigned x = some (.reg q) := by
    intro x q hq
    by_cases hx : x = i
    · subst hx
      rw [update_self] at hq
      cases hq
    · rwa [hother x hx] at hq
  refine ⟨h.full, h.freeNodup, h.freeSmall, h.activeNodup, fun j hj => ?_, fun j hj j' hj' he => ?_,
    fun j r hc hr => h.small j r hc (hback hr), fun j r hc hr => h.past j r hc (hback hr),
    fun j j' r hjj hc hc' hr hr' => h.apart j j' r hjj hc hc' (hback hr) (hback hr')⟩
  · obtain ⟨hc, r, hr, hfree⟩ := h.holds j hj
    exact ⟨hc, r, (hother j (hne j hj)).trans hr, hfree⟩
  · rw [hother j (hne j hj), hother j' (hne j' hj')] at he
    exact h.distinct j hj j' hj' he

theorem SlotsSound.spill (h : SlotsSound ivs assigned slotIsOop spilled) (hi : i ∉ spilled) :
    SlotsSound ivs (Function.update assigned i (some (.spill (UInt16.ofNat slotIsOop.length))))
      (slotIsOop ++ [(interval ivs i).isOop]) (spilled ++ [i]) := by
  have hlen : slotIsOop.length = spilled.length := by rw [h.flags, length_map]
  refine ⟨?_, ?_, fun k j hk => ?_, fun j slot hj => ?_⟩
  · exact nodup_append'.mpr ⟨h.nodup, nodup_singleton i,
      fun j hj hj' => hi (mem_singleton.mp hj' ▸ hj)⟩
  · rw [h.flags, map_append, map_singleton]
  · rcases Nat.lt_or_ge k spilled.length with hlt | hge
    · rw [List.getElem?_append_left hlt] at hk
      have hne : j ≠ i := fun he => hi (he ▸ mem_of_getElem? hk)
      rw [update_of_ne hne]
      exact h.slot k j hk
    · rw [List.getElem?_append_right hge] at hk
      obtain ⟨hk0, hji⟩ := List.getElem?_eq_some_iff.mp hk
      rw [length_singleton] at hk0
      have hke : k = slotIsOop.length := by omega
      have hij : j = i := by simpa using hji.symm
      rw [hij, update_self, hke]
  · by_cases hji : j = i
    · exact mem_append_right _ (mem_singleton.mpr hji)
    · rw [update_of_ne hji] at hj
      exact mem_append_left _ (h.all j slot hj)

theorem SlotsSound.assignReg (h : SlotsSound ivs assigned slotIsOop spilled) (hi : i ∉ spilled) (r : UInt8) :
    SlotsSound ivs (Function.update assigned i (some (.reg r))) slotIsOop spilled := by
  refine ⟨h.nodup, h.flags, fun k j hk => ?_, fun j slot hj => ?_⟩
  · have hne : j ≠ i := fun he => hi (he ▸ mem_of_getElem? hk)
    rw [update_of_ne hne]
    exact h.slot k j hk
  · by_cases hji : j = i
    · subst hji
      rw [update_self] at hj
      cases hj
    · rw [update_of_ne hji] at hj
      exact h.all j slot hj

def classSize (isFp : Bool) : Nat := if isFp then NUM_FP_ALLOCATABLE_REGS else NUM_ALLOCATABLE_REGS

variable (st : LinearScan)

@[simp] theorem file_setFile_self (c : Bool) (f : RegFile) : (st.setFile c f).file c = f := by
  cases c <;> rfl

@[simp] theorem file_setFile_not (c : Bool) (f : RegFile) : (st.setFile c f).file (!c) = st.file (!c) := by
  cases c <;> rfl

@[simp] theorem assigned_setFile (c : Bool) (f : RegFile) : (st.setFile c f).assigned = st.assigned := by
  cases c <;> rfl

@[simp] theorem slotIsOop_setFile (c : Bool) (f : RegFile) : (st.setFile c f).slotIsOop = st.slotIsOop := by
  cases c <;> rfl

variable (ivs) in
/-- Both classes of registers and the slots are sound at position `now`. -/
structure Sound (now : Nat) (st : LinearScan) : Prop where
  files : ∀ c, FileSound ivs st.assigned c (classSize c) now (st.file c)
  slots : ∃ spilled, SlotsSound ivs st.assigned st.slotIsOop spilled

theorem class_cases (c c' : Bool) : c' = c ∨ c' = !c := by
  cases c <;> cases c' <;> simp

/-- What a step does to the assignments: one more interval has one, and no slot is given up. -/
structure Advances (i : Nat) (assigned assigned' : Nat → Option Assignment) : Prop where
  none_iff : ∀ j, assigned' j = none ↔ assigned j = none ∧ j ≠ i
  spill : ∀ j slot, assigned j = some (.spill slot) → assigned' j = some (.spill slot)

theorem Sound.step {now : Nat} {st : LinearScan} {i : Nat} (h : Sound ivs now st) (hnone : st.assigned i = none)
    (hle : now ≤ (interval ivs i).start) : ∃ st', st.step ivs i = some st' ∧ Sound ivs (interval ivs i).start st' ∧
      Advances i st.assigned st'.assigned := by
  obtain ⟨spilled, hslots⟩ := h.slots
  have hreg : ∀ r, st.assigned i ≠ some (.reg r) := fun r hr => by rw [hnone] at hr; cases hr
  have hfresh : i ∉ spilled := by
    intro hmem
    obtain ⟨k, hk⟩ := mem_iff_getElem?.mp hmem
    rw [hslots.slot k i hk] at hnone
    cases hnone
  have hfile := (h.files (interval ivs i).isFp).expire hle
  have hother := (h.files (!(interval ivs i).isFp)).later hle
  generalize hf : expire ivs st.assigned (interval ivs i).start (st.file (interval ivs i).isFp) = f at hfile
  -- The other class is untouched by assignments to intervals of this one.
  have hframe : ∀ {st' : LinearScan}, FileSound ivs st'.assigned (interval ivs i).isFp (classSize (interval ivs i).isFp)
      (interval ivs i).start (st'.file (interval ivs i).isFp) → st'.file (!(interval ivs i).isFp) = st.file (!(interval ivs i).isFp) →
      (∀ j, (interval ivs j).isFp = (!(interval ivs i).isFp) → st'.assigned j = st.assigned j) →
      (∃ spilled, SlotsSound ivs st'.assigned st'.slotIsOop spilled) → Sound ivs (interval ivs i).start st' := by
    intro st' hown hsame hassigned hsl
    refine ⟨fun c => ?_, hsl⟩
    rcases class_cases (interval ivs i).isFp c with rfl | rfl
    · exact hown
    · rw [hsame]
      exact hother.congr hassigned
  have hclass : ∀ j, (interval ivs j).isFp = (!(interval ivs i).isFp) → j ≠ i := by
    intro j hj he
    rw [he] at hj
    cases hc : (interval ivs i).isFp <;> simp [hc] at hj
  have hskip : ∀ j, Function.update st.assigned i (some (.spill (UInt16.ofNat st.slotIsOop.length))) j = none ↔
      st.assigned j = none ∧ j ≠ i := by
    intro j
    by_cases hji : j = i
    · subst hji
      simp
    · rw [update_of_ne hji]
      exact (and_iff_left hji).symm
  unfold LinearScan.step
  dsimp only
  rw [hf]
  cases hfree : f.free with
  | cons r free =>
    refine ⟨_, rfl, hframe ?_ ?_ (fun j hj => ?_) ⟨spilled, ?_⟩, fun j => ?_, fun j slot hj => ?_⟩
    · rw [assigned_setFile, file_setFile_self]
      have hf' : FileSound ivs st.assigned (interval ivs i).isFp (classSize (interval ivs i).isFp) (interval ivs i).start
          ⟨f.active, r :: free⟩ := hfree ▸ hfile
      exact hf'.take rfl hreg
    · rw [file_setFile_not]
      cases (interval ivs i).isFp <;> rfl
    · rw [assigned_setFile]
      exact update_of_ne (hclass j hj) _ _
    · rw [assigned_setFile, slotIsOop_setFile]
      exact hslots.assignReg hfresh r
    · rw [assigned_setFile]
      show Function.update st.assigned i (some (.reg r)) j = none ↔ _
      by_cases hji : j = i
      · subst hji
        simp
      · rw [update_of_ne hji]
        exact (and_iff_left hji).symm
    · rw [assigned_setFile]
      have hji : j ≠ i := fun he => by rw [he, hnone] at hj; cases hj
      exact (update_of_ne hji _ _).trans hj
  | nil =>
    have hne : f.active ≠ [] := by
      intro hempty
      have hfull := hfile.full
      rw [hempty, hfree] at hfull
      cases hc : (interval ivs i).isFp <;> rw [hc] at hfull <;> cases hfull
    obtain ⟨pos, j, hfur, hpos⟩ := @furthest_spec ivs f.active hne
    rw [hfur]
    dsimp only
    by_cases hend : (interval ivs i).end_ < (interval ivs j).end_
    · obtain ⟨hjc, r, hjr, -⟩ := hfile.holds j (mem_of_getElem? hpos)
      have hij : i ≠ j := fun he => by rw [he, hjr] at hnone; cases hnone
      rw [if_pos hend, hjr]
      dsimp only
      have hev := hfile.evict hpos hjr (UInt16.ofNat st.slotIsOop.length)
      rw [hfree] at hev
      have hjspilled : j ∉ spilled := by
        intro hmem
        obtain ⟨k, hk⟩ := mem_iff_getElem?.mp hmem
        rw [hslots.slot k j hk] at hjr
        cases hjr
      have hslots' := hslots.spill hjspilled
      have hnone' : Function.update st.assigned j (some (.spill (UInt16.ofNat st.slotIsOop.length))) i = none :=
        (update_of_ne hij _ _).trans hnone
      have hfresh' : i ∉ spilled ++ [j] := by
        rw [mem_append, mem_singleton]
        exact fun hmem => hmem.elim hfresh hij
      refine ⟨_, rfl, hframe ?_ ?_ (fun x hx => ?_) ⟨spilled ++ [j], ?_⟩, fun x => ?_, fun x slot hx => ?_⟩
      · rw [assigned_setFile, file_setFile_self]
        exact hev.take rfl fun q hq => by rw [hnone'] at hq; cases hq
      · rw [file_setFile_not]
        cases (interval ivs i).isFp <;> rfl
      · rw [assigned_setFile]
        have hxj : x ≠ j := by
          intro he
          rw [he, hjc] at hx
          cases hc : (interval ivs i).isFp <;> simp [hc] at hx
        exact (update_of_ne (hclass x hx) _ _).trans (update_of_ne hxj _ _)
      · rw [assigned_setFile, slotIsOop_setFile]
        exact hslots'.assignReg hfresh' r
      · rw [assigned_setFile]
        show Function.update (Function.update st.assigned j _) i (some (.reg r)) x = none ↔ _
        by_cases hxi : x = i
        · subst hxi
          simp
        · rw [update_of_ne hxi]
          by_cases hxj : x = j
          · subst hxj
            rw [update_self, hjr]
            simp
          · rw [update_of_ne hxj]
            exact (and_iff_left hxi).symm
      · rw [assigned_setFile]
        have hxi : x ≠ i := fun he => by rw [he, hnone] at hx; cases hx
        have hxj : x ≠ j := fun he => by rw [he, hjr] at hx; cases hx
        exact (update_of_ne hxi _ _).trans ((update_of_ne hxj _ _).trans hx)
    · rw [if_neg hend]
      refine ⟨_, rfl, hframe ?_ ?_ (fun x hx => ?_) ⟨spilled ++ [i], ?_⟩, fun x => ?_, fun x slot hx => ?_⟩
      · rw [assigned_setFile, file_setFile_self]
        exact hfile.skip hreg _
      · rw [file_setFile_not]
        cases (interval ivs i).isFp <;> rfl
      · rw [assigned_setFile]
        exact update_of_ne (hclass x hx) _ _
      · rw [assigned_setFile, slotIsOop_setFile]
        exact hslots.spill hfresh
      · rw [assigned_setFile]
        exact hskip x
      · rw [assigned_setFile]
        have hxi : x ≠ i := fun he => by rw [he, hnone] at hx; cases hx
        exact (update_of_ne hxi _ _).trans hx

theorem Sound.spill {now : Nat} {st : LinearScan} (h : Sound ivs now st) (hnone : st.assigned i = none) :
    Sound ivs now (st.spill ivs i) := by
  obtain ⟨spilled, hslots⟩ := h.slots
  have hfresh : i ∉ spilled := by
    intro hmem
    obtain ⟨k, hk⟩ := mem_iff_getElem?.mp hmem
    rw [hslots.slot k i hk] at hnone
    cases hnone
  refine ⟨fun c => ?_, spilled ++ [i], hslots.spill hfresh⟩
  have hsame : (st.spill ivs i).file c = st.file c := by cases c <;> rfl
  rw [hsame]
  exact (h.files c).skip (fun r hr => by rw [hnone] at hr; cases hr) _

theorem start_assigned (hfresh : ∀ iv ∈ ivs, iv.assignment = none) (i : Nat) : (start ivs).assigned i = none := by
  show (ivs.getD i default).assignment = none
  rw [getD_eq_getElem?_getD]
  cases hi : ivs[i]? with
  | none => rfl
  | some iv => exact hfresh iv (mem_of_getElem? hi)

theorem class_regs : ∀ c, (∀ r ∈ (List.range (classSize c)).map UInt8.ofNat, r.toNat < classSize c) ∧
    ((List.range (classSize c)).map UInt8.ofNat).Nodup ∧
    ((List.range (classSize c)).map UInt8.ofNat).length = classSize c := by
  decide +kernel

theorem start_sound (hfresh : ∀ iv ∈ ivs, iv.assignment = none) : Sound ivs 0 (start ivs) := by
  have hnone := start_assigned hfresh
  have hreg : ∀ {j r}, (start ivs).assigned j ≠ some (.reg r) := fun {j r} h => by rw [hnone] at h; cases h
  refine ⟨fun c => ?_, [], nodup_nil, rfl, fun k i hk => (by simp at hk), fun i slot hi => ?_⟩
  · have hactive : ((start ivs).file c).active = [] := by cases c <;> rfl
    have hfree : ((start ivs).file c).free = (List.range (classSize c)).map UInt8.ofNat := by cases c <;> rfl
    obtain ⟨hlt, hnodup, hlen⟩ := class_regs c
    rw [← hfree] at hlt hnodup hlen
    refine ⟨by rw [hactive, hlen]; exact Nat.zero_add _, hnodup, hlt, by rw [hactive]; exact nodup_nil,
      fun j hj => ?_, fun j hj => ?_, fun j r _ hr => absurd hr hreg, fun j r _ hr => absurd hr hreg,
      fun j j' r _ _ _ hr => absurd hr hreg⟩
    · rw [hactive] at hj
      cases hj
    · rw [hactive] at hj
      cases hj
  · rw [hnone] at hi
    cases hi

theorem spillEach_spec : ∀ {is : List Nat} {st : LinearScan}, is.Nodup → Sound ivs 0 st →
    (∀ i ∈ is, st.assigned i = none) →
    Sound ivs 0 (is.foldl (fun st i => if (interval ivs i).crossesSafepoint then st.spill ivs i else st) st) ∧
      ∀ i, (i ∈ is ∧ (interval ivs i).crossesSafepoint = true →
          ∃ slot, (is.foldl (fun st i => if (interval ivs i).crossesSafepoint then st.spill ivs i else st) st).assigned i =
            some (.spill slot)) ∧
        (¬ (i ∈ is ∧ (interval ivs i).crossesSafepoint = true) →
          (is.foldl (fun st i => if (interval ivs i).crossesSafepoint then st.spill ivs i else st) st).assigned i =
            st.assigned i) := by
  intro is
  induction is with
  | nil => intro st _ h _; exact ⟨h, fun i => ⟨fun hi => absurd hi.1 not_mem_nil, fun _ => rfl⟩⟩
  | cons i is ih =>
    intro st hnodup h hnone
    obtain ⟨hnotin, hnodup'⟩ := nodup_cons.mp hnodup
    rw [foldl_cons]
    by_cases hcross : (interval ivs i).crossesSafepoint = true
    · rw [if_pos hcross]
      have hother : ∀ j, j ≠ i → (st.spill ivs i).assigned j = st.assigned j := fun j hj => update_of_ne hj _ _
      have hself : ∃ slot, (st.spill ivs i).assigned i = some (.spill slot) := ⟨_, update_self ..⟩
      obtain ⟨hsound, hspec⟩ := ih hnodup' (h.spill (hnone i mem_cons_self)) fun j hj =>
        (hother j fun he => hnotin (he ▸ hj)).trans (hnone j (mem_cons_of_mem _ hj))
      refine ⟨hsound, fun j => ⟨fun hj => ?_, fun hj => ?_⟩⟩
      · rcases mem_cons.mp hj.1 with rfl | hmem
        · rw [(hspec j).2 fun hmem => hnotin hmem.1]
          exact hself
        · exact (hspec j).1 ⟨hmem, hj.2⟩
      · have hji : j ≠ i := fun he => hj ⟨he ▸ mem_cons_self, he ▸ hcross⟩
        rw [(hspec j).2 fun hmem => hj ⟨mem_cons_of_mem _ hmem.1, hmem.2⟩]
        exact hother j hji
    · rw [if_neg hcross]
      obtain ⟨hsound, hspec⟩ := ih hnodup' h fun j hj => hnone j (mem_cons_of_mem _ hj)
      refine ⟨hsound, fun j => ⟨fun hj => ?_, fun hj => ?_⟩⟩
      · rcases mem_cons.mp hj.1 with rfl | hmem
        · exact absurd hj.2 hcross
        · exact (hspec j).1 ⟨hmem, hj.2⟩
      · exact (hspec j).2 fun hmem => hj ⟨mem_cons_of_mem _ hmem.1, hmem.2⟩

theorem Sound.run : ∀ {is : List Nat} {now : Nat} {st : LinearScan}, Sound ivs now st → is.Nodup →
    is.Pairwise (fun i j => (interval ivs i).start ≤ (interval ivs j).start) → (∀ i ∈ is, st.assigned i = none) →
    (∀ i ∈ is, now ≤ (interval ivs i).start) →
    ∃ now' st', is.foldlM (LinearScan.step ivs) st = some st' ∧ Sound ivs now' st' ∧
      (∀ j, st'.assigned j = none ↔ st.assigned j = none ∧ j ∉ is) ∧
      ∀ j slot, st.assigned j = some (.spill slot) → st'.assigned j = some (.spill slot) := by
  intro is
  induction is with
  | nil =>
    intro now st h _ _ _ _
    exact ⟨now, st, rfl, h, fun j => (and_iff_left not_mem_nil).symm, fun _ _ hj => hj⟩
  | cons i is ih =>
    intro now st h hnodup hsorted hnone hle
    obtain ⟨hnotin, hnodup'⟩ := nodup_cons.mp hnodup
    obtain ⟨hfirst, hsorted'⟩ := pairwise_cons.mp hsorted
    obtain ⟨st₁, hstep, h₁, hadv⟩ := h.step (hnone i mem_cons_self) (hle i mem_cons_self)
    obtain ⟨now', st', hrun, h', hnone', hspill'⟩ := ih h₁ hnodup' hsorted'
      (fun j hj => (hadv.none_iff j).mpr ⟨hnone j (mem_cons_of_mem _ hj), fun he => hnotin (he ▸ hj)⟩) hfirst
    refine ⟨now', st', ?_, h', fun j => ?_, fun j slot hj => hspill' j slot (hadv.spill j slot hj)⟩
    · rw [foldlM_cons, hstep]
      exact hrun
    · rw [hnone', hadv.none_iff, mem_cons, and_assoc, not_or]

theorem scan_spec (hfresh : ∀ iv ∈ ivs, iv.assignment = none) :
    ∃ now st, ((spillCrossing ivs).order ivs).foldlM (LinearScan.step ivs) (spillCrossing ivs) = some st ∧
      Sound ivs now st ∧ (∀ i < ivs.length, st.assigned i ≠ none) ∧
      (∀ i < ivs.length, (interval ivs i).crossesSafepoint = true → ∃ slot, st.assigned i = some (.spill slot)) ∧
      ∀ i a, st.assigned i = some a → i < ivs.length := by
  have hstart := start_assigned hfresh
  obtain ⟨hsound, hspec⟩ := spillEach_spec (nodup_range (n := ivs.length)) (start_sound hfresh) fun i _ => hstart i
  have hperm : ((spillCrossing ivs).order ivs).Perm
      ((List.range ivs.length).filter fun i => ((spillCrossing ivs).assigned i).isNone) := perm_insertionSort _ _
  have hmem : ∀ i, i ∈ (spillCrossing ivs).order ivs ↔ i < ivs.length ∧ (spillCrossing ivs).assigned i = none := by
    intro i
    rw [hperm.mem_iff, mem_filter, mem_range, Option.isNone_iff_eq_none]
  have htotal : Std.Total fun i j => (interval ivs i).start ≤ (interval ivs j).start := ⟨fun _ _ => Nat.le_total _ _⟩
  have htrans : IsTrans Nat fun i j => (interval ivs i).start ≤ (interval ivs j).start := ⟨fun _ _ _ => Nat.le_trans⟩
  have hsorted : ((spillCrossing ivs).order ivs).Pairwise fun i j => (interval ivs i).start ≤ (interval ivs j).start :=
    pairwise_insertionSort _ _
  obtain ⟨now, st, hrun, h, hnone, hspill⟩ := Sound.run hsound (hperm.nodup_iff.mpr (nodup_range.filter _)) hsorted
    (fun i hi => ((hmem i).mp hi).2) fun i _ => Nat.zero_le _
  refine ⟨now, st, hrun, h, fun i hi hn => ?_, fun i hi hcross => ?_, fun i a ha => ?_⟩
  · obtain ⟨hn', hnot⟩ := (hnone i).mp hn
    exact hnot ((hmem i).mpr ⟨hi, hn'⟩)
  · obtain ⟨slot, hslot⟩ := (hspec i).1 ⟨mem_range.mpr hi, hcross⟩
    exact ⟨slot, hspill i slot hslot⟩
  · by_contra hge
    have hn : st.assigned i = none := by
      refine (hnone i).mpr ⟨?_, fun hmem' => hge ((hmem i).mp hmem').1⟩
      have hnot : ¬ (i ∈ List.range ivs.length ∧ (interval ivs i).crossesSafepoint = true) :=
        fun hr => hge (mem_range.mp hr.1)
      exact ((hspec i).2 hnot).trans (hstart i)
    rw [hn] at ha
    cases ha

end WinArmVm.LinearScan
