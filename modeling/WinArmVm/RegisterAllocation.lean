import Mathlib.Algebra.Group.Nat.Defs
import WinArmVm.LinearScanSound

namespace WinArmVm

open List Option Function LinearScan Residents

namespace Residents

variable (ivs : List LiveInterval)

/-- Where the residents of one class are is on record, and none collides with another of its register. -/
structure ClassSound (isFp : Bool) (regs : List UInt8) (resident : Nat → Option UInt8)
    (taken : List (List (Nat × Nat))) : Prop where
  windows : ∀ i r, (LinearScan.interval ivs i).isFp = isFp → resident i = some r →
    ∃ t, (r, t) ∈ regs.zip taken ∧ ((LinearScan.interval ivs i).start, (LinearScan.interval ivs i).end_) ∈ t
  apart : ∀ i j r, i ≠ j → (LinearScan.interval ivs i).isFp = isFp → (LinearScan.interval ivs j).isFp = isFp →
    resident i = some r → resident j = some r → ¬ (LinearScan.interval ivs i).Collides (LinearScan.interval ivs j)

structure Sound (st : Residents) : Prop where
  gpr : ClassSound ivs false (pool ivs) st.resident st.taken
  fp : ClassSound ivs true fpPool st.resident st.fpTaken

variable {ivs}

theorem place_spec {s e : Nat} : ∀ {regs : List UInt8} {taken taken' : List (List (Nat × Nat))} {r : UInt8},
    regs.Nodup → place s e regs taken = some (r, taken') →
    (∀ t, (r, t) ∈ regs.zip taken → ∀ w ∈ t, e ≤ w.1 ∨ w.2 ≤ s) ∧ (∃ t, (r, t) ∈ regs.zip taken' ∧ (s, e) ∈ t) ∧
      ∀ r' t, (r', t) ∈ regs.zip taken → ∃ t', (r', t') ∈ regs.zip taken' ∧ ∀ w ∈ t, w ∈ t' := by
  intro regs
  induction regs with
  | nil => intro taken taken' r _ h; cases taken <;> cases h
  | cons r₀ regs ih =>
    intro taken taken' r hnodup h
    cases taken with
    | nil => cases h
    | cons t₀ taken =>
      obtain ⟨hnotin, hnodup'⟩ := nodup_cons.mp hnodup
      unfold place at h
      split at h
      next hroom =>
        cases h
        refine ⟨fun t ht w hw => ?_, ⟨_, mem_cons_self, mem_append_right _ (mem_singleton.mpr rfl)⟩,
          fun r' t ht => ?_⟩
        · rcases mem_cons.mp ht with heq | ht
          · cases heq
            exact of_decide_eq_true (all_eq_true.mp hroom w hw)
          · exact absurd (of_mem_zip ht).1 hnotin
        · rcases mem_cons.mp ht with heq | ht
          · cases heq
            exact ⟨_, mem_cons_self, fun w hw => mem_append_left _ hw⟩
          · exact ⟨t, mem_cons_of_mem _ ht, fun w hw => hw⟩
      next =>
        obtain ⟨⟨r₁, taken₁⟩, hplace, heq⟩ := map_eq_some_iff.mp h
        cases heq
        obtain ⟨happart, ⟨t₁, ht₁, hmem₁⟩, hkeep⟩ := ih hnodup' hplace
        refine ⟨fun t ht => ?_, ⟨t₁, mem_cons_of_mem _ ht₁, hmem₁⟩, fun r' t ht => ?_⟩
        · rcases mem_cons.mp ht with heq | ht
          · cases heq
            exact absurd (of_mem_zip ht₁).1 hnotin
          · exact happart t ht
        · rcases mem_cons.mp ht with heq | ht
          · cases heq
            exact ⟨_, mem_cons_self, fun w hw => hw⟩
          · obtain ⟨t', ht', hsub⟩ := hkeep r' t ht
            exact ⟨t', mem_cons_of_mem _ ht', hsub⟩

theorem ClassSound.place {isFp : Bool} {regs : List UInt8} {resident : Nat → Option UInt8}
    {taken taken' : List (List (Nat × Nat))} {i : Nat} {r : UInt8} (h : ClassSound ivs isFp regs resident taken)
    (hnodup : regs.Nodup)
    (hplace : place (LinearScan.interval ivs i).start (LinearScan.interval ivs i).end_ regs taken = some (r, taken')) :
    ClassSound ivs isFp regs (Function.update resident i (some r)) taken' := by
  obtain ⟨hroom, hnew, hkeep⟩ := place_spec hnodup hplace
  have hclear : ∀ j, j ≠ i → (interval ivs j).isFp = isFp → resident j = some r →
      (interval ivs i).end_ ≤ (interval ivs j).start ∨
        (interval ivs j).end_ ≤ (interval ivs i).start := by
    intro j _ hc hr
    obtain ⟨t, ht, hw⟩ := h.windows j r hc hr
    exact hroom t ht _ hw
  refine ⟨fun j q hc hq => ?_, fun j j' q hne hc hc' hq hq' hcol => ?_⟩
  · by_cases hji : j = i
    · subst hji
      rw [update_self] at hq
      cases hq
      exact hnew
    · rw [update_of_ne hji] at hq
      obtain ⟨t, ht, hw⟩ := h.windows j q hc hq
      obtain ⟨t', ht', hsub⟩ := hkeep q t ht
      exact ⟨t', ht', hsub _ hw⟩
  · obtain ⟨hlt, hlt'⟩ := hcol
    by_cases hji : j = i
    · subst hji
      rw [update_self] at hq
      cases hq
      rw [update_of_ne (Ne.symm hne)] at hq'
      have := hclear j' (Ne.symm hne) hc' hq'
      omega
    · rw [update_of_ne hji] at hq
      by_cases hji' : j' = i
      · subst hji'
        rw [update_self] at hq'
        cases hq'
        have := hclear j hji hc hq
        omega
      · rw [update_of_ne hji'] at hq'
        exact h.apart j j' q hne hc hc' hq hq' ⟨hlt, hlt'⟩

theorem ClassSound.other {isFp : Bool} {regs : List UInt8} {resident : Nat → Option UInt8}
    {taken : List (List (Nat × Nat))} {i : Nat} (h : ClassSound ivs isFp regs resident taken)
    (hi : (LinearScan.interval ivs i).isFp ≠ isFp) (r : UInt8) :
    ClassSound ivs isFp regs (Function.update resident i (some r)) taken := by
  have hsame : ∀ {j q}, (interval ivs j).isFp = isFp → Function.update resident i (some r) j = some q →
      resident j = some q := by
    intro j q hc hq
    rwa [update_of_ne fun he => hi (by rw [← he]; exact hc)] at hq
  exact ⟨fun j q hc hq => h.windows j q hc (hsame hc hq),
    fun j j' q hne hc hc' hq hq' => h.apart j j' q hne hc hc' (hsame hc hq) (hsame hc' hq')⟩

theorem pool_nodup : (pool ivs).Nodup := by
  refine nodup_append'.mpr ⟨by decide, List.Nodup.filter _ (by decide), fun r hr hr' => ?_⟩
  have hno : ∀ r ∈ ([21, 22, 23, 24, 25, 26, 27] : List UInt8),
      r ∉ ((List.range NUM_ALLOCATABLE_REGS).drop 6).map UInt8.ofNat := by decide +kernel
  exact hno r hr (mem_filter.mp hr').1

theorem Sound.step {st : Residents} (h : Sound ivs st) (i : Nat) : Sound ivs (st.step ivs i) := by
  unfold Residents.step
  dsimp only
  split
  next hfp =>
    split
    next r fpTaken hplace =>
      exact ⟨h.gpr.other (by rw [hfp]; decide) r, h.fp.place (by decide) hplace⟩
    next => exact h
  next hfp =>
    split
    next r taken hplace =>
      exact ⟨h.gpr.place pool_nodup hplace, h.fp.other hfp r⟩
    next => exact h

theorem Sound.run : ∀ (is : List Nat) {st : Residents}, Sound ivs st → Sound ivs (is.foldl (Residents.step ivs) st) := by
  intro is
  induction is with
  | nil => intro st h; exact h
  | cons i is ih => intro st h; exact ih (h.step i)

theorem start_sound (hfresh : ∀ iv ∈ ivs, iv.residentReg = none) : Sound ivs (start ivs) := by
  have hnone : ∀ {i r}, (start ivs).resident i ≠ some r := by
    intro i r hr
    have hi : (ivs.getD i default).residentReg = some r := hr
    rw [getD_eq_getElem?_getD] at hi
    cases hg : ivs[i]? with
    | none =>
      rw [hg] at hi
      cases hi
    | some iv =>
      rw [hg] at hi
      have hiv : iv.residentReg = some r := hi
      rw [hfresh iv (mem_of_getElem? hg)] at hiv
      cases hiv
  exact ⟨⟨fun i r _ hr => absurd hr hnone, fun i j r _ _ _ hr => absurd hr hnone⟩,
    ⟨fun i r _ hr => absurd hr hnone, fun i j r _ _ _ hr => absurd hr hnone⟩⟩

end Residents

def spilledCount (ivs : List LiveInterval) : Nat := ivs.countP fun iv => iv.assignment.any fun a => !a.isReg

structure InterferenceFree (out : List LiveInterval) (slotIsOop : List Bool) : Prop where
  assigned : ∀ iv ∈ out, iv.assignment ≠ none
  ofClass : ∀ iv ∈ out, ∀ r, iv.assignment = some (.reg r) → r.toNat < LinearScan.classSize iv.isFp
  regs : ∀ (i j : Nat) a b r, i ≠ j → out[i]? = some a → out[j]? = some b → a.isFp = b.isFp →
    a.assignment = some (.reg r) → b.assignment = some (.reg r) → ¬ a.Overlaps b
  safepoints : ∀ iv ∈ out, iv.crossesSafepoint = true → ∃ slot, iv.assignment = some (.spill slot)
  slots : spilledCount out ≤ 2 ^ 16 → ∀ (i j : Nat) a b slot, out[i]? = some a → out[j]? = some b →
    a.assignment = some (.spill slot) → b.assignment = some (.spill slot) → i = j
  flags : spilledCount out ≤ 2 ^ 16 → ∀ iv ∈ out, ∀ slot, iv.assignment = some (.spill slot) →
    slotIsOop[slot.toNat]? = some iv.isOop

/-- What the residents owe: their windows meet in an end at most, and the scan has not handed out their registers. -/
structure ResidentsApart (out : List LiveInterval) : Prop where
  shared : ∀ (i j : Nat) a b r, i ≠ j → out[i]? = some a → out[j]? = some b → a.isFp = b.isFp →
    a.residentReg = some r → b.residentReg = some r → ¬ a.Collides b
  scanned : ∀ a ∈ out, ∀ b ∈ out, ∀ r, a.isFp = b.isFp → a.residentReg = some r → b.assignment ≠ some (.reg r)

namespace LinearScan

variable {ivs : List LiveInterval} {st : LinearScan} {a : LiveInterval}

theorem getElem?_out {i : Nat} :
    (st.out ivs)[i]? = some a ↔ i < ivs.length ∧ { interval ivs i with assignment := st.assigned i } = a := by
  unfold out
  rw [List.getElem?_map, map_eq_some_iff]
  constructor
  · intro ⟨j, hj, ha⟩
    obtain ⟨hlt, hij⟩ := List.getElem?_eq_some_iff.mp hj
    rw [getElem_range] at hij
    rw [length_range] at hlt
    subst hij
    exact ⟨hlt, ha⟩
  · intro ⟨hlt, ha⟩
    exact ⟨i, List.getElem?_range hlt, ha⟩

theorem mem_out : a ∈ st.out ivs ↔ ∃ i < ivs.length, { interval ivs i with assignment := st.assigned i } = a := by
  rw [mem_iff_getElem?]
  simp only [getElem?_out]

theorem spilledCount_out {spilled : List Nat} (h : SlotsSound ivs st.assigned st.slotIsOop spilled)
    (hbound : ∀ i a, st.assigned i = some a → i < ivs.length) : spilledCount (st.out ivs) = spilled.length := by
  have hperm : spilled.Perm ((List.range ivs.length).filter fun i => (st.assigned i).any fun a => !a.isReg) := by
    refine (perm_ext_iff_of_nodup h.nodup (nodup_range.filter _)).mpr fun i => ?_
    rw [mem_filter, mem_range]
    constructor
    · intro hi
      obtain ⟨k, hk⟩ := mem_iff_getElem?.mp hi
      have hslot := h.slot k i hk
      refine ⟨hbound i _ hslot, ?_⟩
      rw [hslot]
      rfl
    · intro ⟨_, hi⟩
      cases ha : st.assigned i with
      | none =>
        rw [ha] at hi
        cases hi
      | some a =>
        rw [ha] at hi
        cases a with
        | reg r => cases hi
        | spill slot => exact h.all i slot ha
  unfold spilledCount out
  rw [countP_map, hperm.length_eq, countP_eq_length_filter]
  rfl

theorem Sound.interferenceFree {now : Nat} (h : Sound ivs now st) (hall : ∀ i < ivs.length, st.assigned i ≠ none)
    (hcross : ∀ i < ivs.length, (interval ivs i).crossesSafepoint = true → ∃ slot, st.assigned i = some (.spill slot))
    (hbound : ∀ i a, st.assigned i = some a → i < ivs.length) : InterferenceFree (st.out ivs) st.slotIsOop := by
  obtain ⟨spilled, hslots⟩ := h.slots
  have hplace : ∀ i slot, st.assigned i = some (.spill slot) → spilledCount (st.out ivs) ≤ 2 ^ 16 →
      spilled[slot.toNat]? = some i := by
    intro i slot hi hcount
    obtain ⟨k, hk⟩ := mem_iff_getElem?.mp (hslots.all i slot hi)
    have hkslot := hslots.slot k i hk
    rw [hi] at hkslot
    cases hkslot
    rw [spilledCount_out hslots hbound] at hcount
    have hlt := (List.getElem?_eq_some_iff.mp hk).1
    rw [UInt16.toNat_ofNat', Nat.mod_eq_of_lt (by omega)]
    exact hk
  refine ⟨fun iv hiv => ?_, fun iv hiv r hr => ?_, fun i j a b r hne ha hb hc hr hr' => ?_, fun iv hiv hcr => ?_,
    fun hcount i j a b slot ha hb hs hs' => ?_, fun hcount iv hiv slot hs => ?_⟩
  · obtain ⟨i, hi, rfl⟩ := mem_out.mp hiv
    exact hall i hi
  · obtain ⟨i, hi, rfl⟩ := mem_out.mp hiv
    exact (h.files (interval ivs i).isFp).small i r rfl hr
  · obtain ⟨hi, rfl⟩ := getElem?_out.mp ha
    obtain ⟨hj, rfl⟩ := getElem?_out.mp hb
    exact (h.files (interval ivs i).isFp).apart i j r hne rfl hc.symm hr hr'
  · obtain ⟨i, hi, rfl⟩ := mem_out.mp hiv
    exact hcross i hi hcr
  · obtain ⟨hi, rfl⟩ := getElem?_out.mp ha
    obtain ⟨hj, rfl⟩ := getElem?_out.mp hb
    exact some.inj ((hplace i slot hs hcount).symm.trans (hplace j slot hs' hcount))
  · obtain ⟨i, hi, rfl⟩ := mem_out.mp hiv
    rw [hslots.flags, List.getElem?_map, hplace i slot hs hcount]
    rfl

end LinearScan

variable {ivs : List LiveInterval}

theorem interval_eq_getElem {i : Nat} {iv : LiveInterval} (h : ivs[i]? = some iv) : LinearScan.interval ivs i = iv := by
  unfold interval
  rw [getD_eq_getElem?_getD, h]
  rfl

theorem map_interval {f : Nat → LiveInterval → LiveInterval} {g : LiveInterval → LiveInterval}
    (h : ∀ i iv, ivs[i]? = some iv → g (f i iv) = iv) :
    ((List.range ivs.length).map fun i => f i (LinearScan.interval ivs i)).map g = ivs := by
  apply ext_getElem?
  intro i
  rw [getElem?_map, getElem?_map]
  rcases Nat.lt_or_ge i ivs.length with hlt | hge
  · have hi := getElem?_eq_getElem hlt
    rw [getElem?_range hlt, map_some, map_some, interval_eq_getElem hi, h i _ hi, hi]
  · rw [getElem?_eq_none_iff.mpr (by rw [length_range]; exact hge), getElem?_eq_none_iff.mpr hge]
    rfl

theorem allocate_spec (hfresh : ∀ iv ∈ ivs, iv.assignment = none) :
    ∃ out frameSlots slotIsOop, allocate ivs = some (out, frameSlots, slotIsOop) ∧
      out.map (fun iv => { iv with assignment := none }) = ivs ∧ InterferenceFree out slotIsOop := by
  obtain ⟨now, st, hrun, h, hall, hcross, hbound⟩ := scan_spec hfresh
  have hfree := h.interferenceFree hall hcross hbound
  have hverify : verifySpillAll (st.out ivs) = true := by
    refine all_eq_true.mpr fun iv hiv => decide_eq_true fun hbad => ?_
    obtain ⟨slot, hslot⟩ := hfree.safepoints iv hiv hbad.1
    rw [hslot] at hbad
    exact Bool.false_ne_true hbad.2
  refine ⟨st.out ivs, UInt16.ofNat st.slotIsOop.length, st.slotIsOop, ?_, ?_, hfree⟩
  · unfold allocate
    dsimp only
    rw [hrun, bind_eq_bind, bind_some, if_pos hverify]
  · exact map_interval (f := fun i iv => { iv with assignment := st.assigned i }) fun i iv hi => by
      have := hfresh iv (mem_of_getElem? hi)
      cases iv
      cases this
      rfl

theorem assignResidents_spec {out : List LiveInterval} (acrossCalls : Bool) (hfresh : ∀ iv ∈ out, iv.residentReg = none)
    (hclass : ∀ iv ∈ out, ∀ r, iv.assignment = some (.reg r) → r.toNat < LinearScan.classSize iv.isFp) :
    (assignResidents acrossCalls out).map (fun iv => { iv with residentReg := none }) = out ∧
      ResidentsApart (assignResidents acrossCalls out) := by
  have h := (start_sound hfresh).run (order out acrossCalls)
  generalize hst : (order out acrossCalls).foldl (step out) (start out) = st at h
  have hdef : assignResidents acrossCalls out =
      (List.range out.length).map fun i => { interval out i with residentReg := st.resident i } := by
    unfold assignResidents
    rw [hst]
  have hget : ∀ {i : Nat} {a}, (assignResidents acrossCalls out)[i]? = some a →
      i < out.length ∧ { interval out i with residentReg := st.resident i } = a := by
    intro i a ha
    rw [hdef, List.getElem?_map] at ha
    obtain ⟨j, hj, ha⟩ := map_eq_some_iff.mp ha
    obtain ⟨hlt, hij⟩ := List.getElem?_eq_some_iff.mp hj
    rw [getElem_range] at hij
    rw [length_range] at hlt
    subst hij
    exact ⟨hlt, ha⟩
  have hmem : ∀ {i : Nat}, i < out.length → interval out i ∈ out := by
    intro i hi
    rw [interval_eq_getElem (List.getElem?_eq_getElem hi)]
    exact getElem_mem hi
  refine ⟨?_, fun i j a b r hne ha hb hc hr hr' => ?_, fun a ha b hb r hc hr hr' => ?_⟩
  · rw [hdef]
    exact map_interval (f := fun i iv => { iv with residentReg := st.resident i }) fun i iv hi => by
      have := hfresh iv (mem_of_getElem? hi)
      cases iv
      cases this
      rfl
  · obtain ⟨hi, rfl⟩ := hget ha
    obtain ⟨hj, rfl⟩ := hget hb
    cases hfp : (interval out i).isFp with
    | true => exact h.fp.apart i j r hne hfp (hc.symm.trans hfp) hr hr'
    | false => exact h.gpr.apart i j r hne hfp (hc.symm.trans hfp) hr hr'
  · obtain ⟨i, ha⟩ := mem_iff_getElem?.mp ha
    obtain ⟨j, hb⟩ := mem_iff_getElem?.mp hb
    obtain ⟨hi, rfl⟩ := hget ha
    obtain ⟨hj, rfl⟩ := hget hb
    have hsmall := hclass _ (hmem hj) r hr'
    cases hfp : (interval out i).isFp with
    | true =>
      obtain ⟨t, ht, -⟩ := h.fp.windows i r hfp hr
      have hpool : ∀ r ∈ fpPool, ¬ r.toNat < NUM_FP_ALLOCATABLE_REGS := by decide +kernel
      rw [← show (interval out i).isFp = (interval out j).isFp from hc, hfp] at hsmall
      exact hpool r (of_mem_zip ht).1 hsmall
    | false =>
      obtain ⟨t, ht, -⟩ := h.gpr.windows i r hfp hr
      rw [← show (interval out i).isFp = (interval out j).isFp from hc, hfp] at hsmall
      rcases mem_append.mp (of_mem_zip ht).1 with hbase | hidle
      · have hbig : ∀ r ∈ ([21, 22, 23, 24, 25, 26, 27] : List UInt8), ¬ r.toNat < NUM_ALLOCATABLE_REGS := by decide +kernel
        exact hbig r hbase hsmall
      · obtain ⟨-, hunused⟩ := mem_filter.mp hidle
        have hused : regUsed out r = true := by
          refine any_eq_true.mpr ⟨_, hmem hj, ?_⟩
          have hjfp : (interval out j).isFp = false := hc.symm.trans hfp
          rw [hjfp, show (interval out j).assignment = some (.reg r) from hr']
          simp
        rw [hused] at hunused
        cases hunused

/-- The scan and the residents after it, on any intervals that have no assignment yet. -/
theorem allocation_interferenceFree (ivs : List LiveInterval) (acrossCalls : Bool)
    (hfresh : ∀ iv ∈ ivs, iv.assignment = none ∧ iv.residentReg = none) :
    ∃ out frameSlots slotIsOop, allocate ivs = some (out, frameSlots, slotIsOop) ∧
      out.map (fun iv => { iv with assignment := none }) = ivs ∧ InterferenceFree out slotIsOop ∧
      (assignResidents acrossCalls out).map (fun iv => { iv with residentReg := none }) = out ∧
      ResidentsApart (assignResidents acrossCalls out) := by
  obtain ⟨out, frameSlots, slotIsOop, halloc, hsame, hfree⟩ := allocate_spec fun iv hiv => (hfresh iv hiv).1
  have hres : ∀ iv ∈ out, iv.residentReg = none := by
    intro iv hiv
    have hmem : { iv with assignment := none } ∈ ivs := hsame ▸ mem_map_of_mem hiv
    exact (hfresh _ hmem).2
  obtain ⟨hkeep, hapart⟩ := assignResidents_spec acrossCalls hres hfree.ofClass
  exact ⟨out, frameSlots, slotIsOop, halloc, hsame, hfree, hkeep, hapart⟩

def touching : List LiveInterval :=
  [⟨0, 1, 5, true, false, true, false, none, none⟩, ⟨1, 5, 9, true, false, true, false, none, none⟩]

theorem allocation_interferenceFree_touching :
    ∃ out frameSlots slotIsOop, allocate touching = some (out, frameSlots, slotIsOop) ∧
      out.map (fun iv => { iv with assignment := none }) = touching ∧ InterferenceFree out slotIsOop ∧
      (assignResidents true out).map (fun iv => { iv with residentReg := none }) = out ∧
      ResidentsApart (assignResidents true out) :=
  allocation_interferenceFree touching true (by decide)

/-- Both reach position 5, and both are resident in x21. -/
theorem touching_share_resident : ∃ out frameSlots slotIsOop a b, allocate touching = some (out, frameSlots, slotIsOop) ∧
    assignResidents true out = [a, b] ∧ a.isFp = b.isFp ∧ a.residentReg = some 21 ∧ b.residentReg = some 21 ∧
    a.Overlaps b := by
  refine ⟨[⟨0, 1, 5, true, false, true, false, some (.spill 0), none⟩, ⟨1, 5, 9, true, false, true, false, some (.spill 1), none⟩],
    2, [true, true], ⟨0, 1, 5, true, false, true, false, some (.spill 0), some 21⟩,
    ⟨1, 5, 9, true, false, true, false, some (.spill 1), some 21⟩, by decide +kernel, by decide +kernel, rfl, rfl, rfl, ?_⟩
  exact ⟨by decide, by decide⟩

end WinArmVm
