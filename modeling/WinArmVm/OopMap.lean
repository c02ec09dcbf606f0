import Mathlib.Algebra.Group.Nat.Defs
import WinArmVm.LinearScan
import Mathlib.Data.List.Dedup
import Mathlib.Data.List.Induction

namespace WinArmVm

open List

structure OopMap where
  bits : List (BitVec 64)
deriving DecidableEq, Repr

namespace OopMap

def empty : OopMap := ⟨[]⟩

def set (m : OopMap) (slot : UInt16) : OopMap :=
  let word := slot.toNat / 64
  let bits := if m.bits.length ≤ word then m.bits ++ List.replicate (word + 1 - m.bits.length) 0 else m.bits
  ⟨bits.modify word (· ||| (1 : BitVec 64) <<< (slot.toNat % 64))⟩

def isOop (m : OopMap) (slot : UInt16) : Bool :=
  match m.bits[slot.toNat / 64]? with
  | some w => (w >>> (slot.toNat % 64)) &&& 1 != 0
  | none => false

/-- Sets the slot of an interval that holds an oop and spans the position strictly, or is said to be live just there. The
slots of `skipVregs` are never written. -/
def mark (position : Nat) (exactHere skipVregs : List Nat) (map : OopMap) (iv : LiveInterval) : OopMap :=
  if !iv.isOop || skipVregs.contains iv.vreg then map
  else
    match iv.assignment with
    | some (.spill slot) =>
      if (iv.start < position && iv.end_ > position) || exactHere.contains iv.vreg then map.set slot else map
    | _ => map

def buildForPosition (intervals : List LiveInterval) (position : Nat) (extraOopLive : List (Nat × Nat)) (skipVregs : List Nat) :
    OopMap :=
  let exactHere := (extraOopLive.filter fun e => e.2 == position).map Prod.fst
  intervals.foldl (mark position exactHere skipVregs) empty

def intern (oopmaps : List OopMap) (map : OopMap) : UInt16 × List OopMap :=
  match oopmaps.findIdx? (· == map) with
  | some idx => (UInt16.ofNat idx, oopmaps)
  | none => (UInt16.ofNat oopmaps.length, oopmaps ++ [map])

end OopMap

structure PcDesc where
  pcOff : UInt32
  bci : Nat
  oopmap : UInt16
deriving DecidableEq, Repr

structure BlockPc where
  pcOff : UInt32
  bci : Nat

structure SafepointPc where
  pcOff : UInt32
  bci : Nat
  position : Nat

structure NmethodMaps where
  base : Nat
  pcdescs : List PcDesc
  oopmaps : List OopMap

namespace NmethodMaps

open OopMap

def recordSafepoints (mapOf : SafepointPc → OopMap) (safepoints : List SafepointPc) : List PcDesc × List OopMap :=
  safepoints.foldl (fun acc sp =>
    let r := intern acc.2 (mapOf sp)
    (acc.1 ++ [⟨sp.pcOff, sp.bci, r.1⟩], r.2)) ([], [OopMap.empty])

def publish (base : Nat) (mapOf : SafepointPc → OopMap) (blocks : List BlockPc) (safepoints : List SafepointPc) : NmethodMaps :=
  let r := recordSafepoints mapOf safepoints
  { base := base
    pcdescs := (blocks.map (fun b => (⟨b.pcOff, b.bci, 0⟩ : PcDesc)) ++ r.1).insertionSort fun a b => a.pcOff ≤ b.pcOff
    oopmaps := r.2 }

def maxByKey {α : Type} (key : α → Bool) (xs : List α) : Option α := xs.foldl (fun best x =>
    match best with
    | none => some x
    | some b => if key b && !key x then some b else some x) none

/-- None is a panic. -/
def oopmapAt (nm : NmethodMaps) (retPc : Nat) : Option OopMap := do
  let off := UInt32.ofNat (retPc - nm.base)
  let d ← maxByKey (fun d => d.oopmap != 0) (nm.pcdescs.filter fun d => d.pcOff == off)
  nm.oopmaps[d.oopmap.toNat]?

end NmethodMaps

namespace OopMap

variable {m : OopMap} {slot slot' : UInt16}

def bit (bits : List (BitVec 64)) (i : Nat) : Bool := (bits.getD (i / 64) 0).getLsbD (i % 64)

theorem isOop_eq : m.isOop slot = bit m.bits slot.toNat := by
  unfold isOop bit
  rw [getD_eq_getElem?_getD]
  cases m.bits[slot.toNat / 64]? with
  | none => simp
  | some w =>
    have hone : ∀ x : BitVec 64, (x &&& 1 != 0) = x.getLsbD 0 := by
      intro x
      rw [Bool.eq_iff_iff, bne_iff_ne, ne_eq, BitVec.toNat_eq]
      simp only [BitVec.getLsbD, BitVec.toNat_and, Nat.testBit_zero]
      change ¬ x.toNat &&& 1 = 0 ↔ _
      rw [Nat.and_one_is_mod]
      simp only [decide_eq_true_eq]
      omega
    simp only [Option.getD_some, hone, BitVec.getLsbD_ushiftRight, Nat.add_zero]

theorem bit_resize (bits : List (BitVec 64)) (n i : Nat) : bit (bits ++ List.replicate n 0) i = bit bits i := by
  unfold bit
  rw [getD_eq_getElem?_getD, getD_eq_getElem?_getD, getElem?_append]
  split
  next => rfl
  next hlen =>
    rw [getElem?_eq_none (Nat.le_of_not_lt hlen), getElem?_replicate]
    split
    next => rfl
    next => rfl

theorem bit_modify {bits : List (BitVec 64)} {s : Nat} (hlen : s / 64 < bits.length) (i : Nat) :
    bit (bits.modify (s / 64) (· ||| (1 : BitVec 64) <<< (s % 64))) i = (decide (i = s) || bit bits i) := by
  unfold bit
  rw [getD_eq_getElem?_getD, getD_eq_getElem?_getD, getElem?_modify]
  by_cases hword : s / 64 = i / 64
  · simp only [if_pos hword]
    rw [← hword, getElem?_eq_getElem hlen]
    have hsi : i = s ↔ i % 64 = s % 64 := by omega
    have hmod : i % 64 < 64 := Nat.mod_lt _ (by decide)
    simp only [Option.map_eq_map, Option.map_some, Option.getD_some, BitVec.getLsbD_or, BitVec.getLsbD_shiftLeft, hmod, decide_true, Bool.true_and]
    have hone : ∀ k, (1 : BitVec 64).getLsbD k = decide (k = 0) := by
      intro k
      change (1#64).getLsbD k = _
      rw [BitVec.getLsbD_one]
      simp
    rw [hone, Bool.or_comm]
    congr 1
    rw [Bool.eq_iff_iff]
    simp only [Bool.and_eq_true, Bool.not_eq_true', decide_eq_false_iff_not, decide_eq_true_eq]
    omega
  · simp only [if_neg hword]
    have hne : i ≠ s := fun h => hword (by rw [h])
    simp [hne]

theorem isOop_set : (m.set slot).isOop slot' = (slot' == slot || m.isOop slot') := by
  have hdec : decide (slot'.toNat = slot.toNat) = (slot' == slot) := by
    rw [Bool.eq_iff_iff, decide_eq_true_iff, beq_iff_eq]
    exact UInt16.toNat_inj
  rw [isOop_eq, isOop_eq]
  unfold set
  dsimp only
  split
  next hlen =>
    rw [bit_modify (by simp only [length_append, length_replicate]; omega), bit_resize, hdec]
  next hlen => rw [bit_modify (Nat.lt_of_not_le hlen), hdec]

theorem isOop_empty : empty.isOop slot = false := rfl

section Build

variable {position : Nat} {extraOopLive : List (Nat × Nat)} {skipVregs : List Nat}

structure Marks (position : Nat) (extraOopLive : List (Nat × Nat)) (skipVregs : List Nat) (slot : UInt16) (iv : LiveInterval) :
    Prop where
  isOop : iv.isOop = true
  written : iv.vreg ∉ skipVregs
  spilled : iv.assignment = some (.spill slot)
  live : iv.start < position ∧ position < iv.end_ ∨ (iv.vreg, position) ∈ extraOopLive

theorem mem_exactHere {v : Nat} :
    ((extraOopLive.filter fun e => e.2 == position).map Prod.fst).contains v = true ↔ (v, position) ∈ extraOopLive := by
  rw [contains_iff_mem, mem_map]
  constructor
  · rintro ⟨⟨v', p⟩, he, rfl⟩
    obtain ⟨hmem, hp⟩ := mem_filter.mp he
    cases eq_of_beq hp
    exact hmem
  · intro h
    exact ⟨(v, position), mem_filter.mpr ⟨h, beq_self_eq_true position⟩, rfl⟩

theorem isOop_mark {iv : LiveInterval} :
    (mark position ((extraOopLive.filter fun e => e.2 == position).map Prod.fst) skipVregs m iv).isOop slot = true ↔
    Marks position extraOopLive skipVregs slot iv ∨ m.isOop slot = true := by
  have hlive : ((iv.start < position && iv.end_ > position) ||
      ((extraOopLive.filter fun e => e.2 == position).map Prod.fst).contains iv.vreg) = true ↔
      (iv.start < position ∧ position < iv.end_ ∨ (iv.vreg, position) ∈ extraOopLive) := by
    rw [Bool.or_eq_true, mem_exactHere, Bool.and_eq_true, decide_eq_true_iff, decide_eq_true_iff]
  have hnot : (¬ Marks position extraOopLive skipVregs slot iv) →
      (m.isOop slot = true ↔ Marks position extraOopLive skipVregs slot iv ∨ m.isOop slot = true) := by
    intro h
    exact ⟨.inr, fun hor => hor.resolve_left h⟩
  unfold mark
  split
  next hskip =>
    apply hnot
    intro h
    rw [Bool.or_eq_true, contains_iff_mem] at hskip
    obtain hskip | hskip := hskip
    · rw [h.isOop] at hskip
      cases hskip
    · exact h.written hskip
  next hskip =>
    rw [Bool.or_eq_true, contains_iff_mem, not_or, Bool.not_eq_true, Bool.not_eq_false'] at hskip
    split
    next found hfound =>
      split
      next hl =>
        rw [isOop_set, Bool.or_eq_true, beq_iff_eq]
        constructor
        · rintro (rfl | hm)
          · exact .inl ⟨hskip.1, hskip.2, hfound, hlive.mp hl⟩
          · exact .inr hm
        · rintro (h | hm)
          · have hslot := hfound.symm.trans h.spilled
            cases hslot
            exact .inl rfl
          · exact .inr hm
      next hl => exact hnot fun h => hl (hlive.mpr h.live)
    next hreg =>
      apply hnot
      intro h
      exact hreg slot h.spilled

theorem isOop_foldl (intervals : List LiveInterval) :
    (intervals.foldl (mark position ((extraOopLive.filter fun e => e.2 == position).map Prod.fst) skipVregs) m).isOop slot =
      true ↔ (∃ iv ∈ intervals, Marks position extraOopLive skipVregs slot iv) ∨ m.isOop slot = true := by
  induction intervals generalizing m with
  | nil => simp
  | cons iv intervals ih =>
    rw [foldl_cons, ih, isOop_mark, exists_mem_cons_iff, ← or_assoc]
    exact or_congr_left or_comm

theorem isOop_buildForPosition {intervals : List LiveInterval} :
    (buildForPosition intervals position extraOopLive skipVregs).isOop slot = true ↔
      ∃ iv ∈ intervals, Marks position extraOopLive skipVregs slot iv := by
  refine (isOop_foldl intervals).trans ?_
  rw [isOop_empty]
  simp

end Build

theorem intern_prefix (oopmaps : List OopMap) (map : OopMap) : oopmaps <+: (intern oopmaps map).2 := by
  unfold intern
  split
  next => exact prefix_refl _
  next => exact prefix_append _ _

variable {oopmaps : List OopMap}

theorem intern_get {map : OopMap} (hfits : (intern oopmaps map).2.length ≤ 2 ^ 16) :
    (intern oopmaps map).2[(intern oopmaps map).1.toNat]? = some map := by
  have hto : ∀ n, n < 2 ^ 16 → (UInt16.ofNat n).toNat = n := by
    intro n hn
    exact UInt16.toNat_ofNat_of_lt' hn
  unfold intern at *
  split at hfits
  next idx hidx =>
    obtain ⟨hlt, heq, -⟩ := findIdx?_eq_some_iff_getElem.mp hidx
    simp only at hfits ⊢
    rw [hto idx (by omega), getElem?_eq_getElem hlt, eq_of_beq heq]
  next hidx =>
    simp only [length_append, length_singleton] at hfits ⊢
    rw [hto _ (by omega), getElem?_concat_length]

theorem intern_nodup (map : OopMap) (h : oopmaps.Nodup) :
    (intern oopmaps map).2.Nodup ∧ ∀ m, m ∈ (intern oopmaps map).2 ↔ m ∈ oopmaps ∨ m = map := by
  unfold intern
  split
  next idx hidx =>
    obtain ⟨hlt, heq, -⟩ := findIdx?_eq_some_iff_getElem.mp hidx
    refine ⟨h, ?_⟩
    intro m
    constructor
    · exact .inl
    · rintro (hm | rfl)
      · exact hm
      · rw [← eq_of_beq heq]
        exact getElem_mem hlt
  next hidx =>
    have hnot : map ∉ oopmaps := by
      intro hmem
      have := findIdx?_eq_none_iff.mp hidx map hmem
      simp at this
    refine ⟨nodup_append.mpr ⟨h, nodup_singleton _, ?_⟩, ?_⟩
    · rintro a ha b hb rfl
      rw [mem_singleton] at hb
      rw [hb] at ha
      exact hnot ha
    · intro m
      rw [mem_append, mem_singleton]

end OopMap

namespace NmethodMaps

open OopMap

section Greatest

variable {α β : Type} {key : α → Bool}

theorem maxByKey_eq (xs : List α) : maxByKey key xs = (xs.filter key).getLast?.or xs.getLast? := by
  induction xs using List.reverseRecOn with
  | nil => rfl
  | append_singleton xs x ih =>
    unfold maxByKey at ih ⊢
    rw [foldl_concat, ih, filter_append, getLast?_concat]
    by_cases hx : key x = true
    · rw [filter_cons_of_pos hx, filter_nil, getLast?_concat, Option.some_or]
      cases (xs.filter key).getLast?.or xs.getLast? with
      | none => rfl
      | some b => simp [hx]
    · rw [filter_cons_of_neg hx, filter_nil, append_nil]
      rw [Bool.not_eq_true] at hx
      cases hlast : (xs.filter key).getLast? with
      | some b =>
        have hb : key b = true := (mem_filter.mp (mem_of_getLast? hlast)).2
        simp [hb, hx]
      | none =>
        rw [getLast?_eq_none_iff] at hlast
        cases hall : xs.getLast? with
        | none => rfl
        | some b =>
          have hb : key b = false := by
            rw [← Bool.not_eq_true]
            intro hb
            have hmem : b ∈ xs.filter key := mem_filter.mpr ⟨mem_of_getLast? hall, hb⟩
            rw [hlast] at hmem
            cases hmem
          simp [hb]

theorem maxByKey_map {f : α → β} {key' : β → Bool} {xs : List α} (h : ∀ x ∈ xs, key x = key' (f x)) :
    (maxByKey key xs).map f = maxByKey key' (xs.map f) := by
  have hfilter : (xs.map f).filter key' = (xs.filter key).map f := by
    rw [filter_map]
    congr 1
    apply filter_congr
    intro x hx
    exact (h x hx).symm
  rw [maxByKey_eq, maxByKey_eq, hfilter, getLast?_map, getLast?_map, Option.map_or]

end Greatest

theorem filter_insertionSort (descs : List PcDesc) (off : UInt32) :
    (descs.insertionSort fun a b => a.pcOff ≤ b.pcOff).filter (fun d => d.pcOff == off) =
      descs.filter fun d => d.pcOff == off := by
  have hsame : (descs.filter fun d => d.pcOff == off).Pairwise fun a b => a.pcOff ≤ b.pcOff := by
    apply pairwise_of_forall_mem_list
    intro a ha b hb
    have ha := eq_of_beq (mem_filter.mp ha).2
    have hb := eq_of_beq (mem_filter.mp hb).2
    rw [ha, hb]
    exact UInt32.le_refl off
  have hsub := (sublist_insertionSort hsame filter_sublist).filter fun d => d.pcOff == off
  rw [filter_filter] at hsub
  simp only [Bool.and_self] at hsub
  have hperm := (perm_insertionSort (fun a b : PcDesc => a.pcOff ≤ b.pcOff) descs).filter fun d => d.pcOff == off
  exact (hsub.eq_of_length hperm.length_eq.symm).symm

variable (mapOf : SafepointPc → OopMap) (safepoints : List SafepointPc)

theorem recordSafepoints_concat (sp : SafepointPc) : recordSafepoints mapOf (safepoints ++ [sp]) =
    ((recordSafepoints mapOf safepoints).1 ++
      [⟨sp.pcOff, sp.bci, (intern (recordSafepoints mapOf safepoints).2 (mapOf sp)).1⟩],
      (intern (recordSafepoints mapOf safepoints).2 (mapOf sp)).2) := by
  unfold recordSafepoints
  rw [foldl_concat]

theorem recordSafepoints_maps : (recordSafepoints mapOf safepoints).2.Nodup ∧
    (recordSafepoints mapOf safepoints).2[0]? = some OopMap.empty ∧
    ∀ m, m ∈ (recordSafepoints mapOf safepoints).2 ↔ m ∈ OopMap.empty :: safepoints.map mapOf := by
  induction safepoints using List.reverseRecOn with
  | nil => exact ⟨nodup_singleton _, rfl, fun m => Iff.rfl⟩
  | append_singleton safepoints sp ih =>
    obtain ⟨hnodup, hfirst, hmem⟩ := ih
    rw [recordSafepoints_concat]
    obtain ⟨hnodup', hmem'⟩ := intern_nodup (mapOf sp) hnodup
    refine ⟨hnodup', ?_, ?_⟩
    · obtain ⟨more, hmore⟩ := intern_prefix (recordSafepoints mapOf safepoints).2 (mapOf sp)
      rw [← hmore]
      exact List.getElem?_append_left (List.getElem?_eq_some_iff.mp hfirst).1 |>.trans hfirst
    · intro m
      rw [hmem', hmem]
      simp only [map_append, map_cons, map_nil, mem_cons, mem_append, not_mem_nil, or_false,
        or_assoc]

variable {mapOf safepoints}

theorem recordSafepoints_length :
    (recordSafepoints mapOf safepoints).2.length = (OopMap.empty :: safepoints.map mapOf).dedup.length := by
  obtain ⟨hnodup, -, hmem⟩ := recordSafepoints_maps mapOf safepoints
  apply List.Perm.length_eq
  apply (perm_ext_iff_of_nodup hnodup (nodup_dedup _)).mpr
  intro m
  rw [hmem, mem_dedup]

theorem recordSafepoints_descs (hfits : (recordSafepoints mapOf safepoints).2.length ≤ 2 ^ 16) :
    List.Forall₂ (fun d sp => d.pcOff = sp.pcOff ∧
      (recordSafepoints mapOf safepoints).2[d.oopmap.toNat]? = some (mapOf sp))
      (recordSafepoints mapOf safepoints).1 safepoints := by
  induction safepoints using List.reverseRecOn with
  | nil => exact List.Forall₂.nil
  | append_singleton safepoints sp ih =>
    rw [recordSafepoints_concat] at hfits ⊢
    obtain ⟨more, hmore⟩ := intern_prefix (recordSafepoints mapOf safepoints).2 (mapOf sp)
    have hbefore := ih (by rw [← hmore, length_append] at hfits; omega)
    apply rel_append
    · apply hbefore.imp
      rintro d sp' ⟨hoff, hmap⟩
      refine ⟨hoff, ?_⟩
      rw [← hmore]
      exact List.getElem?_append_left (List.getElem?_eq_some_iff.mp hmap).1 |>.trans hmap
    · exact List.Forall₂.cons ⟨rfl, intern_get hfits⟩ List.Forall₂.nil

theorem forall₂_filter_map {α β γ : Type} {R : α → β → Prop} {p : α → Bool} {q : β → Bool} {f : α → γ} {g : β → γ}
    {xs : List α} {ys : List β} (h : List.Forall₂ R xs ys) (hR : ∀ x y, R x y → p x = q y ∧ f x = g y) :
    (xs.filter p).map f = (ys.filter q).map g := by
  induction h with
  | nil => rfl
  | cons hxy _ ih =>
    obtain ⟨hpq, hfg⟩ := hR _ _ hxy
    rw [filter_cons, filter_cons, hpq]
    split
    next => rw [map_cons, map_cons, hfg, ih]
    next => exact ih

def mapsAt (mapOf : SafepointPc → OopMap) (safepoints : List SafepointPc) (off : UInt32) : List OopMap :=
  (safepoints.filter fun sp => sp.pcOff == off).map mapOf

def lastNonempty (maps : List OopMap) : OopMap := (maps.filter (· != OopMap.empty)).getLast?.getD OopMap.empty

theorem lastNonempty_of_all {maps : List OopMap} {m : OopMap} (hne : maps ≠ []) (h : ∀ m' ∈ maps, m' = m) :
    lastNonempty maps = m := by
  unfold lastNonempty
  by_cases hm : m = OopMap.empty
  · have hnone : maps.filter (· != OopMap.empty) = [] := by
      apply filter_eq_nil_iff.mpr
      intro m' hm'
      rw [h m' hm', hm]
      decide
    rw [hnone, hm]
    rfl
  · have hall : maps.filter (· != OopMap.empty) = maps := by
      apply filter_eq_self.mpr
      intro m' hm'
      rw [h m' hm']
      exact bne_iff_ne.mpr hm
    rw [hall]
    rw [getLast?_eq_some_getLast hne]
    exact h _ (getLast_mem hne)

theorem maxByKey_nonempty {reserved maps : List OopMap} (hreserved : ∀ m ∈ reserved, m = OopMap.empty) (hne : maps ≠ []) :
    maxByKey (· != OopMap.empty) (reserved ++ maps) = some (lastNonempty maps) := by
  have hnone : reserved.filter (· != OopMap.empty) = [] := by
    apply filter_eq_nil_iff.mpr
    intro m hm
    rw [hreserved m hm]
    decide
  rw [maxByKey_eq, filter_append, hnone, nil_append]
  unfold lastNonempty
  cases hlast : (maps.filter (· != OopMap.empty)).getLast? with
  | some m => rfl
  | none =>
    have hm := getLast?_eq_some_getLast hne
    rw [getLast?_eq_none_iff] at hlast
    have hempty := filter_eq_nil_iff.mp hlast _ (getLast_mem hne)
    rw [Bool.not_eq_true, bne_eq_false_iff_eq] at hempty
    rw [Option.none_or, getLast?_append, hm, hempty]
    rfl

theorem oopmapAt_publish (base : Nat) (blocks : List BlockPc) {off : UInt32}
    (hfits : (OopMap.empty :: safepoints.map mapOf).dedup.length ≤ 2 ^ 16) (hne : mapsAt mapOf safepoints off ≠ []) :
    (publish base mapOf blocks safepoints).oopmapAt (base + off.toNat) =
      some (lastNonempty (mapsAt mapOf safepoints off)) := by
  rw [← recordSafepoints_length] at hfits
  obtain ⟨hnodup, hfirst, -⟩ := recordSafepoints_maps mapOf safepoints
  have hdescs := recordSafepoints_descs hfits
  have hoff : UInt32.ofNat (base + off.toNat - base) = off := by
    rw [Nat.add_sub_cancel_left]
    exact UInt32.ofNat_toNat
  unfold oopmapAt publish
  simp only [hoff, filter_insertionSort, filter_append]
  generalize hr : recordSafepoints mapOf safepoints = r at *
  obtain ⟨descs, maps⟩ := r
  dsimp only at *
  let f : PcDesc → OopMap := fun d => (maps[d.oopmap.toNat]?).getD OopMap.empty
  have hblock : ∀ d ∈ (blocks.map fun b => (⟨b.pcOff, b.bci, 0⟩ : PcDesc)).filter (fun d => d.pcOff == off), d.oopmap = 0 := by
    intro d hd
    obtain ⟨b, -, rfl⟩ := mem_map.mp (mem_filter.mp hd).1
    rfl
  have hmaps : (descs.filter fun d => d.pcOff == off).map f = mapsAt mapOf safepoints off := by
    apply forall₂_filter_map hdescs
    rintro d sp ⟨hd, hm⟩
    refine ⟨by rw [hd], ?_⟩
    simp only [f, hm, Option.getD_some]
  generalize (blocks.map fun b => (⟨b.pcOff, b.bci, 0⟩ : PcDesc)).filter (fun d => d.pcOff == off) = front at hblock ⊢
  have hget : ∀ d ∈ front ++ descs.filter (fun d => d.pcOff == off),
      maps[d.oopmap.toNat]? = some (f d) ∧ (d.oopmap != 0) = (f d != OopMap.empty) := by
    intro d hd
    have hsome : ∃ m, maps[d.oopmap.toNat]? = some m := by
      obtain hd | hd := mem_append.mp hd
      · rw [hblock d hd]
        exact ⟨_, hfirst⟩
      · obtain ⟨i, hi, rfl⟩ := mem_iff_getElem.mp (mem_filter.mp hd).1
        have hlen := hdescs.length_eq
        exact ⟨_, (hdescs.get (by omega) (by omega)).2⟩
    obtain ⟨m, hm⟩ := hsome
    have hf : f d = m := by simp only [f, hm, Option.getD_some]
    refine ⟨by rw [hf]; exact hm, ?_⟩
    rw [hf, Bool.eq_iff_iff, bne_iff_ne, bne_iff_ne, not_iff_not]
    constructor
    · intro hzero
      rw [hzero] at hm
      exact Option.some.inj (hm.symm.trans hfirst)
    · rintro rfl
      have hlt := (List.getElem?_eq_some_iff.mp hm).1
      have hindex : d.oopmap.toNat = 0 := (List.getElem?_inj hlt hnodup).mp (hm.trans hfirst.symm)
      exact UInt16.toNat_inj.mp hindex
  have hmax : (maxByKey (fun d => d.oopmap != 0) (front ++ descs.filter fun d => d.pcOff == off)).map f =
      maxByKey (· != OopMap.empty) ((front ++ descs.filter fun d => d.pcOff == off).map f) :=
    maxByKey_map fun d hd => (hget d hd).2
  rw [map_append, hmaps, maxByKey_nonempty (by
    intro m hm
    obtain ⟨d, hd, rfl⟩ := mem_map.mp hm
    simp only [f, hblock d hd]
    exact congrArg (Option.getD · OopMap.empty) hfirst) hne] at hmax
  obtain ⟨d, hd, hfd⟩ := Option.map_eq_some_iff.mp hmax
  have hmem : d ∈ front ++ descs.filter (fun d => d.pcOff == off) := by
    rw [maxByKey_eq] at hd
    obtain hd | ⟨-, hd⟩ := Option.or_eq_some_iff.mp hd
    · exact (mem_filter.mp (mem_of_getLast? hd)).1
    · exact mem_of_getLast? hd
  rw [hd, ← hfd]
  exact (hget d hmem).1

def safepointMap (intervals : List LiveInterval) (extraOopLive : List (Nat × Nat)) (skipVregs : List Nat) (sp : SafepointPc) :
    OopMap :=
  buildForPosition intervals sp.position extraOopLive skipVregs

/-- The maps hold exactly the spilled oops live at each position, and every return address finds its own. -/
theorem oopmaps_exact (intervals : List LiveInterval) (extraOopLive : List (Nat × Nat)) (skipVregs : List Nat) (base : Nat)
    (blocks : List BlockPc) (safepoints : List SafepointPc)
    (hfits : (OopMap.empty :: safepoints.map (safepointMap intervals extraOopLive skipVregs)).dedup.length ≤ 2 ^ 16) :
    (∀ position slot, (buildForPosition intervals position extraOopLive skipVregs).isOop slot = true ↔
      ∃ iv ∈ intervals, Marks position extraOopLive skipVregs slot iv) ∧
    (∀ oopmaps map, oopmaps <+: (intern oopmaps map).2) ∧
    ∀ sp ∈ safepoints,
      (publish base (safepointMap intervals extraOopLive skipVregs) blocks safepoints).oopmapAt (base + sp.pcOff.toNat) =
        some (lastNonempty (mapsAt (safepointMap intervals extraOopLive skipVregs) safepoints sp.pcOff)) ∧
      ((∀ sp' ∈ safepoints, sp'.pcOff = sp.pcOff →
        safepointMap intervals extraOopLive skipVregs sp' = safepointMap intervals extraOopLive skipVregs sp) →
        (publish base (safepointMap intervals extraOopLive skipVregs) blocks safepoints).oopmapAt (base + sp.pcOff.toNat) =
          some (safepointMap intervals extraOopLive skipVregs sp)) := by
  refine ⟨fun _ _ => isOop_buildForPosition, intern_prefix, ?_⟩
  intro sp hsp
  have hmem : safepointMap intervals extraOopLive skipVregs sp ∈
      mapsAt (safepointMap intervals extraOopLive skipVregs) safepoints sp.pcOff :=
    mem_map_of_mem (mem_filter.mpr ⟨hsp, beq_self_eq_true sp.pcOff⟩)
  have hat := oopmapAt_publish base blocks hfits (ne_nil_of_mem hmem)
  refine ⟨hat, ?_⟩
  intro hsame
  rw [hat, lastNonempty_of_all (ne_nil_of_mem hmem)]
  intro m hm
  obtain ⟨sp', hsp', rfl⟩ := mem_map.mp hm
  obtain ⟨hsp', hoff⟩ := mem_filter.mp hsp'
  exact hsame sp' hsp' (eq_of_beq hoff)

def oopAcross : LiveInterval := ⟨0, 0, 20, true, false, true, false, some (.spill 1), none⟩

/-- A block begins where a call returns. -/
theorem oopmaps_exact_block :
    (publish 4096 (safepointMap [oopAcross] [] []) [⟨8, 3⟩] [⟨8, 0, 10⟩]).oopmapAt (4096 + (8 : UInt32).toNat) =
      some (OopMap.empty.set 1) :=
  ((oopmaps_exact [oopAcross] [] [] 4096 [⟨8, 3⟩] [⟨8, 0, 10⟩] (by decide)).2.2 ⟨8, 0, 10⟩ (mem_singleton.mpr rfl)).2
    (by
      intro sp' hsp' _
      rw [mem_singleton.mp hsp'])

/-- An oop in a slot that is never written is not marked though its interval spans the position; and of a call and a trap
right behind it, which share the offset, only the map of one is found. -/
theorem oopmaps_skip_and_share : (¬ ∀ intervals position extraOopLive skipVregs slot,
      (buildForPosition intervals position extraOopLive skipVregs).isOop slot = true ↔
        ∃ iv ∈ intervals, iv.isOop = true ∧ iv.assignment = some (.spill slot) ∧
          (iv.start < position ∧ position < iv.end_ ∨ (iv.vreg, position) ∈ extraOopLive)) ∧
    ¬ ∀ intervals extraOopLive skipVregs base blocks safepoints, ∀ sp ∈ safepoints,
      (publish base (safepointMap intervals extraOopLive skipVregs) blocks safepoints).oopmapAt (base + sp.pcOff.toNat) =
        some (safepointMap intervals extraOopLive skipVregs sp) := by
  constructor
  · intro h
    have hmark := (h [oopAcross] 10 [] [0] 1).mpr ⟨oopAcross, by decide, by decide⟩
    revert hmark
    decide
  · intro h
    have hcall := h [oopAcross, ⟨1, 12, 20, true, false, true, false, some (.spill 2), none⟩] [] [] 0 []
      [⟨8, 0, 10⟩, ⟨8, 0, 14⟩] ⟨8, 0, 10⟩ mem_cons_self
    revert hcall
    decide

end NmethodMaps

end WinArmVm
