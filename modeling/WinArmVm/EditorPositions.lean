import Mathlib.Data.List.Nodup
import Mathlib.Tactic.Linarith

namespace WinArmVm.WinShell

open Nat List

def nl : UInt8 := 10

def advance (p : Nat × Nat) (c : UInt8) : Nat × Nat := if c = nl then (p.1 + 1, 0) else (p.1, p.2 + 1)

def lineColLoop (offset : Nat) : List UInt8 → Nat → Nat × Nat → Nat × Nat
  | [], _, p => p
  | c :: rest, i, p => if i < offset then lineColLoop offset rest (i + 1) (advance p c) else p

def editorLineColOf (text : List UInt8) (offset : Nat) : Nat × Nat := lineColLoop offset text 1 (0, 0)

def offsetLoop (target : Nat × Nat) : List UInt8 → Nat → Nat × Nat → Option Nat
  | [], _, _ => none
  | c :: rest, i, p =>
    if p.1 = target.1 ∧ p.2 = target.2 then some i
    else if c = nl ∧ p.1 = target.1 then some i
    else offsetLoop target rest (i + 1) (advance p c)

def editorOffsetOfLine (text : List UInt8) (line col : Nat) : Nat :=
  (offsetLoop (line, col) text 1 (0, 0)).getD (text.length + 1)

/-- A kept position, clamped on the way out; 1 where none is kept. -/
def clamped (text : List UInt8) (kept : Option Int) : Nat := (min (max (kept.getD 1) 1) (text.length + 1)).toNat

def editorSelection (text : List UInt8) (anchor caret : Option Int) : Nat × Nat :=
  let a := clamped text anchor
  let c := clamped text caret
  (min a c, max a c - min a c)

structure Rect where
  x : Int
  y : Int
  w : Int
  h : Int
deriving DecidableEq, Repr

section Rects

variable (ox oy charW lineH : Int)

def cells (line col n : Nat) : Rect := ⟨ox + col * charW, oy + line * lineH, n * charW, lineH⟩

/-- The turns left, the text left and where it starts, and where the open rectangle began. -/
def rectsLoop (lo : Nat) : Nat → List UInt8 → Nat → Nat × Nat → Option (Nat × Nat) → List Rect
  | 0, _, _, p, start => start.toList.map fun s => cells ox oy charW lineH s.1 s.2 (p.2 - s.2)
  | n + 1, text, i, p, start =>
    let start := if lo ≤ i ∧ start = none then some p else start
    if text.head? = some nl then
      start.toList.map (fun s => cells ox oy charW lineH s.1 s.2 (p.2 - s.2 + 1)) ++
        rectsLoop lo n text.tail (i + 1) (p.1 + 1, 0) none
    else rectsLoop lo n text.tail (i + 1) (p.1, p.2 + 1) start

def editorSelectionRects (text : List UInt8) (anchor caret : Option Int) : List Rect :=
  let sel := editorSelection text anchor caret
  if sel.2 = 0 then [] else rectsLoop ox oy charW lineH sel.1 (sel.1 + sel.2 - 1) text 1 (0, 0) none

def Rect.covers (r : Rect) (cell : Nat × Nat) : Bool :=
  r.x ≤ ox + cell.2 * charW && ox + cell.2 * charW + charW ≤ r.x + r.w &&
    (r.y ≤ oy + cell.1 * lineH && oy + cell.1 * lineH + lineH ≤ r.y + r.h)

end Rects

theorem foldl_after : ∀ (cs : List UInt8) (p : Nat × Nat),
    p.1 < (cs.foldl advance p).1 ∨ p.1 = (cs.foldl advance p).1 ∧ p.2 ≤ (cs.foldl advance p).2 := by
  intro cs
  induction cs with
  | nil => exact fun p => .inr ⟨rfl, le_refl _⟩
  | cons c rest ih =>
    intro p
    have h := ih (advance p c)
    rw [foldl_cons]
    unfold advance at h ⊢
    split at h
    next hc =>
      rw [if_pos hc]
      omega
    next hc =>
      rw [if_neg hc]
      omega

theorem lineColLoop_eq (offset : Nat) : ∀ (text : List UInt8) (i : Nat) (p : Nat × Nat),
    lineColLoop offset text i p = (text.take (offset - i)).foldl advance p := by
  intro text
  induction text with
  | nil => exact fun i p => by simp [lineColLoop]
  | cons c rest ih =>
    intro i p
    unfold lineColLoop
    split
    next hi =>
      have hk : offset - i = (offset - (i + 1)) + 1 := by omega
      rw [ih, hk, take_succ_cons, foldl_cons]
    next hi =>
      have hk : offset - i = 0 := by omega
      rw [hk, take_zero, foldl_nil]

theorem offsetLoop_take : ∀ (text : List UInt8) (k i : Nat) (p : Nat × Nat), k ≤ text.length →
    (offsetLoop ((text.take k).foldl advance p) text i p).getD (i + text.length) = i + k := by
  intro text
  induction text with
  | nil =>
    intro k i p hk
    cases le_zero.mp hk
    rfl
  | cons c rest ih =>
    intro k i p hk
    cases k with
    | zero => simp [offsetLoop]
    | succ k =>
      rw [take_succ_cons, foldl_cons]
      have hafter := foldl_after (rest.take k) (advance p c)
      have hnext := ih k (i + 1) (advance p c) (le_of_succ_le_succ hk)
      unfold offsetLoop
      have hne : ¬ (p.1 = ((rest.take k).foldl advance (advance p c)).1 ∧
          p.2 = ((rest.take k).foldl advance (advance p c)).2) ∧
          ¬ (c = nl ∧ p.1 = ((rest.take k).foldl advance (advance p c)).1) := by
        generalize (rest.take k).foldl advance (advance p c) = t at hafter
        unfold advance at hafter
        split at hafter
        next hc =>
          omega
        next hc =>
          exact ⟨by omega, fun h => hc h.1⟩
      rw [if_neg hne.1, if_neg hne.2, length_cons]
      have hlen : i + (rest.length + 1) = i + 1 + rest.length := by omega
      rw [hlen, hnext]
      omega

theorem editorOffset_lineCol {text : List UInt8} {o : Nat} (hlow : 1 ≤ o) (hhigh : o ≤ text.length + 1) :
    editorOffsetOfLine text (editorLineColOf text o).1 (editorLineColOf text o).2 = o := by
  have h := offsetLoop_take text (o - 1) 1 (0, 0) (by omega)
  unfold editorOffsetOfLine editorLineColOf
  rw [lineColLoop_eq, add_comm text.length 1]
  exact h.trans (by omega)

/-- The cell asked for, the end of its line when that is shorter, or the end of a text without that line. -/
structure Found (text : List UInt8) (p target : Nat × Nat) (k : Nat) : Prop where
  inside : k ≤ text.length
  cell : (text.take k).foldl advance p = target ∨
    ((text.take k).foldl advance p).1 = target.1 ∧ ((text.take k).foldl advance p).2 < target.2 ∧
      (text[k]? = none ∨ text[k]? = some nl) ∨
    k = text.length ∧ ((text.take k).foldl advance p).1 < target.1

theorem offsetLoop_found (target : Nat × Nat) : ∀ (text : List UInt8) (i : Nat) (p : Nat × Nat),
    p.1 < target.1 ∨ p.1 = target.1 ∧ p.2 ≤ target.2 →
    ∃ k, (offsetLoop target text i p).getD (i + text.length) = i + k ∧ Found text p target k := by
  intro text
  induction text with
  | nil =>
    intro i p hp
    refine ⟨0, rfl, le_refl _, ?_⟩
    rcases hp with hlt | ⟨hl, hle⟩
    · exact .inr (.inr ⟨rfl, hlt⟩)
    · rcases eq_or_lt_of_le hle with hc | hlt
      · exact .inl (Prod.ext hl hc)
      · exact .inr (.inl ⟨hl, hlt, .inl rfl⟩)
  | cons c rest ih =>
    intro i p hp
    unfold offsetLoop
    split
    next hhere => exact ⟨0, rfl, zero_le _, .inl (Prod.ext hhere.1 hhere.2)⟩
    next hhere =>
      split
      next hend =>
        refine ⟨0, rfl, zero_le _, .inr (.inl ⟨hend.2, ?_, .inr (congrArg some hend.1)⟩)⟩
        show p.2 < target.2
        omega
      next hend =>
        have hnext : (advance p c).1 < target.1 ∨ (advance p c).1 = target.1 ∧ (advance p c).2 ≤ target.2 := by
          unfold advance
          split
          next hc =>
            have hne : p.1 ≠ target.1 := fun h => hend ⟨hc, h⟩
            omega
          next =>
            omega
        obtain ⟨k, hk, hin, hcell⟩ := ih (i + 1) (advance p c) hnext
        refine ⟨k + 1, ?_, succ_le_succ hin, ?_⟩
        · have hlen : i + (c :: rest).length = i + 1 + rest.length := by
            rw [length_cons]
            omega
          rw [hlen, hk]
          omega
        · rw [take_succ_cons, foldl_cons, length_cons, getElem?_cons_succ, succ_inj]
          exact hcell

def span (r : Nat × Nat × Nat) : List (Nat × Nat) := (List.range' r.2.1 r.2.2).map (Prod.mk r.1)

def opened (start : Option (Nat × Nat)) (p : Nat × Nat) : List (Nat × Nat) :=
  start.toList.flatMap fun s => span (s.1, s.2, p.2 - s.2)

theorem span_succ {s p : Nat × Nat} (hl : s.1 = p.1) (hc : s.2 ≤ p.2) :
    span (s.1, s.2, p.2 - s.2 + 1) = span (s.1, s.2, p.2 - s.2) ++ [p] := by
  have hend : s.2 + 1 * (p.2 - s.2) = p.2 := by omega
  unfold span
  rw [range'_concat, map_append, hend, hl]
  rfl

theorem rectsLoop_spans (ox oy charW lineH : Int) (lo : Nat) : ∀ (n : Nat) (text : List UInt8) (i : Nat)
    (p : Nat × Nat) (start : Option (Nat × Nat)), n ≤ text.length →
    (∀ s, start = some s → s.1 = p.1 ∧ s.2 ≤ p.2 ∧ lo ≤ i) →
    ∃ runs : List (Nat × Nat × Nat), rectsLoop ox oy charW lineH lo n text i p start =
        runs.map (fun r => cells ox oy charW lineH r.1 r.2.1 r.2.2) ∧
      runs.flatMap span = opened start p ++
        ((List.range' i n).filter (lo ≤ ·)).map fun o => (text.take (o - i)).foldl advance p := by
  intro n
  induction n with
  | zero =>
    intro text i p start _ _
    refine ⟨start.toList.map fun s => (s.1, s.2, p.2 - s.2), ?_, ?_⟩
    · cases start <;> rfl
    · rw [flatMap_map]
      exact (append_nil _).symm
  | succ n ih =>
    intro text i p start hn hstart
    cases text with
    | nil => cases hn
    | cons c rest =>
      -- the rectangle that is open at this character
      obtain ⟨start', hdef⟩ : ∃ s, s = if lo ≤ i ∧ start = none then some p else start := ⟨_, rfl⟩
      have hopen : opened start' p = opened start p := by
        rw [hdef]
        split
        next h =>
          rw [h.2]
          simp [opened, span]
        next => rfl
      have hinv : ∀ s, start' = some s → s.1 = p.1 ∧ s.2 ≤ p.2 ∧ lo ≤ i := by
        intro s hs
        rw [hdef] at hs
        split at hs
        next h =>
          cases hs
          exact ⟨rfl, Nat.le_refl _, h.1⟩
        next => exact hstart s hs
      have hcells : (start'.toList.flatMap fun s => span (s.1, s.2, p.2 - s.2 + 1)) =
          opened start p ++ if lo ≤ i then [p] else [] := by
        rw [← hopen]
        cases hs : start' with
        | none =>
          have hlo : ¬ lo ≤ i := by
            intro hle
            rw [hs] at hdef
            split at hdef
            next => cases hdef
            next h => exact h ⟨hle, hdef.symm⟩
          rw [if_neg hlo]
          rfl
        | some s =>
          obtain ⟨hl, hc, hle⟩ := hinv s hs
          rw [if_pos hle]
          simpa [opened] using span_succ hl hc
      have hrest : ((List.range' i (n + 1)).filter (lo ≤ ·)).map (fun o => ((c :: rest).take (o - i)).foldl advance p) =
          (if lo ≤ i then [p] else []) ++
            ((List.range' (i + 1) n).filter (lo ≤ ·)).map fun o => (rest.take (o - (i + 1))).foldl advance (advance p c) := by
        have hlater : ((List.range' (i + 1) n).filter (lo ≤ ·)).map (fun o => ((c :: rest).take (o - i)).foldl advance p) =
            ((List.range' (i + 1) n).filter (lo ≤ ·)).map fun o => (rest.take (o - (i + 1))).foldl advance (advance p c) := by
          apply map_congr_left
          intro o ho
          have hle := (mem_range'_1.mp (mem_filter.mp ho).1).1
          have hk : o - i = (o - (i + 1)) + 1 := by omega
          rw [hk, take_succ_cons, foldl_cons]
        rw [range'_succ, filter_cons]
        split
        next h =>
          rw [map_cons, hlater, if_pos (of_decide_eq_true h), Nat.sub_self]
          rfl
        next h =>
          rw [hlater, if_neg (fun hle => h (decide_eq_true hle))]
          rfl
      have hturn : rectsLoop ox oy charW lineH lo (n + 1) (c :: rest) i p start =
          if c = nl then start'.toList.map (fun s => cells ox oy charW lineH s.1 s.2 (p.2 - s.2 + 1)) ++
            rectsLoop ox oy charW lineH lo n rest (i + 1) (p.1 + 1, 0) none
          else rectsLoop ox oy charW lineH lo n rest (i + 1) (p.1, p.2 + 1) start' := by
        rw [rectsLoop, ← hdef]
        simp
      rw [hturn, hrest, ← append_assoc, ← hcells]
      unfold advance
      split
      next =>
        obtain ⟨runs, hr, hs⟩ := ih rest (i + 1) (p.1 + 1, 0) none (Nat.le_of_succ_le_succ hn) (fun _ h => nomatch h)
        refine ⟨start'.toList.map (fun s => (s.1, s.2, p.2 - s.2 + 1)) ++ runs, ?_, ?_⟩
        · rw [hr, map_append, map_map]
          rfl
        · rw [flatMap_append, hs, flatMap_map]
          rfl
      next =>
        obtain ⟨runs, hr, hs⟩ := ih rest (i + 1) (p.1, p.2 + 1) start' (Nat.le_of_succ_le_succ hn) (by
          intro s hs
          obtain ⟨hl, hc, hle⟩ := hinv s hs
          exact ⟨hl, Nat.le_succ_of_le hc, Nat.le_succ_of_le hle⟩)
        refine ⟨runs, hr, hs.trans (congrArg (· ++ _) ?_)⟩
        cases hst : start' with
        | none => rfl
        | some s =>
          have hlen : p.2 + 1 - s.2 = p.2 - s.2 + 1 := Nat.succ_sub (hinv s hst).2.1
          simp [opened, hlen]

variable {ox oy charW lineH : Int}

theorem covers_cells (hw : 0 < charW) (hh : 0 < lineH) (l c n : Nat) (cell : Nat × Nat) :
    (cells ox oy charW lineH l c n).covers ox oy charW lineH cell = decide (cell ∈ span (l, c, n)) := by
  have hcol (a b : Nat) : ox + a * charW ≤ ox + b * charW ↔ a ≤ b := by
    rw [add_le_add_iff_left, mul_le_mul_iff_left₀ hw, cast_le]
  have hline (a b : Nat) : oy + a * lineH ≤ oy + b * lineH ↔ a ≤ b := by
    rw [add_le_add_iff_left, mul_le_mul_iff_left₀ hh, cast_le]
  have hright := hcol (cell.2 + 1) (c + n)
  have hbelow := hline (cell.1 + 1) (l + 1)
  push_cast [add_mul, one_mul] at hright hbelow
  have hmem : cell ∈ span (l, c, n) ↔ l = cell.1 ∧ c ≤ cell.2 ∧ cell.2 < c + n := by
    simp only [span, mem_map, mem_range'_1]
    constructor
    · rintro ⟨x, hx, rfl⟩
      exact ⟨rfl, hx⟩
    · rintro ⟨rfl, hx⟩
      exact ⟨cell.2, hx, rfl⟩
  rw [Bool.eq_iff_iff, decide_eq_true_iff, hmem]
  unfold Rect.covers cells
  simp only [Bool.and_eq_true, decide_eq_true_eq, hcol, hline]
  omega

theorem covers_count (hw : 0 < charW) (hh : 0 < lineH) (cell : Nat × Nat) :
    ∀ runs : List (Nat × Nat × Nat), (runs.map fun r => cells ox oy charW lineH r.1 r.2.1 r.2.2).countP
      (·.covers ox oy charW lineH cell) = (runs.flatMap span).count cell := by
  intro runs
  induction runs with
  | nil => rfl
  | cons r rest ih =>
    have hnodup : (span r).Nodup := List.Nodup.map (fun _ _ h => congrArg Prod.snd h) nodup_range'
    rw [map_cons, countP_cons, flatMap_cons, count_append, ih, covers_cells hw hh, hnodup.count, add_comm]
    simp only [decide_eq_true_eq]

/-- Positions and cells go back and forth, positions without a cell fall where their line or the text ends,
and a cell is highlighted once where its character is selected and not at all elsewhere. -/
theorem editor_positions (text : List UInt8) : (∀ o, 1 ≤ o → o ≤ text.length + 1 →
      editorOffsetOfLine text (editorLineColOf text o).1 (editorLineColOf text o).2 = o) ∧
    (∀ line col, let o := editorOffsetOfLine text line col
      (1 ≤ o ∧ o ≤ text.length + 1) ∧ (editorLineColOf text o = (line, col) ∨
        (editorLineColOf text o).1 = line ∧ (editorLineColOf text o).2 < col ∧
          (o = text.length + 1 ∨ text[o - 1]? = some nl) ∨
        o = text.length + 1 ∧ (editorLineColOf text o).1 < line)) ∧
    ∀ (anchor caret : Option Int) (ox oy charW lineH : Int), 0 < charW → 0 < lineH → ∀ cell,
      let sel := editorSelection text anchor caret
      (editorSelectionRects ox oy charW lineH text anchor caret).countP (·.covers ox oy charW lineH cell) =
        if cell ∈ (List.range' sel.1 sel.2).map (editorLineColOf text) then 1 else 0 := by
  refine ⟨fun o hlow hhigh => editorOffset_lineCol hlow hhigh, ?_, ?_⟩
  · intro line col
    obtain ⟨k, hk, hin, hcell⟩ := offsetLoop_found (line, col) text 1 (0, 0) (by omega)
    have ho : editorOffsetOfLine text line col = k + 1 := by
      unfold editorOffsetOfLine
      rw [add_comm text.length 1, hk, add_comm]
    have hpos : editorLineColOf text (k + 1) = (text.take k).foldl advance (0, 0) := lineColLoop_eq (k + 1) text 1 (0, 0)
    rw [ho]
    dsimp only
    rw [hpos]
    refine ⟨by omega, ?_⟩
    rcases hcell with hat | ⟨hl, hc, hend⟩ | ⟨hk, hl⟩
    · exact .inl hat
    · refine .inr (.inl ⟨hl, hc, ?_⟩)
      rcases hend with hend | hend
      · exact .inl (by have := getElem?_eq_none_iff.mp hend; omega)
      · exact .inr hend
    · exact .inr (.inr ⟨by omega, hl⟩)
  · intro anchor caret ox oy charW lineH hw hh cell sel
    have hsel : 1 ≤ sel.1 ∧ sel.1 + sel.2 ≤ text.length + 1 := by
      simp only [sel, editorSelection, clamped]
      omega
    have hnodup : ((List.range' sel.1 sel.2).map (editorLineColOf text)).Nodup := by
      refine List.Nodup.map_on (fun a ha b hb he => ?_) nodup_range'
      have ha := mem_range'_1.mp ha
      have hb := mem_range'_1.mp hb
      have hback : ∀ o, 1 ≤ o → o ≤ text.length + 1 → _ := fun o hlow hhigh => editorOffset_lineCol hlow hhigh
      rw [← hback a (by omega) (by omega), he, hback b (by omega) (by omega)]
    rw [← hnodup.count]
    have hrects : editorSelectionRects ox oy charW lineH text anchor caret = if sel.2 = 0 then []
      else rectsLoop ox oy charW lineH sel.1 (sel.1 + sel.2 - 1) text 1 (0, 0) none := rfl
    rw [hrects]
    split
    next hz =>
      rw [hz]
      rfl
    next =>
      obtain ⟨runs, hr, hs⟩ := rectsLoop_spans ox oy charW lineH sel.1 (sel.1 + sel.2 - 1) text 1 (0, 0) none
        (by omega) (fun _ h => nomatch h)
      have hrange : (List.range' 1 (sel.1 + sel.2 - 1)).filter (sel.1 ≤ ·) = List.range' sel.1 sel.2 := by
        have hbefore : List.range' 1 (sel.1 + sel.2 - 1) = List.range' 1 (sel.1 - 1) ++ List.range' sel.1 sel.2 := by
          have hjoin : List.range' 1 (sel.1 - 1) ++ List.range' (1 + (sel.1 - 1)) sel.2 =
            List.range' 1 (sel.1 - 1 + sel.2) := range'_append_1
          have hstart : 1 + (sel.1 - 1) = sel.1 := by omega
          have hlen : sel.1 - 1 + sel.2 = sel.1 + sel.2 - 1 := by omega
          rw [hstart, hlen] at hjoin
          exact hjoin.symm
        rw [hbefore, filter_append, filter_eq_nil_iff.mpr, filter_eq_self.mpr, nil_append]
        · exact fun o ho => decide_eq_true (mem_range'_1.mp ho).1
        · intro o ho hle
          have hlt := (mem_range'_1.mp ho).2
          have hle := of_decide_eq_true hle
          omega
      rw [hr, covers_count hw hh, hs, hrange]
      refine congrArg (List.count cell) (map_congr_left fun o _ => ?_)
      exact (lineColLoop_eq o text 1 (0, 0)).symm

end WinArmVm.WinShell
