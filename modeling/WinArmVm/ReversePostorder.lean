import WinArmVm.DepthFirst
import Mathlib.Data.List.Nodup
import Mathlib.Logic.Relation

namespace WinArmVm.BlockOrder

open List

/-- An instruction by the blocks it can go to; `other` goes to none. -/
inductive Ir
  | jump (target : Nat)
  | boolBr (ifTrue ifFalse notBool : Nat)
  | smiCmpBr (ifTrue ifFalse fail : Nat)
  | fCmpBr (ifTrue ifFalse : Nat)
  | refCmpBr (ifTrue ifFalse : Nat)
  | smiArith (fail : Nat)
  | smiCmpVal (fail : Nat)
  | arrayAt (fail : Nat)
  | arrayAtPut (fail : Nat)
  | byteAt (fail : Nat)
  | byteAtPut (fail : Nat)
  | smiShift (fail : Nat)
  | fUnbox (fail : Nat)
  | boolNot (fail : Nat)
  | vecArith (fail : Nat)
  | guardKlass (fail : Nat)
  | guardKlassIn (fail : Nat)
  | other
deriving DecidableEq

abbrev IrBlock := List Ir

def opSuccessors : Ir → List Nat
  | .jump target => [target]
  | .boolBr ifTrue ifFalse notBool => [ifTrue, ifFalse, notBool]
  | .smiCmpBr ifTrue ifFalse fail => [ifTrue, ifFalse, fail]
  | .fCmpBr ifTrue ifFalse | .refCmpBr ifTrue ifFalse => [ifTrue, ifFalse]
  | .smiArith fail | .smiCmpVal fail | .arrayAt fail | .arrayAtPut fail | .byteAt fail | .byteAtPut fail
  | .smiShift fail | .fUnbox fail | .boolNot fail | .vecArith fail => [fail]
  | .guardKlass fail | .guardKlassIn fail => [fail]
  | .other => []

def successors (block : IrBlock) : List Nat := block.flatMap opSuccessors

variable (blocks : List IrBlock)

def edges (b : Nat) : List Nat := (blocks[b]?.map successors).getD []

def visitRoot (s : List Nat × List Nat) (b : Nat) : Option (List Nat × List Nat) :=
  if b ∈ s.1 then some s
  else (DepthFirst.postorder (edges blocks) (blocks.length + 1) (s.1, []) b).map fun t => (t.1, s.2 ++ t.2.reverse)

def reversePostorder : Option (List Nat) := ((List.range blocks.length).foldlM (visitRoot blocks) ([], [])).map Prod.snd

def Reachable : Nat → Prop := Relation.ReflTransGen (fun p b => b ∈ edges blocks p) 0

variable {blocks} {s : List Nat × List Nat} {b : Nat}

def Bounded (blocks : List IrBlock) : Prop := ∀ block ∈ blocks, ∀ c ∈ successors block, c < blocks.length

theorem Bounded.edges (hw : Bounded blocks) (p : Nat) : ∀ c ∈ edges blocks p, c < blocks.length := by
  intro c hc
  unfold BlockOrder.edges at hc
  cases hp : blocks[p]? with
  | none =>
    rw [hp] at hc
    cases hc
  | some block =>
    rw [hp] at hc
    exact hw block (mem_of_getElem? hp) c hc

/-- Between two roots: the blocks put in order are those visited, once each, and they lead to one another only. -/
structure Placed (blocks : List IrBlock) (s : List Nat × List Nat) : Prop where
  nodup : s.2.Nodup
  visited : ∀ b, b ∈ s.1 ↔ b ∈ s.2
  inside : ∀ b ∈ s.2, b < blocks.length
  closed : ∀ b ∈ s.2, ∀ c ∈ edges blocks b, c ∈ s.2
  preceded : ∀ b ∈ s.2, Reachable blocks b → b ≠ 0 → ∃ l r, s.2 = l ++ b :: r ∧ ∃ p ∈ l, b ∈ edges blocks p

namespace Placed

theorem reached (h : Placed blocks s) (hhead : s.2.head? = some 0) (hb : Reachable blocks b) : b ∈ s.2 := by
  induction hb with
  | refl => exact mem_of_mem_head? hhead
  | tail _ hedge ih => exact h.closed _ ih _ hedge

theorem visitRoot (h : Placed blocks s) (hw : Bounded blocks) (hb : b < blocks.length)
    (hfirst : s.2.head? = some 0 ∨ s.2 = [] ∧ b = 0) : ∃ s', BlockOrder.visitRoot blocks s b = some s' ∧
      Placed blocks s' ∧ s'.2.head? = some 0 ∧ b ∈ s'.2 ∧ ∀ c ∈ s.2, c ∈ s'.2 := by
  unfold BlockOrder.visitRoot
  split
  next hv =>
    have hin := (h.visited b).mp hv
    refine ⟨s, rfl, h, ?_, hin, fun c hc => hc⟩
    rcases hfirst with hhead | ⟨hnil, -⟩
    · exact hhead
    · rw [hnil] at hin
      cases hin
  next hv =>
    have hnot : b ∉ s.2 := fun hin => hv ((h.visited b).mpr hin)
    have hroom : DepthFirst.unvisited (List.range blocks.length) s.1 < blocks.length + 1 := by
      have hle := length_filter_le (fun a => decide (a ∉ s.1)) (List.range blocks.length)
      rw [length_range] at hle
      exact Nat.lt_succ_of_le hle
    obtain ⟨t, ht⟩ : ∃ t, DepthFirst.postorder (edges blocks) (blocks.length + 1) (s.1, []) b = some t :=
      DepthFirst.postorder_total (fun p c hc => mem_range.mpr (hw.edges p c hc)) _ _ b (mem_range.mpr hb) hroom
    obtain ⟨new, hnew, hwalk, hlast⟩ := DepthFirst.postorder_spec _ _ _ _ ht
    obtain ⟨l, hl⟩ := hlast hv
    have hseg : t.2 = new := hnew
    have hmem (c : Nat) : c ∈ s.2 ++ new.reverse ↔ c ∈ s.2 ∨ c ∈ new := by
      rw [mem_append, mem_reverse]
    have hvisited (c : Nat) : c ∈ t.1 ↔ c ∈ s.2 ++ new.reverse := by
      rw [hwalk.visited, hmem, h.visited]
    refine ⟨(t.1, s.2 ++ new.reverse), by rw [ht, ← hseg]; rfl, ⟨?_, hvisited, ?_, ?_, ?_⟩, ?_, ?_, ?_⟩
    · refine nodup_append.mpr ⟨h.nodup, nodup_reverse.mpr hwalk.nodup, ?_⟩
      intro c hc d hd he
      subst he
      exact hwalk.fresh c (mem_reverse.mp hd) ((h.visited c).mpr hc)
    · intro c hc
      rcases (hmem c).mp hc with hc | hc
      · exact h.inside c hc
      · obtain ⟨l, r, hsplit⟩ := append_of_mem hc
        rcases hwalk.parent l c r hsplit with hs | ⟨p, -, hp⟩
        · cases mem_singleton.mp hs
          exact hb
        · exact hw.edges p c hp
    · intro c hc d hd
      rcases (hmem c).mp hc with hc | hc
      · exact (hmem d).mpr (.inl (h.closed c hc d hd))
      · exact (hvisited d).mp (hwalk.closed c hc d hd)
    · intro c hc hreach hne
      rcases (hmem c).mp hc with hc | hc
      · obtain ⟨l, r, hsplit, hp⟩ := h.preceded c hc hreach hne
        refine ⟨l, r ++ new.reverse, ?_, hp⟩
        show s.2 ++ new.reverse = _
        rw [hsplit, append_assoc, cons_append]
      · obtain ⟨l, r, hsplit⟩ := append_of_mem hc
        have horder : s.2 ++ new.reverse = s.2 ++ r.reverse ++ c :: l.reverse := by simp [hsplit]
        rcases hwalk.parent l c r hsplit with hs | ⟨p, hp, hedge⟩
        · cases mem_singleton.mp hs
          rcases hfirst with hhead | ⟨-, hzero⟩
          · exact absurd (h.reached hhead hreach) hnot
          · exact absurd hzero hne
        · exact ⟨_, _, horder, p, mem_append_right _ (mem_reverse.mpr hp), hedge⟩
    · rcases hfirst with hhead | ⟨hnil, rfl⟩
      · show (s.2 ++ new.reverse).head? = some 0
        rw [List.head?_append, hhead]
        rfl
      · show (s.2 ++ new.reverse).head? = some 0
        rw [hnil, hl]
        simp
    · exact (hmem b).mpr (.inr (by simp [hl]))
    · exact fun c hc => (hmem c).mpr (.inl hc)

theorem visitRoots (hw : Bounded blocks) : ∀ (bs : List Nat) {s : List Nat × List Nat}, (∀ b ∈ bs, b < blocks.length) →
    Placed blocks s → s.2.head? = some 0 → ∃ s', bs.foldlM (BlockOrder.visitRoot blocks) s = some s' ∧
      Placed blocks s' ∧ s'.2.head? = some 0 ∧ (∀ b ∈ bs, b ∈ s'.2) ∧ ∀ c ∈ s.2, c ∈ s'.2 := by
  intro bs
  induction bs with
  | nil => exact fun _ h hhead => ⟨_, rfl, h, hhead, by simp, fun c hc => hc⟩
  | cons b rest ih =>
    intro s hbs h hhead
    obtain ⟨s₁, hs₁, h₁, hhead₁, hb, hkeep₁⟩ := h.visitRoot hw (hbs b mem_cons_self) (.inl hhead)
    obtain ⟨s₂, hs₂, h₂, hhead₂, hrest, hkeep₂⟩ := ih (fun c hc => hbs c (mem_cons_of_mem _ hc)) h₁ hhead₁
    refine ⟨s₂, by rw [foldlM_cons, hs₁]; exact hs₂, h₂, hhead₂, ?_, fun c hc => hkeep₂ c (hkeep₁ c hc)⟩
    intro c hc
    rcases mem_cons.mp hc with rfl | hc
    · exact hkeep₂ c hb
    · exact hrest c hc

end Placed

/-- Every block once, the entry first, and before what control comes to a block it comes from. -/
theorem reversePostorder_spec (hw : Bounded blocks) : ∃ order, reversePostorder blocks = some order ∧
    order.Perm (List.range blocks.length) ∧ (blocks ≠ [] → order.head? = some 0) ∧
      ∀ b, Reachable blocks b → b ≠ 0 → ∃ l r, order = l ++ b :: r ∧ ∃ p ∈ l, b ∈ edges blocks p := by
  cases hn : blocks.length with
  | zero =>
    have hnil := length_eq_zero_iff.mp hn
    subst hnil
    refine ⟨[], rfl, List.Perm.refl _, fun hne => absurd rfl hne, ?_⟩
    intro b hreach hne
    rcases Relation.ReflTransGen.cases_tail hreach with rfl | ⟨p, -, hedge⟩
    · exact absurd rfl hne
    · cases hedge
  | succ n =>
    have hstart : Placed blocks ([], []) := ⟨nodup_nil, fun _ => Iff.rfl, by simp, by simp, by simp⟩
    obtain ⟨s₁, hs₁, h₁, hhead₁, hzero, -⟩ := hstart.visitRoot hw (b := 0) (by omega) (.inr ⟨rfl, rfl⟩)
    obtain ⟨s₂, hs₂, h₂, hhead₂, hrest, hkeep⟩ := Placed.visitRoots hw ((List.range n).map Nat.succ) (by
      intro b hb
      obtain ⟨c, hc, rfl⟩ := mem_map.mp hb
      have hlt := mem_range.mp hc
      omega) h₁ hhead₁
    have hall : s₂.2.Perm (List.range (n + 1)) := by
      refine (perm_ext_iff_of_nodup h₂.nodup nodup_range).mpr fun b => ⟨fun hb => ?_, fun hb => ?_⟩
      · rw [← hn]
        exact mem_range.mpr (h₂.inside b hb)
      · rw [range_succ_eq_map] at hb
        rcases mem_cons.mp hb with rfl | hb
        · exact hkeep 0 hzero
        · exact hrest b hb
    refine ⟨s₂.2, ?_, hall, fun _ => hhead₂, fun b hreach hne => h₂.preceded b (h₂.reached hhead₂ hreach) hreach hne⟩
    unfold reversePostorder
    rw [hn, range_succ_eq_map, foldlM_cons, hs₁]
    exact congrArg (Option.map Prod.snd) hs₂

/-- A loop, and a block behind it that nothing leads to. -/
theorem reversePostorder_loop : ∃ order,
    reversePostorder [[.jump 2], [.jump 2, .smiArith 0], [.boolBr 0 3 3], []] = some order ∧
    order.Perm (List.range 4) ∧ (([[.jump 2], [.jump 2, .smiArith 0], [.boolBr 0 3 3], []] : List IrBlock) ≠ [] →
      order.head? = some 0) ∧ ∀ b, Reachable [[.jump 2], [.jump 2, .smiArith 0], [.boolBr 0 3 3], []] b → b ≠ 0 →
      ∃ l r, order = l ++ b :: r ∧ ∃ p ∈ l, b ∈ edges [[.jump 2], [.jump 2, .smiArith 0], [.boolBr 0 3 3], []] p :=
  reversePostorder_spec (by unfold Bounded; decide)

end WinArmVm.BlockOrder
