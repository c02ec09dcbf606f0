import WinArmVm.ControlFlow
import Mathlib.Data.List.Forall2
import Mathlib.Data.Nat.Find

namespace WinArmVm

open List Option Instr Bytecode

theorem mapM_forall₂ {α β : Type} {f : α → Option β} {xs : List α} {ys : List β} (h : xs.mapM f = some ys) :
    List.Forall₂ (fun x y => f x = some y) xs ys := by
  induction xs generalizing ys with
  | nil =>
    cases h
    exact .nil
  | cons x xs ih =>
    rw [mapM_cons] at h
    obtain ⟨y, hy, h⟩ := bind_eq_some_iff.mp h
    obtain ⟨rest, hrest, h⟩ := bind_eq_some_iff.mp h
    cases h
    exact .cons hy (ih hrest)

theorem mapM_none {α β : Type} {f : α → Option β} {xs : List α} : xs.mapM f = none ↔ ∃ x ∈ xs, f x = none := by
  induction xs with
  | nil => simp
  | cons x xs ih =>
    rw [mapM_cons, exists_mem_cons_iff, ← ih]
    cases f x with
    | none => simp
    | some y =>
      cases xs.mapM f with
      | none => simp
      | some ys => simp

namespace Cfg

variable {code : List UInt8} {walk : List (Nat × Instr × Nat)}

/-- The instructions of the code, whose jumps lead to instructions or past the last of them, which is a return. -/
structure Formed (code : List UInt8) (walk : List (Nat × Instr × Nat)) : Prop where
  nonempty : code ≠ []
  decoded : decodeAll code = some walk
  targets : ∀ r ∈ walk, ∀ l ∈ leadersOf r.2.2 r.2.1, l = code.length ∨ ∃ r' ∈ walk, r'.1 = l
  returns : ∀ r ∈ walk, r.2.2 = code.length → ∀ tos, r.2.1.flow r.2.2 tos = none

def JumpsOut (code : List UInt8) (walk : List (Nat × Instr × Nat)) : Prop :=
  ∃ r ∈ walk, ∃ tos, r.2.1.flow r.2.2 tos = some code.length

def leaders (walk : List (Nat × Instr × Nat)) : List Nat := 0 :: walk.flatMap fun r => leadersOf r.2.2 r.2.1

variable {last : Instr × Nat} {instr : Instr} {i next : Nat} {len x : Nat}

theorem mem_startsOf {ls : List Nat} : x ∈ startsOf len ls ↔ x < len ∧ x ∈ ls := by
  unfold startsOf
  rw [mem_filter, mem_range, contains_iff_mem]

theorem startsOf_ordered (len : Nat) (ls : List Nat) : (startsOf len ls).Pairwise (· < ·) :=
  List.Pairwise.sublist filter_sublist pairwise_lt_range

variable {starts : List Nat}

theorem indexOf_eq_some (h : starts.Pairwise (· < ·)) {x j : Nat} :
    indexOf starts x = some j ↔ starts[j]? = some x := by
  unfold indexOf
  constructor
  · intro hj
    obtain ⟨hlt, heq, -⟩ := List.findIdx?_eq_some_iff_getElem.mp hj
    rw [List.getElem?_eq_getElem hlt, eq_of_beq heq]
  · intro hj
    obtain ⟨hlt, heq⟩ := List.getElem?_eq_some_iff.mp hj
    apply List.findIdx?_eq_some_iff_getElem.mpr
    refine ⟨hlt, by simp [heq], ?_⟩
    intro i hi
    have := pairwise_iff_getElem.mp h i j (Nat.lt_trans hi hlt) hlt hi
    rw [heq] at this
    simp only [beq_iff_eq]
    omega

theorem indexOf_eq_none {x : Nat} : indexOf starts x = none ↔ x ∉ starts := by
  unfold indexOf
  rw [findIdx?_eq_none_iff]
  constructor
  · intro h hx
    have := h x hx
    simp at this
  · intro h y hy
    simp only [beq_eq_false_iff_ne]
    rintro rfl
    exact h hy

theorem starts_next (h : starts.Pairwise (· < ·)) {i s len : Nat} (hi : starts[i]? = some s)
    (hlen : ∀ x ∈ starts, x < len) : s < starts.getD (i + 1) len ∧
    ∀ x ∈ starts, x ≤ s ∨ starts.getD (i + 1) len ≤ x := by
  obtain ⟨hlt, heq⟩ := List.getElem?_eq_some_iff.mp hi
  rw [getD_eq_getElem?_getD]
  have hmem : ∀ x ∈ starts, ∃ k, ∃ hk : k < starts.length, starts[k] = x := fun x hx => mem_iff_getElem.mp hx
  have hle : ∀ k (hk : k < starts.length), k ≤ i → starts[k] ≤ s := by
    intro k hk hki
    obtain rfl | hki := Nat.eq_or_lt_of_le hki
    · exact Nat.le_of_eq heq
    · have := pairwise_iff_getElem.mp h k i hk hlt hki
      omega
  by_cases hnext : i + 1 < starts.length
  · rw [List.getElem?_eq_getElem hnext, getD_some]
    refine ⟨?_, ?_⟩
    · have := pairwise_iff_getElem.mp h i (i + 1) hlt hnext (Nat.lt_succ_self i)
      omega
    · intro x hx
      obtain ⟨k, hk, rfl⟩ := hmem x hx
      obtain hki | hki := Nat.lt_or_ge i k
      · right
        obtain rfl | hki := Nat.eq_or_lt_of_le hki
        · exact Nat.le_refl _
        · exact Nat.le_of_lt (pairwise_iff_getElem.mp h (i + 1) k hnext hk hki)
      · exact .inl (hle k hk hki)
  · rw [List.getElem?_eq_none (Nat.le_of_not_lt hnext), getD_none]
    refine ⟨?_, ?_⟩
    · rw [← heq]
      exact hlen _ (getElem_mem hlt)
    · intro x hx
      obtain ⟨k, hk, rfl⟩ := hmem x hx
      exact .inl (hle k hk (by omega))

section Formed

variable (h : Formed code walk)

include h

theorem Formed.threaded : Threaded code 0 walk code.length := decodeFrom_threaded (Nat.zero_le _) h.decoded

theorem Formed.start_instr {s : Nat} (hs : s ∈ startsOf code.length (leaders walk)) : ∃ r ∈ walk, r.1 = s := by
  obtain ⟨hlt, hmem⟩ := mem_startsOf.mp hs
  obtain rfl | hmem := mem_cons.mp hmem
  · have hthread := h.threaded
    cases hw : walk with
    | nil =>
      rw [hw] at hthread
      exact absurd hthread (Nat.ne_of_lt hlt)
    | cons r rs =>
      rw [hw] at hthread
      exact ⟨r, mem_cons_self, hthread.1⟩
  · obtain ⟨r, hr, hl⟩ := mem_flatMap.mp hmem
    obtain rfl | hinstr := h.targets r hr s hl
    · exact absurd hlt (Nat.lt_irrefl _)
    · exact hinstr

theorem Formed.last_instr {i s : Nat} (hs : (startsOf code.length (leaders walk))[i]? = some s) :
    ∃ r ∈ walk, s ≤ r.1 ∧ r.2.2 = (startsOf code.length (leaders walk)).getD (i + 1) code.length ∧
      lastInstr code ((startsOf code.length (leaders walk)).getD (i + 1) code.length) (code.length + 1) s none =
        some (some r.2) := by
  have hordered := startsOf_ordered code.length (leaders walk)
  obtain ⟨hlt, -⟩ := starts_next hordered hs fun x hx => (mem_startsOf.mp hx).1
  have hstop : (startsOf code.length (leaders walk)).getD (i + 1) code.length = code.length ∨
      ∃ r ∈ walk, r.1 = (startsOf code.length (leaders walk)).getD (i + 1) code.length := by
    rw [getD_eq_getElem?_getD]
    cases hnext : (startsOf code.length (leaders walk))[i + 1]? with
    | none => exact .inl rfl
    | some e => exact .inr (h.start_instr (mem_of_getElem? hnext))
  generalize (startsOf code.length (leaders walk)).getD (i + 1) code.length = stop at hlt hstop ⊢
  have hle : stop ≤ code.length := by
    obtain rfl | ⟨r, hr, rfl⟩ := hstop
    · exact Nat.le_refl _
    · have := h.threaded.bounds r hr
      omega
  obtain ⟨r₀, hr₀, rfl⟩ := h.start_instr (mem_of_getElem? hs)
  obtain ⟨front, back, hwalk, hfront, hback⟩ := h.threaded.split hr₀
  have hblock : ∃ mid after, back = mid ++ after ∧ Threaded code r₀.1 mid stop := by
    obtain rfl | ⟨r₁, hr₁, rfl⟩ := hstop
    · exact ⟨back, [], (append_nil back).symm, hback⟩
    · have hmem : r₁ ∈ back := by
        rw [hwalk] at hr₁
        obtain hr₁ | hr₁ := mem_append.mp hr₁
        · have := hfront.bounds r₁ hr₁
          omega
        · exact hr₁
      obtain ⟨mid, after, hsplit, hmid, -⟩ := hback.split hmem
      exact ⟨mid, after, hsplit, hmid⟩
  obtain ⟨mid, after, rfl, hmid⟩ := hblock
  have hne : mid ≠ [] := by
    rintro rfl
    have : r₀.1 = stop := hmid
    omega
  have hlastmem := getLast_mem hne
  refine ⟨mid.getLast hne, ?_, (hmid.bounds _ hlastmem).1, ?_, ?_⟩
  · rw [hwalk]
    exact mem_append_right _ (mem_append_left _ hlastmem)
  · rw [← dropLast_append_getLast hne] at hmid
    obtain ⟨e, -, -, -, -, hend⟩ := hmid.append
    exact hend
  · have hlen : mid.length < code.length + 1 := by
      have := hmid.length_le
      omega
    rw [lastInstr_threaded hmid hlen, getLast?_eq_some_getLast hne]
    rfl

theorem Formed.leader_starts {r : Nat × Instr × Nat} (hr : r ∈ walk) {l : Nat} (hl : l ∈ leadersOf r.2.2 r.2.1)
    (hne : l ≠ code.length) : l ∈ startsOf code.length (leaders walk) := by
  obtain he | ⟨r', hr', rfl⟩ := h.targets r hr l hl
  · exact absurd he hne
  · have := h.threaded.bounds r' hr'
    exact mem_startsOf.mpr ⟨by omega, mem_cons_of_mem _ (mem_flatMap.mpr ⟨r, hr, hl⟩)⟩

end Formed

theorem flow_mem_leaders {i : Instr} {next l : Nat} {tos : Bool} (h : i.flow next tos = some l) :
    l ∈ leadersOf next i ∨ i.endsBlock = false ∧ l = next := by
  cases i <;> cases tos <;> cases h <;> simp [leadersOf, endsBlock]

theorem endsBlock_next {i : Instr} {next : Nat} (h : i.endsBlock = true) : next ∈ leadersOf next i := by
  cases i <;> first | cases h; done | simp [leadersOf]

theorem terminatorOf_goes (hordered : starts.Pairwise (· < ·))
    (hnext : instr.endsBlock = false → starts[i + 1]? = some next) {t : Terminator}
    (ht : terminatorOf starts i (some (instr, next)) = some t) (tos : Bool) :
    (t.goes tos).map (fun j => starts[j]?) = (instr.flow next tos).map some := by
  cases instr
  case jumpFwd d =>
    obtain ⟨target, htarget, ht⟩ := bind_eq_some_iff.mp ht
    cases ht
    exact congrArg some ((indexOf_eq_some hordered).mp htarget)
  case jumpBack d =>
    obtain ⟨target, htarget, ht⟩ := bind_eq_some_iff.mp ht
    cases ht
    exact congrArg some ((indexOf_eq_some hordered).mp htarget)
  case brTrueFwd d =>
    obtain ⟨ifTrue, htrue, ht⟩ := bind_eq_some_iff.mp ht
    obtain ⟨ifFalse, hfalse, ht⟩ := bind_eq_some_iff.mp ht
    cases ht
    cases tos with
    | true => exact congrArg some ((indexOf_eq_some hordered).mp htrue)
    | false => exact congrArg some ((indexOf_eq_some hordered).mp hfalse)
  case brFalseFwd d =>
    obtain ⟨ifTrue, htrue, ht⟩ := bind_eq_some_iff.mp ht
    obtain ⟨ifFalse, hfalse, ht⟩ := bind_eq_some_iff.mp ht
    cases ht
    cases tos with
    | true => exact congrArg some ((indexOf_eq_some hordered).mp htrue)
    | false => exact congrArg some ((indexOf_eq_some hordered).mp hfalse)
  case returnTos =>
    cases ht
    rfl
  case returnSelf =>
    cases ht
    rfl
  case blockReturnTos =>
    cases ht
    rfl
  case nlrTos =>
    cases ht
    rfl
  all_goals
    cases ht
    exact congrArg some (hnext rfl)

theorem indexOf_bind (f : Nat → Terminator) (l : Nat) :
    ((indexOf starts l).bind fun j => some (f j)) = none ↔ l ∉ starts := by
  rw [← indexOf_eq_none]
  cases indexOf starts l with
  | none => simp
  | some j => simp

theorem indexOf_bind₂ (f : Nat → Nat → Terminator) (l l' : Nat) :
    ((indexOf starts l).bind fun j => (indexOf starts l').bind fun k => some (f j k)) = none ↔ l ∉ starts ∨ l' ∉ starts := by
  rw [← indexOf_eq_none, ← indexOf_eq_none]
  cases indexOf starts l with
  | none => simp
  | some j =>
    cases indexOf starts l' with
    | none => simp
    | some k => simp

theorem terminatorOf_none : terminatorOf starts i (some (instr, next)) = none ↔
      instr.endsBlock = true ∧ ∃ tos l, instr.flow next tos = some l ∧ l ∉ starts := by
  cases instr
  case jumpFwd d =>
    refine (indexOf_bind (fun target => .jump target false) (next + d)).trans ?_
    simp [endsBlock, flow]
  case jumpBack d =>
    refine (indexOf_bind (fun target => .jump target true) (next - d)).trans ?_
    simp [endsBlock, flow]
  case brTrueFwd d =>
    refine (indexOf_bind₂ (fun ifTrue ifFalse => .branch ifTrue ifFalse) (next + d) next).trans ?_
    simp [endsBlock, flow, or_comm]
  case brFalseFwd d =>
    refine (indexOf_bind₂ (fun ifTrue ifFalse => .branch ifTrue ifFalse) next (next + d)).trans ?_
    simp [endsBlock, flow, or_comm]
  all_goals simp [terminatorOf, endsBlock, flow]

theorem terminatorOf_back {i k : Nat} (h : terminatorOf starts i (some last) = some (.jump k true)) :
    ∃ d, last.1 = .jumpBack d ∧ indexOf starts (last.2 - d) = some k := by
  obtain ⟨instr, next⟩ := last
  cases instr
  case jumpBack d =>
    obtain ⟨target, htarget, h⟩ := bind_eq_some_iff.mp h
    cases h
    exact ⟨d, rfl, htarget⟩
  case jumpFwd d =>
    obtain ⟨target, -, h⟩ := bind_eq_some_iff.mp h
    cases h
  case brTrueFwd d =>
    obtain ⟨ifTrue, -, h⟩ := bind_eq_some_iff.mp h
    obtain ⟨ifFalse, -, h⟩ := bind_eq_some_iff.mp h
    cases h
  case brFalseFwd d =>
    obtain ⟨ifTrue, -, h⟩ := bind_eq_some_iff.mp h
    obtain ⟨ifFalse, -, h⟩ := bind_eq_some_iff.mp h
    cases h
  all_goals cases h

structure Exact (code : List UInt8) (walk : List (Nat × Instr × Nat)) (cfg : Cfg) : Prop where
  /-- The blocks begin at instructions and follow each other from the first instruction to the end of the code. -/
  first : cfg.blocks.head?.map BasicBlock.bciStart = some 0
  next : ∀ k b, cfg.blocks[k]? = some b →
    b.bciStart < b.bciEnd ∧ b.bciEnd = ((cfg.blocks[k + 1]?).map BasicBlock.bciStart).getD code.length
  starts : ∀ b ∈ cfg.blocks, ∃ r ∈ walk, r.1 = b.bciStart
  /-- Only the last instruction of a block is a jump, a branch or a return. -/
  inner : ∀ b ∈ cfg.blocks, ∀ r ∈ walk, b.bciStart ≤ r.1 → r.1 < b.bciEnd → r.2.1.endsBlock = true → r.2.2 = b.bciEnd
  /-- Control leaves a block, from its last instruction, for the blocks where the interpreter goes on. -/
  edges : ∀ b ∈ cfg.blocks, ∃ r ∈ walk, b.bciStart ≤ r.1 ∧ r.2.2 = b.bciEnd ∧ ∀ tos,
    (b.terminator.goes tos).map (fun j => (cfg.blocks[j]?).map BasicBlock.bciStart) = (r.2.1.flow r.2.2 tos).map some
  headers : ∀ b ∈ cfg.blocks, b.isLoopHeader = true ↔ ∃ r ∈ walk, ∃ d, r.2.1 = .jumpBack d ∧ r.2.2 - d = b.bciStart

theorem exists_start (hzero : starts[0]? = some 0) (hx : x < len) :
    ∃ i s, starts[i]? = some s ∧ s ≤ x ∧ x < starts.getD (i + 1) len := by
  let P : Nat → Prop := fun i => ∃ s, starts[i]? = some s ∧ s ≤ x
  have hfirst : P 0 := ⟨0, hzero, Nat.zero_le x⟩
  classical
  obtain ⟨s, hs, hle⟩ := Nat.findGreatest_spec (P := P) (Nat.zero_le starts.length) hfirst
  refine ⟨Nat.findGreatest P starts.length, s, hs, hle, ?_⟩
  rw [getD_eq_getElem?_getD]
  cases hnext : starts[Nat.findGreatest P starts.length + 1]? with
  | none => exact hx
  | some e =>
    rw [getD_some]
    by_contra hge
    have hlt := (List.getElem?_eq_some_iff.mp hnext).1
    exact Nat.findGreatest_is_greatest (Nat.lt_succ_self _) (Nat.le_of_lt hlt) ⟨e, hnext, Nat.le_of_not_lt hge⟩

theorem blockAt_eq {i s : Nat}
    (hlast : lastInstr code (starts.getD (i + 1) code.length) (code.length + 1) s none = some (some last)) :
    blockAt code starts s i =
      (terminatorOf starts i (some last)).map fun t => ⟨s, starts.getD (i + 1) code.length, false, t⟩ := by
  unfold blockAt
  dsimp only
  rw [hlast, map_eq_bind]
  rfl

section Decoded

variable (h : Formed code walk)

include h

theorem Formed.starts_zero : (startsOf code.length (leaders walk))[0]? = some 0 := by
  have hmem : 0 ∈ startsOf code.length (leaders walk) := mem_startsOf.mpr ⟨length_pos_iff.mpr h.nonempty, mem_cons_self⟩
  have hordered := startsOf_ordered code.length (leaders walk)
  cases hs : startsOf code.length (leaders walk) with
  | nil =>
    rw [hs] at hmem
    cases hmem
  | cons x xs =>
    rw [hs] at hmem hordered
    obtain rfl | hmem := mem_cons.mp hmem
    · rfl
    · exact absurd ((pairwise_cons.mp hordered).1 0 hmem) (Nat.not_lt_zero x)

theorem Formed.ends_at {i s : Nat} (hs : (startsOf code.length (leaders walk))[i]? = some s) {r : Nat × Instr × Nat}
    (hr : r ∈ walk) (hle : s ≤ r.1) (hlt : r.1 < (startsOf code.length (leaders walk)).getD (i + 1) code.length)
    (hends : r.2.1.endsBlock = true) :
    r.2.2 = (startsOf code.length (leaders walk)).getD (i + 1) code.length ∧
      lastInstr code ((startsOf code.length (leaders walk)).getD (i + 1) code.length) (code.length + 1) s none =
        some (some r.2) := by
  obtain ⟨r', hr', hle', hstop, hlast⟩ := h.last_instr hs
  have hbounds := h.threaded.bounds r hr
  have hnext : (startsOf code.length (leaders walk)).getD (i + 1) code.length ≤ r.2.2 := by
    by_cases hend : r.2.2 = code.length
    · rw [hend, ← hstop]
      exact (h.threaded.bounds r' hr').2.2
    · have hmem := h.leader_starts hr (endsBlock_next hends) hend
      obtain hbefore | hafter := (starts_next (startsOf_ordered _ _) hs fun x hx => (mem_startsOf.mp hx).1).2 _ hmem
      · omega
      · exact hafter
  obtain rfl | hbefore | hafter := h.threaded.disjoint r hr r' hr'
  · exact ⟨hstop, hlast⟩
  · have := h.threaded.bounds r' hr'
    omega
  · omega

theorem Formed.decode_eq : decode code = ((startsOf code.length (leaders walk)).zipIdx.mapM fun p =>
    blockAt code (startsOf code.length (leaders walk)) p.1 p.2).map fun blocks =>
      ⟨blocks.zipIdx.map fun p => { p.1 with isLoopHeader := (loopHeaders blocks).contains p.2 }⟩ := by
  have hleaders : findLeaders code = some (leaders walk) := by
    unfold findLeaders
    rw [h.decoded]
    rfl
  unfold decode
  rw [hleaders, map_eq_bind]
  rfl

theorem Formed.decode_none : decode code = none ↔ JumpsOut code walk := by
  rw [h.decode_eq, map_eq_none_iff, mapM_none]
  constructor
  · rintro ⟨⟨s, i⟩, hp, hnone⟩
    have hs := mem_zipIdx_iff_getElem?.mp hp
    obtain ⟨r, hr, -, -, hlast⟩ := h.last_instr hs
    rw [blockAt_eq hlast, map_eq_none_iff] at hnone
    obtain ⟨hends, tos, l, hflow, hl⟩ := terminatorOf_none.mp hnone
    obtain hleader | ⟨hnot, -⟩ := flow_mem_leaders hflow
    · have hlen : l = code.length := by
        by_contra hne
        exact hl (h.leader_starts hr hleader hne)
      rw [hlen] at hflow
      exact ⟨r, hr, tos, hflow⟩
    · rw [hends] at hnot
      cases hnot
  · rintro ⟨r, hr, tos, hflow⟩
    have hends : r.2.1.endsBlock = true := by
      obtain hleader | ⟨-, hnext⟩ := flow_mem_leaders hflow
      · by_contra hnot
        rw [Bool.not_eq_true] at hnot
        revert hleader hnot
        cases r.2.1 <;> simp [leadersOf, endsBlock]
      · rw [h.returns r hr hnext.symm tos] at hflow
        cases hflow
    have hbounds := h.threaded.bounds r hr
    obtain ⟨i, s, hs, hle, hlt⟩ := exists_start h.starts_zero (Nat.lt_of_lt_of_le hbounds.2.1 hbounds.2.2)
    obtain ⟨-, hlast⟩ := h.ends_at hs hr hle hlt hends
    refine ⟨(s, i), mem_zipIdx_iff_getElem?.mpr hs, ?_⟩
    rw [blockAt_eq hlast, map_eq_none_iff]
    exact terminatorOf_none.mpr ⟨hends, tos, code.length, hflow, fun hmem => Nat.lt_irrefl _ (mem_startsOf.mp hmem).1⟩

theorem Formed.decode_some {cfg : Cfg} (hd : decode code = some cfg) :
    cfg.blocks.map BasicBlock.bciStart = startsOf code.length (leaders walk) ∧
    ∀ k b, cfg.blocks[k]? = some b → b.bciEnd = (startsOf code.length (leaders walk)).getD (k + 1) code.length ∧
      (∃ r ∈ walk, b.bciStart ≤ r.1 ∧ r.2.2 = b.bciEnd ∧
        lastInstr code b.bciEnd (code.length + 1) b.bciStart none = some (some r.2) ∧
        terminatorOf (startsOf code.length (leaders walk)) k (some r.2) = some b.terminator) ∧
      (b.isLoopHeader = true ↔ ∃ b' ∈ cfg.blocks, b'.terminator = .jump k true) := by
  rw [h.decode_eq] at hd
  obtain ⟨raw, hraw, rfl⟩ := Option.map_eq_some_iff.mp hd
  have hall := mapM_forall₂ hraw
  have hlen : raw.length = (startsOf code.length (leaders walk)).length := by
    rw [← hall.length_eq, List.length_zipIdx]
  -- the k-th block comes from the k-th leader
  have hblock : ∀ k b, raw[k]? = some b → ∃ s r, (startsOf code.length (leaders walk))[k]? = some s ∧ r ∈ walk ∧ s ≤ r.1 ∧
      r.2.2 = (startsOf code.length (leaders walk)).getD (k + 1) code.length ∧
      lastInstr code ((startsOf code.length (leaders walk)).getD (k + 1) code.length) (code.length + 1) s none =
        some (some r.2) ∧
      ∃ t, terminatorOf (startsOf code.length (leaders walk)) k (some r.2) = some t ∧
        b = ⟨s, (startsOf code.length (leaders walk)).getD (k + 1) code.length, false, t⟩ := by
    intro k b hb
    obtain ⟨hk, hkb⟩ := List.getElem?_eq_some_iff.mp hb
    have hks : k < (startsOf code.length (leaders walk)).length := by omega
    have hs := List.getElem?_eq_getElem hks
    have hat := hall.get (by rw [List.length_zipIdx]; exact hks) hk
    rw [List.get_eq_getElem, List.get_eq_getElem, List.getElem_zipIdx, hkb] at hat
    simp only [Nat.zero_add] at hat
    obtain ⟨r, hr, hle, hstop, hlast⟩ := h.last_instr hs
    rw [blockAt_eq hlast] at hat
    obtain ⟨t, ht, rfl⟩ := Option.map_eq_some_iff.mp hat
    exact ⟨_, r, hs, hr, hle, hstop, hlast, t, ht, rfl⟩
  have hget : ∀ (k : Nat) b, (raw.zipIdx.map fun p => { p.1 with isLoopHeader := (loopHeaders raw).contains p.2 })[k]? = some b →
      ∃ b₀, raw[k]? = some b₀ ∧ b = { b₀ with isLoopHeader := (loopHeaders raw).contains k } := by
    intro k b hb
    rw [List.getElem?_map, List.getElem?_zipIdx] at hb
    obtain ⟨p, hp, rfl⟩ := Option.map_eq_some_iff.mp hb
    obtain ⟨b₀, hb₀, rfl⟩ := Option.map_eq_some_iff.mp hp
    refine ⟨b₀, hb₀, ?_⟩
    rw [Nat.zero_add]
  refine ⟨?_, ?_⟩
  · apply List.ext_getElem?
    intro k
    rw [List.map_map, List.getElem?_map, List.getElem?_zipIdx]
    cases hb : raw[k]? with
    | none =>
      have hk := List.getElem?_eq_none_iff.mp hb
      rw [List.getElem?_eq_none (by omega)]
      rfl
    | some b =>
      obtain ⟨s, r, hs, -, -, -, -, t, -, rfl⟩ := hblock k b hb
      rw [hs]
      rfl
  · intro k b hb
    obtain ⟨b₀, hb₀, rfl⟩ := hget k b hb
    obtain ⟨s, r, hs, hr, hle, hstop, hlast, t, ht, rfl⟩ := hblock k b₀ hb₀
    refine ⟨rfl, ⟨r, hr, hle, hstop, hlast, ht⟩, ?_⟩
    rw [List.contains_iff_mem, loopHeaders, List.mem_filterMap]
    constructor
    · rintro ⟨b', hb', hjump⟩
      obtain ⟨k', hk'⟩ := List.mem_iff_getElem?.mp hb'
      have hterm : b'.terminator = .jump k true := by
        split at hjump
        next target hterm =>
          cases hjump
          exact hterm
        next => cases hjump
      refine ⟨({ b' with isLoopHeader := (loopHeaders raw).contains k' } : BasicBlock), ?_, hterm⟩
      exact List.mem_map.mpr ⟨(b', k'), List.mem_zipIdx_iff_getElem?.mpr hk', rfl⟩
    · rintro ⟨b', hb', hterm⟩
      obtain ⟨p, hp, rfl⟩ := List.mem_map.mp hb'
      refine ⟨p.1, List.fst_mem_of_mem_zipIdx hp, ?_⟩
      rw [hterm]

theorem Formed.exact {cfg : Cfg} (hd : decode code = some cfg) : Exact code walk cfg := by
  obtain ⟨hstarts, hblocks⟩ := h.decode_some hd
  have hordered := startsOf_ordered code.length (leaders walk)
  have hzero := h.starts_zero
  have hget : ∀ k : Nat, (startsOf code.length (leaders walk))[k]? = (cfg.blocks[k]?).map BasicBlock.bciStart := by
    intro k
    rw [← hstarts, getElem?_map]
  have hidx : ∀ b ∈ cfg.blocks, ∃ k : Nat, cfg.blocks[k]? = some b ∧
      (startsOf code.length (leaders walk))[k]? = some b.bciStart := by
    intro b hb
    obtain ⟨k, hk⟩ := mem_iff_getElem?.mp hb
    refine ⟨k, hk, ?_⟩
    rw [hget, hk]
    rfl
  refine ⟨?_, ?_, ?_, ?_, ?_, ?_⟩
  · rw [hget] at hzero
    rw [head?_eq_getElem?]
    exact hzero
  · intro k b hb
    obtain ⟨hend, -, -⟩ := hblocks k b hb
    have hs : (startsOf code.length (leaders walk))[k]? = some b.bciStart := by
      rw [hget, hb]
      rfl
    refine ⟨?_, ?_⟩
    · rw [hend]
      exact (starts_next hordered hs fun x hx => (mem_startsOf.mp hx).1).1
    · rw [hend, getD_eq_getElem?_getD, hget]
  · intro b hb
    obtain ⟨k, -, hs⟩ := hidx b hb
    exact h.start_instr (mem_of_getElem? hs)
  · intro b hb r hr hle hlt hends
    obtain ⟨k, hk, hs⟩ := hidx b hb
    obtain ⟨hend, -, -⟩ := hblocks k b hk
    rw [hend] at hlt ⊢
    exact (h.ends_at hs hr hle hlt hends).1
  · intro b hb
    obtain ⟨k, hk, hs⟩ := hidx b hb
    obtain ⟨hend, ⟨r, hr, hle, hstop, -, ht⟩, -⟩ := hblocks k b hk
    refine ⟨r, hr, hle, hstop, ?_⟩
    intro tos
    have hnext : r.2.1.endsBlock = false → (startsOf code.length (leaders walk))[k + 1]? = some r.2.2 := by
      intro hplain
      rw [hend, getD_eq_getElem?_getD] at hstop
      cases hnext : (startsOf code.length (leaders walk))[k + 1]? with
      | some e =>
        rw [hnext, getD_some] at hstop
        rw [hstop]
      | none =>
        rw [hnext, getD_none] at hstop
        have hret := h.returns r hr hstop tos
        revert hret hplain
        cases r.2.1 <;> simp [endsBlock, flow]
    have hgoes := terminatorOf_goes hordered hnext ht tos
    simp only [hget] at hgoes
    exact hgoes
  · intro b hb
    obtain ⟨k, hk, hs⟩ := hidx b hb
    obtain ⟨-, -, hheader⟩ := hblocks k b hk
    rw [hheader]
    constructor
    · rintro ⟨b', hb', hterm⟩
      obtain ⟨k', hk', -⟩ := hidx b' hb'
      obtain ⟨-, ⟨r, hr, -, -, -, ht⟩, -⟩ := hblocks k' b' hk'
      rw [hterm] at ht
      obtain ⟨d, hd, htarget⟩ := terminatorOf_back ht
      have hat := (indexOf_eq_some hordered).mp htarget
      rw [hs] at hat
      exact ⟨r, hr, d, hd, (some.inj hat).symm⟩
    · rintro ⟨r, hr, d, hback, htarget⟩
      have hbounds := h.threaded.bounds r hr
      obtain ⟨i, s, hi, hle, hlt⟩ := exists_start hzero (Nat.lt_of_lt_of_le hbounds.2.1 hbounds.2.2)
      have hb' := hget i
      rw [hi] at hb'
      obtain ⟨b', hb', hstart⟩ := map_eq_some_iff.mp hb'.symm
      obtain ⟨hend, ⟨r', -, -, -, hlast', ht⟩, -⟩ := hblocks i b' hb'
      obtain ⟨-, hlast⟩ := h.ends_at hi hr hle hlt (by rw [hback]; rfl)
      rw [hend, hstart, hlast] at hlast'
      have hsame : r.2 = r'.2 := some.inj (some.inj hlast')
      have hk' := (indexOf_eq_some hordered).mpr hs
      rw [← htarget] at hk'
      have hterm : terminatorOf (startsOf code.length (leaders walk)) i (some r.2) = some (.jump k true) := by
        have hpair : r.2 = (.jumpBack d, r.2.2) := Prod.ext hback rfl
        rw [hpair]
        exact bind_eq_some_iff.mpr ⟨k, hk', rfl⟩
      rw [hsame, ht] at hterm
      exact ⟨b', mem_of_getElem? hb', some.inj hterm⟩

end Decoded

end Cfg

end WinArmVm
