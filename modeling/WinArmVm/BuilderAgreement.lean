import WinArmVm.BuilderLayout

namespace WinArmVm

open List Option Bytecode

/-- What an instruction does, its operands resolved: objects, sites and places instead of indices. -/
inductive Meaning (Obj Sel : Type)
  | plain (i : Instr)
  | literal (o : Obj)
  | global (assoc : Obj)
  | storeGlobal (assoc : Obj)
  | closure (blk : Obj) (nValueCaptures : UInt8)
  | send (selector : Sel) (argc : UInt8) (isSuper : Bool)
  | fwdJump (kind : FwdJump) (target : Nat)
  | jumpBack (target : Nat)
deriving DecidableEq

/-- What an instruction whose successor is at `next` means in the method. -/
def BytecodeMethod.meaning {Obj Sel : Type} (m : BytecodeMethod Obj Sel) (next : Nat) : Instr → Option (Meaning Obj Sel)
  | .pushLiteral idx => m.literals[idx]?.map .literal
  | .pushGlobal idx => m.literals[idx.toNat]?.map .global
  | .storeGlobalPop idx => m.literals[idx.toNat]?.map .storeGlobal
  | .pushClosure lit n => m.literals[lit.toNat]?.map fun blk => .closure blk n
  | .send ic isSuper => m.ics[ic]?.map fun site => .send site.1 site.2 isSuper
  | .jumpFwd d => some (.fwdJump .jump (next + d))
  | .brTrueFwd d => some (.fwdJump .brTrue (next + d))
  | .brFalseFwd d => some (.fwdJump .brFalse (next + d))
  | .jumpBack d => some (.jumpBack (next - d))
  | i => some (.plain i)

namespace BuilderCall

variable {Obj Sel : Type}

def binds (l : Nat) : BuilderCall Obj Sel → Bool
  | .bind l' => l' == l
  | _ => false

end BuilderCall

namespace BytecodeBuilder

variable {Obj Sel : Type}

def asked (b : BytecodeBuilder Obj Sel) (place : Nat → Option Nat) : BuilderCall Obj Sel → Option (Meaning Obj Sel)
  | .pushLiteral _ o => some (.literal o)
  | .pushGlobal _ assoc => some (.global assoc)
  | .storeGlobalPop _ assoc => some (.storeGlobal assoc)
  | .pushClosure lit n => b.literals[lit]?.map fun blk => .closure blk n
  | .send selector argc => some (.send selector argc false)
  | .sendSuper selector argc => some (.send selector argc true)
  | .fwdJump kind l => (place l).map (.fwdJump kind)
  | .jumpBack l => (place l).map .jumpBack
  | c => c.straight.map fun r => .plain r.2.2

variable (checked : Bool)

def boundAt (cs : List (BuilderCall Obj Sel)) (l : Nat) : Option Nat :=
  (((new : BytecodeBuilder Obj Sel).steps checked cs).find? fun s => s.2.binds l).map fun s => s.1.code.length

def requests (cs : List (BuilderCall Obj Sel)) : List (Nat × Option (Meaning Obj Sel)) :=
  (((new : BytecodeBuilder Obj Sel).steps checked cs).filter fun s => s.2.emits).map fun s =>
    (s.1.code.length, s.1.asked (boundAt checked cs) s.2)

def Selects (b : BytecodeBuilder Obj Sel) : BuilderCall Obj Sel → Prop
  | .pushLiteral addr o => ∀ idx, b.InSlot addr o idx → (b.literals ++ [o])[idx % 65536]? = some o
  | .pushGlobal addr assoc | .storeGlobalPop addr assoc =>
    ∀ idx, b.InSlot addr assoc idx → (b.literals ++ [assoc])[idx % 256]? = some assoc
  | .pushClosure lit _ => b.literals[lit % 256]? = b.literals[lit]?
  | _ => True

/-- The index of `push_closure` is one that interning the block answered. -/
def closureInterned (b : BytecodeBuilder Obj Sel) : BuilderCall Obj Sel → Bool
  | .pushClosure lit _ => lit < b.literals.length
  | _ => true

end BytecodeBuilder

def BytecodeMethod.decoded {Obj Sel : Type} (m : BytecodeMethod Obj Sel) :
    Option (List (Nat × Option (Meaning Obj Sel))) :=
  (decodeAll m.code).map fun walk => walk.map fun r => (r.1, m.meaning r.2.2 r.2.1)

namespace BytecodeBuilder

variable {Obj Sel : Type} {checked : Bool}

theorem run_laid : ∀ {cs : List (BuilderCall Obj Sel)} {b b' : BytecodeBuilder Obj Sel} {its : List (BuilderItem Obj Sel)},
    b.Laid its → b.run checked cs = some b' → b.Extends b' ∧ ∃ more, b'.Laid (its ++ more) ∧
      more.map (fun it => (it.before, it.call)) = (b.steps checked cs).filter fun s => s.2.emits := by
  intro cs
  induction cs with
  | nil =>
    intro b b' its h hrun
    cases hrun
    exact ⟨Extends.refl b, [], by rwa [append_nil], rfl⟩
  | cons c cs ih =>
    intro b b' its h hrun
    obtain ⟨b₁, hcall, hrest⟩ := bind_eq_some_iff.mp hrun
    obtain ⟨hext, hlaid⟩ := h.call hcall
    obtain ⟨hext', more, hlaid', hmap⟩ := ih hlaid hrest
    refine ⟨hext.trans hext', itemOf b b₁ c ++ more, by rwa [← append_assoc], ?_⟩
    rw [map_append, hmap, steps, hcall, filter_cons]
    unfold itemOf
    split
    next => rfl
    next => rfl

variable {b b' : BytecodeBuilder Obj Sel} {cs ds : List (BuilderCall Obj Sel)} {m : BytecodeMethod Obj Sel} {selector : Sel}
  {i : Instr} {w : Nat}

theorem bind_place {l : Nat} (h : b.bind l = some b') : b'.labels[l]? = some (LabelState.bound b.code.length) := by
  unfold BytecodeBuilder.bind at h
  split at h
  next => cases h
  next => cases h
  next sites hl =>
    obtain ⟨code, -, rfl⟩ := map_eq_some_iff.mp h
    exact List.getElem?_set_self (List.getElem?_eq_some_iff.mp hl).1

theorem labels_internLiteral (b : BytecodeBuilder Obj Sel) (addr : Obj → Nat) (o : Obj) :
    (b.internLiteral addr o).2.labels = b.labels := by
  unfold internLiteral
  split
  next => rfl
  next => split <;> rfl

theorem labels_emitSend {narrow wide : Opcode} {argc : UInt8}
    (h : b.emitSend narrow wide selector argc = some b') : b'.labels = b.labels := by
  unfold emitSend addSend at h
  split at h
  next =>
    cases h
    dsimp only
    split <;> rfl
  next => cases h

variable {b : BytecodeBuilder Obj Sel} {c : BuilderCall Obj Sel}

theorem bound_of_call (h : b.call checked c = some b')
    {l t : Nat} (hbinds : c.binds l = false) (hl : b'.labels[l]? = some (LabelState.bound t)) :
    b.labels[l]? = some (LabelState.bound t) := by
  have hsame : b'.labels = b.labels → b.labels[l]? = some (LabelState.bound t) := fun heq => heq ▸ hl
  cases hs : c.straight with
  | some r =>
    rw [BuilderCall.call_straight hs] at h
    cases h
    exact hl
  | none =>
    cases c <;> simp only [BuilderCall.straight, reduceCtorEq] at hs
    case pushLiteral addr o =>
      cases h
      apply hsame
      rw [← b.labels_internLiteral addr o]
      unfold pushLiteral emitLiteralRef
      split <;> rfl
    case pushGlobal addr o =>
      cases h
      exact hsame (b.labels_internLiteral addr o)
    case storeGlobalPop addr o =>
      cases h
      exact hsame (b.labels_internLiteral addr o)
    case internBlockLiteral addr o =>
      cases h
      exact hsame (b.labels_internLiteral addr o)
    case pushClosure lit n =>
      simp only [BytecodeBuilder.call, pushClosure] at h
      obtain ⟨-, h⟩ := ite_none_left_eq_some.mp h
      cases h
      exact hl
    case addSend selector argc =>
      simp only [BytecodeBuilder.call, addSend] at h
      split at h
      next =>
        cases h
        exact hl
      next => cases h
    case send selector argc => exact hsame (labels_emitSend h)
    case sendSuper selector argc => exact hsame (labels_emitSend h)
    case newLabel =>
      cases h
      rcases Nat.lt_or_ge l b.labels.length with hlt | hge
      · rwa [newLabel, List.getElem?_append_left hlt] at hl
      · have hmem := mem_of_getElem? (show [LabelState.unbound []][l - b.labels.length]? = some (LabelState.bound t) by
          rwa [newLabel, List.getElem?_append_right hge] at hl)
        cases mem_singleton.mp hmem
    case bind l' =>
      have hne : l' ≠ l := fun heq => by simp [BuilderCall.binds, heq] at hbinds
      simp only [BytecodeBuilder.call, BytecodeBuilder.bind] at h
      split at h
      next => cases h
      next => cases h
      next =>
        obtain ⟨code, -, rfl⟩ := map_eq_some_iff.mp h
        rwa [show (b.labels.set l' _)[l]? = _ from List.getElem?_set_ne hne] at hl
    case fwdJump kind l' =>
      simp only [BytecodeBuilder.call, emitFwdJump] at h
      split at h
      next => cases h
      next sites hsites =>
        cases h
        by_cases heq : l' = l
        · subst heq
          rw [show (b.labels.set l' _)[l']? = _ from List.getElem?_set_self (List.getElem?_eq_some_iff.mp hsites).1] at hl
          cases hl
        · rwa [show (b.labels.set l' _)[l]? = _ from List.getElem?_set_ne heq] at hl
      next =>
        obtain ⟨-, h⟩ := ite_none_left_eq_some.mp h
        obtain ⟨-, h⟩ := ite_none_left_eq_some.mp h
        cases h
        exact hl
    case jumpBack l' =>
      simp only [BytecodeBuilder.call, BytecodeBuilder.jumpBack] at h
      split at h
      next => cases h
      next => cases h
      next =>
        obtain ⟨-, h⟩ := ite_none_left_eq_some.mp h
        obtain ⟨-, h⟩ := ite_none_left_eq_some.mp h
        cases h
        exact hl

theorem find_binding : ∀ {cs : List (BuilderCall Obj Sel)} {b b' : BytecodeBuilder Obj Sel}
    {its : List (BuilderItem Obj Sel)}, b.Laid its → b.run checked cs = some b' → ∀ {l t : Nat},
    b'.labels[l]? = some (LabelState.bound t) → b.labels[l]? = some (LabelState.bound t) ∨
      ((b.steps checked cs).find? fun s => s.2.binds l).map (fun s => s.1.code.length) = some t := by
  intro cs
  induction cs with
  | nil =>
    intro b b' its _ hrun l t hl
    cases hrun
    exact .inl hl
  | cons c cs ih =>
    intro b b' its h hrun l t hl
    obtain ⟨b₁, hcall, hrest⟩ := bind_eq_some_iff.mp hrun
    obtain ⟨-, hlaid⟩ := h.call hcall
    obtain ⟨hext, -⟩ := run_laid hlaid hrest
    rw [steps, hcall, find?_cons]
    cases hbinds : c.binds l with
    | true =>
      right
      cases c <;> try cases hbinds
      case bind l' =>
        cases (beq_iff_eq.mp hbinds)
        have hbound := hext.bound _ _ (bind_place hcall)
        rw [hl] at hbound
        cases hbound
        rfl
    | false =>
      rcases ih hlaid hrest hl with hold | hfound
      · exact .inl (bound_of_call hcall hbinds hold)
      · exact .inr hfound

theorem Chain.length_le : ∀ {its : List (BuilderItem Obj Sel)} {p q : Nat}, Chain p its q → p + its.length ≤ q := by
  intro its
  induction its with
  | nil => intro p q h; exact Nat.le_of_eq h
  | cons it its ih =>
    intro p q h
    have := ih h.2.2
    have := h.2.1
    rw [length_cons]
    omega

def Decoded (b : BytecodeBuilder Obj Sel) (it : BuilderItem Obj Sel) (r : Nat × Instr × Nat) : Prop :=
  r.1 = it.pos ∧ r.2.2 = it.pos + it.width ∧ b.Reads it.before it.call r.2.1 ∧
    ∃ bytes, decode bytes = some (r.2.1, it.width)

theorem decodeFrom_chain : ∀ {its : List (BuilderItem Obj Sel)} {p turns : Nat},
    Chain p its b.code.length → (∀ it ∈ its, b.Settled it) → its.length < turns →
    ∃ walk, decodeFrom b.code turns p = some walk ∧ List.Forall₂ b.Decoded its walk := by
  intro its
  induction its with
  | nil =>
    intro p turns h _ hturns
    obtain ⟨turns, rfl⟩ := Nat.exists_eq_succ_of_ne_zero (Nat.ne_of_gt hturns)
    exact ⟨[], if_pos (Nat.le_of_eq (Eq.symm h)), .nil⟩
  | cons it its ih =>
    intro p turns h hset hturns
    obtain ⟨turns, rfl⟩ := Nat.exists_eq_succ_of_ne_zero (show turns ≠ 0 by omega)
    obtain ⟨hpos, hwidth, htail⟩ := h
    obtain ⟨bytes, i, hsits, hlen, hreads, hdec⟩ := hset it mem_cons_self
    rw [length_cons] at hturns
    obtain ⟨walk, hwalk, hall⟩ := ih htail (fun x hx => hset x (mem_cons_of_mem _ hx)) (Nat.lt_of_succ_lt_succ hturns)
    have hat : decodeAt b.code p = some (i, p + it.width) := by
      unfold decodeAt
      rw [← hpos, hsits.drop, hdec]
      rfl
    have hlt : ¬ b.code.length ≤ p := by
      have := htail.le
      omega
    refine ⟨(p, i, p + it.width) :: walk, ?_, .cons ⟨hpos.symm, ?_, hreads, bytes, ?_⟩ hall⟩
    · rw [decodeFrom, if_neg hlt, hat]
      simp [hwalk]
    · show p + it.width = _
      rw [hpos]
    · have := hdec []
      rwa [append_nil] at this

theorem decode_jump_width {bytes : List UInt8} (h : decode bytes = some (i, w))
    (hjump : (∃ kind : FwdJump, ∃ d, i = kind.instr d) ∨ ∃ d, i = .jumpBack d) : w = 3 := by
  cases bytes with
  | nil => cases h
  | cons x xs =>
    obtain ⟨op, -, hop⟩ := bind_eq_some_iff.mp h
    unfold decodeOp at hop
    split at hop <;> cases hop <;> first | rfl | skip
    all_goals
      rcases hjump with ⟨kind, d, hk⟩ | ⟨d, hk⟩
      · cases kind <;> cases hk
      · cases hk

theorem literal_iff {b before : BytecodeBuilder Obj Sel} {addr : Obj ↪ Nat} {o : Obj} {idx : Nat} (bound : Nat)
    {f : Obj → Meaning Obj Sel} (hf : Function.Injective f) (hslot : before.InSlot addr o idx)
    (hagree : ∀ j ≤ idx, b.literals[j]? = (before.literals ++ [o])[j]?) :
    b.literals[idx % bound]?.map f = some (f o) ↔
      ∀ idx, before.InSlot addr o idx → (before.literals ++ [o])[idx % bound]? = some o := by
  rw [hagree _ (Nat.mod_le idx bound)]
  constructor
  · intro h idx' hslot'
    rw [hslot'.unique hslot]
    obtain ⟨o', hget, heq⟩ := map_eq_some_iff.mp h
    rw [hget, hf heq]
  · intro h
    rw [h idx hslot]
    rfl

theorem Reads.meaning_iff {b before : BytecodeBuilder Obj Sel}
    (h : b.Reads before c i) (hlit : m.literals = b.literals) (hics : m.ics = b.icSites)
    {place : Nat → Option Nat} (hplace : ∀ l t : Nat, b.labels[l]? = some (LabelState.bound t) → place l = some t)
    (hblock : before.closureInterned c = true)
    (hw : (∃ kind : FwdJump, ∃ d, i = kind.instr d) ∨ (∃ d, i = .jumpBack d) → w = 3) :
    m.meaning (before.code.length + w) i = before.asked place c ↔ before.Selects c := by
  cases h with
  | straight hs =>
    cases c <;> cases hs <;> exact ⟨fun _ => trivial, fun _ => rfl⟩
  | literal hslot hagree =>
    have := literal_iff 65536 (fun _ _ h => by cases h; rfl : Function.Injective (Meaning.literal : Obj → Meaning Obj Sel)) hslot hagree
    simpa only [BytecodeMethod.meaning, asked, Selects, hlit] using this
  | «global» hslot hagree =>
    have := literal_iff 256 (fun _ _ h => by cases h; rfl : Function.Injective (Meaning.global : Obj → Meaning Obj Sel)) hslot hagree
    simpa only [BytecodeMethod.meaning, asked, Selects, hlit, UInt8.toNat_ofNat'] using this
  | storeGlobal hslot hagree =>
    have := literal_iff 256 (fun _ _ h => by cases h; rfl : Function.Injective (Meaning.storeGlobal : Obj → Meaning Obj Sel)) hslot hagree
    simpa only [BytecodeMethod.meaning, asked, Selects, hlit, UInt8.toNat_ofNat'] using this
  | @closure lit n hle =>
    have hlow : b.literals[lit % 256]? = before.literals[lit % 256]? := by
      have hlt : lit % 256 < before.literals.length := Nat.lt_of_le_of_lt (Nat.mod_le ..) (of_decide_eq_true hblock)
      rw [getElem?_eq_getElem hlt]
      exact getElem?_of_initial hle (getElem?_eq_getElem hlt)
    have hinj : Function.Injective fun blk : Obj => (Meaning.closure blk n : Meaning Obj Sel) := fun _ _ h => by
      cases h
      rfl
    simp only [BytecodeMethod.meaning, asked, Selects, hlit, UInt8.toNat_ofNat', hlow]
    exact (map_injective hinj).eq_iff
  | send hs =>
    simp [BytecodeMethod.meaning, asked, Selects, hics, hs]
  | sendSuper hs =>
    simp [BytecodeMethod.meaning, asked, Selects, hics, hs]
  | @fwdJump kind l target ht hle =>
    rw [hw (.inl ⟨kind, _, rfl⟩)]
    have hsum : before.code.length + 3 + (target - (before.code.length + 3)) = target := by omega
    cases kind <;> simp [BytecodeMethod.meaning, FwdJump.instr, asked, Selects, hplace _ _ ht, hsum]
  | @jumpBack l target ht hle =>
    rw [hw (.inr ⟨_, rfl⟩)]
    have hdiff : before.code.length + 3 - (before.code.length + 3 - target) = target := by omega
    simp [BytecodeMethod.meaning, asked, Selects, hplace _ _ ht, hdiff]

theorem map_eq_map_iff {α β γ : Type} {R : α → β → Prop} {f : α → γ} {g : β → γ} {P : α → Prop}
    {xs : List α} {ys : List β} (h : List.Forall₂ R xs ys) (hP : ∀ x ∈ xs, ∀ y, R x y → (g y = f x ↔ P x)) :
    ys.map g = xs.map f ↔ ∀ x ∈ xs, P x := by
  induction h with
  | nil => simp
  | @cons x y xs ys hxy _ ih =>
    rw [map_cons, map_cons, List.cons.injEq, hP x mem_cons_self y hxy,
      ih fun x hx => hP x (mem_cons_of_mem _ hx), forall_mem_cons]

theorem finish_spec {argc ntemps : Nat} (h : b.finish checked selector argc ntemps = some m) :
    b.labels.all LabelState.isBound = true ∧ m.code = b.code ∧ m.literals = b.literals ∧ m.ics = b.icSites := by
  obtain ⟨-, h⟩ := ite_none_left_eq_some.mp h
  obtain ⟨-, h⟩ := ite_none_left_eq_some.mp h
  obtain ⟨-, h⟩ := ite_none_left_eq_some.mp h
  obtain ⟨hbound, h⟩ := ite_none_left_eq_some.mp h
  obtain ⟨-, h⟩ := ite_none_left_eq_some.mp h
  split at h
  next => cases h
  next =>
    split at h
    next =>
      cases h
      exact ⟨not_not.mp hbound, rfl, rfl, rfl⟩
    next => cases h

theorem Laid.settled {its : List (BuilderItem Obj Sel)} (h : b.Laid its)
    (hbound : b.labels.all LabelState.isBound = true) : ∀ it ∈ its, b.Settled it := by
  intro it hit
  rcases h.item it hit with hset | ⟨kind, l, sites, -, -, hl, -⟩
  · exact hset
  · have hmem := mem_of_getElem? hl
    cases all_eq_true.mp hbound _ hmem

theorem selects_of_silent (h : c.emits = false) : b.Selects c := by
  cases c <;> trivial

theorem mem_steps_filter {cs : List (BuilderCall Obj Sel)} :
    (∀ s ∈ (b.steps checked cs).filter (fun s => s.2.emits), s.1.Selects s.2) ↔
      ∀ s ∈ b.steps checked cs, s.1.Selects s.2 := by
  constructor
  · intro h s hs
    cases hemits : s.2.emits with
    | true => exact h s (mem_filter.mpr ⟨hs, hemits⟩)
    | false => exact selects_of_silent hemits
  · intro h s hs
    exact h s (mem_filter.mp hs).1

/-- Decoding a finished method yields the instructions that were asked for just when every literal,
global and closure call selects its object: the index it finds, or the entry its truncated index has. -/
theorem decoded_iff_selects {cs : List (BuilderCall Obj Sel)} {b : BytecodeBuilder Obj Sel} {m : BytecodeMethod Obj Sel}
    {selector : Sel} {argc ntemps : Nat} (hrun : new.run checked cs = some b)
    (hfinish : b.finish checked selector argc ntemps = some m)
    (hblocks : ∀ s ∈ (new : BytecodeBuilder Obj Sel).steps checked cs, s.1.closureInterned s.2 = true) :
    m.decoded = some (requests checked cs) ↔
      ∀ s ∈ (new : BytecodeBuilder Obj Sel).steps checked cs, s.1.Selects s.2 := by
  obtain ⟨hbound, hcode, hlit, hics⟩ := finish_spec hfinish
  obtain ⟨-, its, hlaid, hits⟩ := run_laid laid_new hrun
  rw [nil_append] at hlaid
  have hplace : ∀ l t : Nat, b.labels[l]? = some (LabelState.bound t) → boundAt checked cs l = some t := by
    intro l t hl
    rcases find_binding laid_new hrun hl with hnew | hfound
    · simp [new] at hnew
    · exact hfound
  have hturns : its.length < b.code.length + 1 := by
    have := hlaid.chain.length_le
    omega
  obtain ⟨walk, hwalk, hall⟩ := decodeFrom_chain hlaid.chain (hlaid.settled hbound) hturns
  have hdecoded : m.decoded = some (walk.map fun r => (r.1, m.meaning r.2.2 r.2.1)) := by
    unfold BytecodeMethod.decoded decodeAll
    rw [hcode, hwalk]
    rfl
  have hitem : ∀ it ∈ its, ∀ r, b.Decoded it r →
      ((r.1, m.meaning r.2.2 r.2.1) = (it.pos, it.before.asked (boundAt checked cs) it.call) ↔
        it.before.Selects it.call) := by
    intro it hit r hr
    obtain ⟨hpos, hnext, hreads, bytes, hdec⟩ := hr
    have hstep : (it.before, it.call) ∈ (new : BytecodeBuilder Obj Sel).steps checked cs := by
      have hmem := mem_map_of_mem (f := fun it : BuilderItem Obj Sel => (it.before, it.call)) hit
      rw [hits] at hmem
      exact (mem_filter.mp hmem).1
    rw [hpos, hnext, Prod.mk.injEq, and_iff_right rfl]
    exact hreads.meaning_iff hlit hics hplace (hblocks _ hstep) fun hjump => decode_jump_width hdec hjump
  rw [hdecoded, requests, ← hits, List.map_map, Option.some_inj]
  refine (map_eq_map_iff hall hitem).trans ?_
  rw [← mem_steps_filter, ← hits]
  exact (forall_mem_map (f := fun it : BuilderItem Obj Sel => (it.before, it.call))
    (P := fun s => s.1.Selects s.2)).symm

def smallLoop : List (BuilderCall Nat Nat) :=
  [.newLabel, .newLabel, .internBlockLiteral (Function.Embedding.refl Nat) 7, .bind 0, .pushClosure 0 1,
    .fwdJump .brFalse 1, .pushLiteral (Function.Embedding.refl Nat) 5, .send 9 1, .jumpBack 0, .bind 1,
    .pushGlobal (Function.Embedding.refl Nat) 5, .retTos]

theorem decoded_iff_selects_loop : ∃ b m, new.run true smallLoop = some b ∧ b.finish true 3 0 0 = some m ∧
    (m.decoded = some (requests true smallLoop) ↔
      ∀ s ∈ (new : BytecodeBuilder Nat Nat).steps true smallLoop, s.1.Selects s.2) := by
  obtain ⟨b, hrun⟩ : ∃ b, new.run true smallLoop = some b := ⟨_, rfl⟩
  have hsome : ((new.run true smallLoop).bind fun b => b.finish true 3 0 0).isSome = true := by decide +kernel
  obtain ⟨m, hm⟩ := isSome_iff_exists.mp hsome
  rw [hrun] at hm
  exact ⟨b, m, hrun, hm, decoded_iff_selects hrun hm (by decide +kernel)⟩

theorem run_append (h : b.run checked cs = some b') : b.run checked (cs ++ ds) = b'.run checked ds := by
  induction cs generalizing b with
  | nil => cases h; rfl
  | cons c cs ih =>
    obtain ⟨b₁, hcall, hrest⟩ := bind_eq_some_iff.mp h
    show (b.call checked c).bind (fun b => b.run checked (cs ++ ds)) = _
    rw [hcall, bind_some, ih hrest]

theorem steps_append (h : b.run checked cs = some b') : b.steps checked (cs ++ ds) = b.steps checked cs ++ b'.steps checked ds := by
  induction cs generalizing b with
  | nil => cases h; rfl
  | cons c cs ih =>
    obtain ⟨b₁, hcall, hrest⟩ := bind_eq_some_iff.mp h
    rw [cons_append, steps, steps, hcall, cons_append]
    simp only [ih hrest]

theorem mem_steps {cs : List (BuilderCall Obj Sel)} : ∀ s ∈ b.steps checked cs, s.2 ∈ cs := by
  induction cs generalizing b with
  | nil => intro s hs; cases hs
  | cons c cs ih =>
    intro s hs
    rw [steps, mem_cons] at hs
    rcases hs with rfl | hs
    · exact mem_cons_self
    · split at hs
      next => cases hs
      next => exact mem_cons_of_mem _ (ih s hs)

def internBlocks (n : Nat) : List (BuilderCall Nat Nat) :=
  (List.range n).map (.internBlockLiteral (Function.Embedding.refl Nat))

theorem lookup_fresh (n : Nat) : (((List.range n).map fun i => (i, i)).reverse).lookup n = none := by
  rw [lookup_eq_none_iff]
  intro p hp
  obtain ⟨i, hi, rfl⟩ := mem_map.mp (mem_reverse.mp hp)
  have := mem_range.mp hi
  simp
  omega

theorem run_internBlocks (n : Nat) : (new : BytecodeBuilder Nat Nat).run checked (internBlocks n) =
    some ⟨[], List.range n, ((List.range n).map fun i => (i, i)).reverse, [], []⟩ := by
  induction n with
  | zero => rfl
  | succ n ih =>
    have hlast : internBlocks (n + 1) = internBlocks n ++ [.internBlockLiteral (Function.Embedding.refl Nat) n] := by
      simp [internBlocks, range_succ]
    rw [hlast, run_append ih]
    show (some _).bind _ = _
    simp [run, internLiteral, lookup_fresh, range_succ]

theorem steps_internBlocks_silent {n : Nat} {b : BytecodeBuilder Nat Nat} :
    (b.steps checked (internBlocks n)).filter (fun s => s.2.emits) = [] := by
  rw [filter_eq_nil_iff]
  intro s hs
  obtain ⟨i, -, hi⟩ := mem_map.mp (mem_steps s hs)
  rw [← hi]
  exact Bool.false_ne_true

theorem pushGlobal_fresh (n : Nat) : pushGlobal ⟨[], List.range n, ((List.range n).map fun i => (i, i)).reverse, [], []⟩
        (Function.Embedding.refl Nat) n =
      (⟨[Opcode.pushGlobal.byte, UInt8.ofNat n], List.range (n + 1), ((List.range (n + 1)).map fun i => (i, i)).reverse,
        [], []⟩ : BytecodeBuilder Nat Nat) := by
  simp [pushGlobal, emit, internLiteral, lookup_fresh, range_succ]

def manyBlocks : List (BuilderCall Nat Nat) :=
  internBlocks 256 ++ [.pushGlobal (Function.Embedding.refl Nat) 256, .retTos]

/-- The global has index 256; its operand byte selects the first block. -/
theorem global_beyond_byte :
    (((new : BytecodeBuilder Nat Nat).run true manyBlocks).bind fun b => b.finish true 0 0 0).bind
        BytecodeMethod.decoded = some [(0, some (.global 0)), (2, some (.plain .returnTos))] ∧
      requests true manyBlocks = [(0, some (.global 256)), (2, some (.plain .returnTos))] := by
  have hrun : new.run true (internBlocks 256) = _ := run_internBlocks 256
  constructor
  · rw [manyBlocks, run_append hrun]
    show ((some (retTos (pushGlobal ..))).bind _).bind _ = _
    rw [pushGlobal_fresh 256]
    decide +kernel
  · rw [requests, manyBlocks, steps_append hrun, filter_append, steps_internBlocks_silent]
    rfl

end BytecodeBuilder

end WinArmVm
