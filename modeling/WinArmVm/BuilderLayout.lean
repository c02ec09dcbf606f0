import WinArmVm.BytecodeBuilder

namespace WinArmVm

open List Bytecode Option

/-- The bytes stand in the code from position `p` on. -/
def Sits (code : List UInt8) (p : Nat) (bytes : List UInt8) : Prop := ∀ k v, bytes[k]? = some v → code[p + k]? = some v

namespace Sits

variable {code code' bytes : List UInt8} {p : Nat}

theorem frame (h : Sits code p bytes) (hsame : ∀ i, p ≤ i → i < p + bytes.length → code'[i]? = code[i]?) :
    Sits code' p bytes := by
  intro k v hk
  have hlt := (List.getElem?_eq_some_iff.mp hk).1
  rw [hsame (p + k) (by omega) (by omega)]
  exact h k v hk

theorem append (h : Sits code p bytes) (more : List UInt8) : Sits (code ++ more) p bytes := by
  intro k v hk
  have hv := h k v hk
  rw [List.getElem?_append_left (List.getElem?_eq_some_iff.mp hv).1]
  exact hv

theorem last (code bytes : List UInt8) : Sits (code ++ bytes) code.length bytes := by
  intro k v hk
  rw [getElem?_append_right (Nat.le_add_right ..), Nat.add_sub_cancel_left]
  exact hk

theorem drop : ∀ {bytes : List UInt8} {p : Nat}, Sits code p bytes →
    code.drop p = bytes ++ code.drop (p + bytes.length) := by
  intro bytes
  induction bytes with
  | nil => intro p _; rfl
  | cons b bs ih =>
    intro p h
    have h0 : code[p]? = some b := h 0 b rfl
    obtain ⟨hlt, hb⟩ := List.getElem?_eq_some_iff.mp h0
    have hrest : Sits code (p + 1) bs := by
      intro k v hk
      have := h (k + 1) v hk
      rwa [show p + (k + 1) = p + 1 + k by omega] at this
    rw [drop_eq_getElem_cons hlt, hb, ih hrest, length_cons, cons_append,
      show p + 1 + bs.length = p + (bs.length + 1) by omega]

end Sits

namespace BuilderCall

variable {Obj Sel : Type}

def straight : BuilderCall Obj Sel → Option (Opcode × List UInt8 × Instr)
  | .pushSelf => some (.pushSelf, [], .pushSelf)
  | .pushNil => some (.pushNil, [], .pushNil)
  | .pushTrue => some (.pushTrue, [], .pushTrue)
  | .pushFalse => some (.pushFalse, [], .pushFalse)
  | .pushSmiI8 v => some (.pushSmiI8, [v], .pushSmi v)
  | .pushTemp t => some (.pushTemp, [t], .pushTemp t)
  | .storeTemp t => some (.storeTemp, [t], .storeTemp t)
  | .storeTempPop t => some (.storeTempPop, [t], .storeTempPop t)
  | .pushInstvar i => some (.pushInstvar, [i], .pushInstvar i)
  | .storeInstvarPop i => some (.storeInstvarPop, [i], .storeInstvarPop i)
  | .pushCtxTemp depth idx => some (.pushCtxTemp, [depth, idx], .pushCtxTemp depth idx)
  | .storeCtxTempPop depth idx => some (.storeCtxTempPop, [depth, idx], .storeCtxTempPop depth idx)
  | .pop => some (.pop, [], .pop)
  | .dup => some (.dup, [], .dup)
  | .retTos => some (.returnTos, [], .returnTos)
  | .retSelf => some (.returnSelf, [], .returnSelf)
  | .blockReturnTos => some (.blockReturnTos, [], .blockReturnTos)
  | .nlrTos => some (.nlrTos, [], .nlrTos)
  | _ => none

def emits : BuilderCall Obj Sel → Bool
  | .internBlockLiteral _ _ | .addSend _ _ | .newLabel | .bind _ => false
  | _ => true

variable {c : BuilderCall Obj Sel} {operand : List UInt8} {op : Opcode} {i : Instr}

theorem decode_straight (h : c.straight = some (op, operand, i)) (rest : List UInt8) :
    decode (op.byte :: operand ++ rest) = some (i, (op.byte :: operand).length) := by
  cases c <;> cases h <;> simp [decode, decodeOp]

theorem call_straight (h : c.straight = some (op, operand, i)) (checked : Bool) (b : BytecodeBuilder Obj Sel) :
    b.call checked c = some (b.emit op operand) := by
  cases c <;> cases h <;> rfl

end BuilderCall

namespace BytecodeBuilder

variable {Obj Sel : Type}

def InSlot (b : BytecodeBuilder Obj Sel) (addr : Obj → Nat) (o : Obj) (idx : Nat) : Prop :=
  (b.literalIndex.lookup (addr o) = some idx ∧ b.literals[idx]? = some o) ∨
    (idx = b.literals.length ∧ ∀ i, b.literalIndex.lookup (addr o) = some i → b.literals[i]? ≠ some o)

def steps (checked : Bool) (b : BytecodeBuilder Obj Sel) :
    List (BuilderCall Obj Sel) → List (BytecodeBuilder Obj Sel × BuilderCall Obj Sel)
  | [] => []
  | c :: cs => (b, c) :: match b.call checked c with
    | none => []
    | some b' => b'.steps checked cs

end BytecodeBuilder

/-- An instruction of the code: the builder before the call it comes from, the call, its bytes. -/
structure BuilderItem (Obj Sel : Type) where
  before : BytecodeBuilder Obj Sel
  call : BuilderCall Obj Sel
  width : Nat

def BuilderItem.pos {Obj Sel : Type} (it : BuilderItem Obj Sel) : Nat := it.before.code.length

namespace BytecodeBuilder

variable {Obj Sel : Type}

def Chain : Nat → List (BuilderItem Obj Sel) → Nat → Prop
  | p, [], q => p = q
  | p, it :: its, q => it.pos = p ∧ 0 < it.width ∧ Chain (p + it.width) its q

theorem Chain.le : ∀ {its : List (BuilderItem Obj Sel)} {p q : Nat}, Chain p its q → p ≤ q := by
  intro its
  induction its with
  | nil => intro p q h; exact Nat.le_of_eq h
  | cons it its ih => intro p q h; have := ih h.2.2; omega

theorem Chain.bounds : ∀ {its : List (BuilderItem Obj Sel)} {p q : Nat}, Chain p its q → ∀ it ∈ its,
    p ≤ it.pos ∧ it.pos + it.width ≤ q := by
  intro its
  induction its with
  | nil => intro p q _ it hit; cases hit
  | cons x xs ih =>
    intro p q h it hit
    have hle := h.2.2.le
    have hpos := h.1
    cases mem_cons.mp hit with
    | inl heq => subst heq; exact ⟨by omega, by omega⟩
    | inr hit =>
      have := ih h.2.2 it hit
      exact ⟨by omega, this.2⟩

theorem Chain.disjoint : ∀ {its : List (BuilderItem Obj Sel)} {p q : Nat}, Chain p its q → ∀ it ∈ its, ∀ it' ∈ its,
    it = it' ∨ it.pos + it.width ≤ it'.pos ∨ it'.pos + it'.width ≤ it.pos := by
  intro its
  induction its with
  | nil => intro p q _ it hit; cases hit
  | cons x xs ih =>
    intro p q h it hit it' hit'
    have hpos := h.1
    cases mem_cons.mp hit with
    | inl heq =>
      cases mem_cons.mp hit' with
      | inl heq' => exact .inl (heq.trans heq'.symm)
      | inr hit' =>
        have := h.2.2.bounds it' hit'
        subst heq
        exact .inr (.inl (by omega))
    | inr hit =>
      cases mem_cons.mp hit' with
      | inl heq' =>
        have := h.2.2.bounds it hit
        subst heq'
        exact .inr (.inr (by omega))
      | inr hit' => exact ih h.2.2 it hit it' hit'

theorem Chain.snoc : ∀ {its : List (BuilderItem Obj Sel)} {p q : Nat} (it : BuilderItem Obj Sel), Chain p its q →
    it.pos = q → 0 < it.width → Chain p (its ++ [it]) (q + it.width) := by
  intro its
  induction its with
  | nil =>
    intro p q it h hpos hwidth
    cases h
    exact ⟨hpos, hwidth, rfl⟩
  | cons x xs ih => intro p q it h hpos hwidth; exact ⟨h.1, h.2.1, ih it h.2.2 hpos hwidth⟩

/-- How the instruction of a call reads once its label, if it has one, is bound. -/
inductive Reads (b before : BytecodeBuilder Obj Sel) : BuilderCall Obj Sel → Instr → Prop
  | straight {c op operand i} : c.straight = some (op, operand, i) → Reads b before c i
  | literal {addr : Obj ↪ Nat} {o idx} : before.InSlot addr o idx → (∀ j ≤ idx, b.literals[j]? = (before.literals ++ [o])[j]?) →
      Reads b before (.pushLiteral addr o) (.pushLiteral (idx % 65536))
  | global {addr : Obj ↪ Nat} {o idx} : before.InSlot addr o idx → (∀ j ≤ idx, b.literals[j]? = (before.literals ++ [o])[j]?) →
      Reads b before (.pushGlobal addr o) (.pushGlobal (UInt8.ofNat idx))
  | storeGlobal {addr : Obj ↪ Nat} {o idx} : before.InSlot addr o idx → (∀ j ≤ idx, b.literals[j]? = (before.literals ++ [o])[j]?) →
      Reads b before (.storeGlobalPop addr o) (.storeGlobalPop (UInt8.ofNat idx))
  | closure {lit n} : before.literals <+: b.literals →
      Reads b before (.pushClosure lit n) (.pushClosure (UInt8.ofNat lit) n)
  | send {selector argc idx} : b.icSites[idx]? = some (selector, argc) → Reads b before (.send selector argc) (.send idx false)
  | sendSuper {selector argc idx} : b.icSites[idx]? = some (selector, argc) →
      Reads b before (.sendSuper selector argc) (.send idx true)
  | fwdJump {kind l target} : b.labels[l]? = some (LabelState.bound target) → before.code.length + 3 ≤ target →
      Reads b before (.fwdJump kind l) (kind.instr (target - (before.code.length + 3)))
  | jumpBack {l target} : b.labels[l]? = some (LabelState.bound target) → target ≤ before.code.length + 3 →
      Reads b before (.jumpBack l) (.jumpBack (before.code.length + 3 - target))

def Settled (b : BytecodeBuilder Obj Sel) (it : BuilderItem Obj Sel) : Prop :=
  ∃ bytes instr, Sits b.code it.pos bytes ∧ bytes.length = it.width ∧ b.Reads it.before it.call instr ∧
    ∀ rest, decode (bytes ++ rest) = some (instr, it.width)

def Open (b : BytecodeBuilder Obj Sel) (it : BuilderItem Obj Sel) : Prop :=
  ∃ kind l sites, it.call = .fwdJump kind l ∧ it.width = 3 ∧ b.labels[l]? = some (LabelState.unbound sites) ∧
    it.pos + 1 ∈ sites ∧ Sits b.code it.pos [kind.opcode.byte]

/-- The code is the items end to end, and the sites of a label are its open jumps. -/
structure Laid (b : BytecodeBuilder Obj Sel) (its : List (BuilderItem Obj Sel)) : Prop where
  chain : Chain 0 its b.code.length
  item : ∀ it ∈ its, b.Settled it ∨ b.Open it
  sites : ∀ (l : Nat) sites, b.labels[l]? = some (LabelState.unbound sites) → ∀ s ∈ sites,
    ∃ it ∈ its, it.pos + 1 = s ∧ it.width = 3 ∧ ∃ kind, it.call = .fwdJump kind l

theorem laid_new : Laid (new : BytecodeBuilder Obj Sel) [] :=
  ⟨rfl, fun it hit => absurd hit not_mem_nil, fun l sites h => by simp [new] at h⟩

structure Extends (b b' : BytecodeBuilder Obj Sel) : Prop where
  literals : b.literals <+: b'.literals
  icSites : b.icSites <+: b'.icSites
  bound : ∀ l t : Nat, b.labels[l]? = some (LabelState.bound t) → b'.labels[l]? = some (LabelState.bound t)

variable (b : BytecodeBuilder Obj Sel)

theorem Extends.refl : b.Extends b := ⟨⟨[], by simp⟩, ⟨[], by simp⟩, fun _ _ h => h⟩

theorem Extends.trans {b b' b'' : BytecodeBuilder Obj Sel} (h : b.Extends b') (h' : b'.Extends b'') : b.Extends b'' :=
  ⟨h.literals.trans h'.literals, h.icSites.trans h'.icSites, fun l t hl => h'.bound l t (h.bound l t hl)⟩

theorem getElem?_of_initial {α : Type} {xs ys : List α} {i : Nat} {x : α} (h : xs <+: ys) (hi : xs[i]? = some x) :
    ys[i]? = some x := by
  obtain ⟨zs, rfl⟩ := h
  rw [List.getElem?_append_left (List.getElem?_eq_some_iff.mp hi).1]
  exact hi

variable {its : List (BuilderItem Obj Sel)} {c : BuilderCall Obj Sel} {b b' : BytecodeBuilder Obj Sel} {code : List UInt8}
  {addr : Obj → Nat} {o : Obj} {op : Opcode}

variable {b : BytecodeBuilder Obj Sel} {i : Instr} {operand : List UInt8} {site distance : Nat} {checked : Bool} {idx : Nat}

theorem InSlot.le (h : b.InSlot addr o idx) : idx ≤ b.literals.length := by
  rcases h with ⟨_, h⟩ | ⟨h, _⟩
  · exact (List.getElem?_eq_some_iff.mp h).1.le
  · exact h.le

theorem InSlot.agrees {b before later : BytecodeBuilder Obj Sel}
    (h : before.InSlot addr o idx) (hlit : b.literals <+: later.literals)
    (hj : ∀ j ≤ idx, b.literals[j]? = (before.literals ++ [o])[j]?) :
    ∀ j ≤ idx, later.literals[j]? = (before.literals ++ [o])[j]? := by
  intro j hle
  have hlt : j < (before.literals ++ [o]).length := by
    have := h.le
    rw [length_append, length_singleton]
    omega
  rw [getElem?_eq_getElem hlt]
  apply getElem?_of_initial hlit
  rw [hj j hle, getElem?_eq_getElem hlt]

theorem Extends.reads {b b' before : BytecodeBuilder Obj Sel} (h : b.Extends b')
    (hr : b.Reads before c i) : b'.Reads before c i := by
  cases hr with
  | straight hs => exact .straight hs
  | literal hi hl => exact .literal hi (hi.agrees h.literals hl)
  | global hi hl => exact .global hi (hi.agrees h.literals hl)
  | storeGlobal hi hl => exact .storeGlobal hi (hi.agrees h.literals hl)
  | closure hl => exact .closure (hl.trans h.literals)
  | send hs => exact .send (getElem?_of_initial h.icSites hs)
  | sendSuper hs => exact .sendSuper (getElem?_of_initial h.icSites hs)
  | fwdJump hb hle => exact .fwdJump (h.bound _ _ hb) hle
  | jumpBack hb hle => exact .jumpBack (h.bound _ _ hb) hle

theorem Laid.fits (h : b.Laid its) :
    ∀ it ∈ its, it.pos + it.width ≤ b.code.length := fun it hit => (h.chain.bounds it hit).2

theorem Laid.append (h : b.Laid its) (hext : b.Extends b') {bytes : List UInt8} (hcode : b'.code = b.code ++ bytes)
    (hpos : 0 < bytes.length) (hkeep : ∀ (l : Nat) sites, b.labels[l]? = some (LabelState.unbound sites) →
      ∃ more, b'.labels[l]? = some (LabelState.unbound (sites ++ more)))
    (hnew : b'.Settled ⟨b, c, bytes.length⟩ ∨ b'.Open ⟨b, c, bytes.length⟩)
    (hsites : ∀ (l : Nat) sites, b'.labels[l]? = some (LabelState.unbound sites) → ∀ s ∈ sites,
      (∃ old, b.labels[l]? = some (LabelState.unbound old) ∧ s ∈ old) ∨
        (b.code.length + 1 = s ∧ bytes.length = 3 ∧ ∃ kind, c = .fwdJump kind l)) :
    b'.Laid (its ++ [⟨b, c, bytes.length⟩]) := by
  refine ⟨?_, ?_, ?_⟩
  · rw [hcode, length_append]
    exact h.chain.snoc ⟨b, c, bytes.length⟩ rfl hpos
  · intro it hit
    rcases mem_append.mp hit with hit | hit
    · rcases h.item it hit with ⟨bs, i, hsits, hwidth, hreads, hdec⟩ | ⟨kind, l, sites, hcall, hw, hl, hmem, hsits⟩
      · left
        refine ⟨bs, i, ?_, hwidth, hext.reads hreads, hdec⟩
        rw [hcode]
        exact hsits.append bytes
      · right
        obtain ⟨more, hl'⟩ := hkeep l sites hl
        refine ⟨kind, l, sites ++ more, hcall, hw, hl', mem_append_left _ hmem, ?_⟩
        rw [hcode]
        exact hsits.append bytes
    · cases mem_singleton.mp hit
      exact hnew
  · intro l sites hl s hs
    rcases hsites l sites hl s hs with ⟨old, hold, hmem⟩ | ⟨heq, hw, hkind⟩
    · obtain ⟨it, hit, h1, h2, h3⟩ := h.sites l old hold s hmem
      exact ⟨it, mem_append_left _ hit, h1, h2, h3⟩
    · exact ⟨⟨b, c, bytes.length⟩, mem_append_right _ (mem_singleton.mpr rfl), heq, hw, hkind⟩

theorem Laid.emit {b b₁ : BytecodeBuilder Obj Sel} (h : b.Laid its)
    (hext : b.Extends b₁) (hcode : b₁.code = b.code) (hlabels : b₁.labels = b.labels) (hreads : b₁.Reads b c i)
    (hdec : ∀ rest, decode (op.byte :: operand ++ rest) = some (i, (op.byte :: operand).length)) :
    (b₁.emit op operand).Laid (its ++ [⟨b, c, (op.byte :: operand).length⟩]) := by
  have hout : b₁.Extends (b₁.emit op operand) := ⟨⟨[], by simp [BytecodeBuilder.emit]⟩, ⟨[], by simp [BytecodeBuilder.emit]⟩, fun _ _ h => h⟩
  have hbytes : (b₁.emit op operand).code = b.code ++ op.byte :: operand := by
    show b₁.code ++ op.byte :: operand = _
    rw [hcode]
  have hsame : (b₁.emit op operand).labels = b.labels := hlabels
  apply h.append (hext.trans hout) hbytes (by simp)
  · intro l sites hl
    exact ⟨[], by rw [hsame, hl, append_nil]⟩
  · left
    refine ⟨op.byte :: operand, i, ?_, rfl, hout.reads hreads, hdec⟩
    rw [hbytes]
    exact Sits.last b.code _
  · intro l sites hl s hs
    rw [hsame] at hl
    exact .inl ⟨sites, hl, hs⟩

theorem Laid.tables (h : b.Laid its) (hext : b.Extends b') (hcode : b'.code = b.code)
    (hlabels : ∀ (l : Nat) sites, b.labels[l]? = some (LabelState.unbound sites) → b'.labels[l]? = some (LabelState.unbound sites))
    (hsites : ∀ (l : Nat) sites, b'.labels[l]? = some (LabelState.unbound sites) →
      sites = [] ∨ b.labels[l]? = some (LabelState.unbound sites)) : b'.Laid its := by
  refine ⟨?_, ?_, ?_⟩
  · rw [hcode]
    exact h.chain
  · intro it hit
    rcases h.item it hit with ⟨bs, i, hsits, hwidth, hreads, hdec⟩ | ⟨kind, l, sites, hcall, hw, hl, hmem, hsits⟩
    · left
      refine ⟨bs, i, ?_, hwidth, hext.reads hreads, hdec⟩
      rw [hcode]
      exact hsits
    · right
      refine ⟨kind, l, sites, hcall, hw, hlabels l sites hl, hmem, ?_⟩
      rw [hcode]
      exact hsits
  · intro l sites hl s hs
    rcases hsites l sites hl with hnil | hold
    · subst hnil
      cases hs
    · exact h.sites l sites hold s hs

theorem patch_length (code : List UInt8) (site distance : Nat) : (patch code site distance).length = code.length := by
  simp [patch]

theorem patch_ne {site distance i : Nat} (h : i ≠ site) (h' : i ≠ site + 1) :
    (patch code site distance)[i]? = code[i]? := by
  unfold patch
  rw [getElem?_set_ne (Ne.symm h'), getElem?_set_ne (Ne.symm h)]

theorem patch_lo (h : site < code.length) : (patch code site distance)[site]? = some (UInt8.ofNat distance) := by
  unfold patch
  rw [getElem?_set_ne (by omega), getElem?_set_self h]

theorem patch_hi (h : site + 1 < code.length) :
    (patch code site distance)[site + 1]? = some (UInt8.ofNat (distance >>> 8)) := by
  unfold patch
  rw [getElem?_set_self (by rwa [length_set])]

theorem patchAll_length : ∀ {sites : List Nat} {bci : Nat} {code code' : List UInt8},
    patchAll bci sites code = some code' → code'.length = code.length := by
  intro sites
  induction sites with
  | nil => intro bci code code' h; cases h; rfl
  | cons s ss ih =>
    intro bci code code' h
    obtain ⟨-, h⟩ := ite_none_left_eq_some.mp h
    split at h
    next => cases h
    next =>
      have := ih h
      rwa [patch_length] at this

theorem patchAll_ne : ∀ {sites : List Nat} {bci : Nat} {code code' : List UInt8} {i : Nat},
    patchAll bci sites code = some code' → (∀ s ∈ sites, i ≠ s ∧ i ≠ s + 1) → code'[i]? = code[i]? := by
  intro sites
  induction sites with
  | nil => intro bci code code' i h _; cases h; rfl
  | cons s ss ih =>
    intro bci code code' i h hi
    obtain ⟨-, h⟩ := ite_none_left_eq_some.mp h
    split at h
    next => cases h
    next =>
      have hs := hi s mem_cons_self
      rw [ih h fun x hx => hi x (mem_cons_of_mem _ hx), patch_ne hs.1 hs.2]

theorem patchAll_spec : ∀ {sites : List Nat} {bci : Nat} {code code' : List UInt8},
    patchAll bci sites code = some code' → (∀ s ∈ sites, s + 1 < code.length) →
    (∀ s ∈ sites, ∀ s' ∈ sites, s = s' ∨ s + 1 < s' ∨ s' + 1 < s) → ∀ s ∈ sites,
    s + 2 ≤ bci ∧ bci - (s + 2) ≤ 65535 ∧ code'[s]? = some (UInt8.ofNat (bci - (s + 2))) ∧
      code'[s + 1]? = some (UInt8.ofNat ((bci - (s + 2)) >>> 8)) := by
  intro sites
  induction sites with
  | nil => intro bci code code' _ _ _ s hs; cases hs
  | cons x xs ih =>
    intro bci code code' h hlt hapart s hs
    obtain ⟨hback, h⟩ := ite_none_left_eq_some.mp h
    obtain ⟨hfar, h⟩ := ite_none_left_eq_some.mp h
    have hrest := ih h (fun s hs => by rw [patch_length]; exact hlt s (mem_cons_of_mem _ hs))
      fun s hs s' hs' => hapart s (mem_cons_of_mem _ hs) s' (mem_cons_of_mem _ hs')
    by_cases hin : s ∈ xs
    · exact hrest s hin
    · have hsx : s = x := (mem_cons.mp hs).resolve_right hin
      subst hsx
      have hlen := hlt s mem_cons_self
      have hfree : ∀ y ∈ xs, s + 1 < y ∨ y + 1 < s := fun y hy =>
        (hapart s mem_cons_self y (mem_cons_of_mem _ hy)).resolve_left fun he => hin (he ▸ hy)
      refine ⟨by omega, by omega, ?_, ?_⟩
      · rw [patchAll_ne h, patch_lo (by omega)]
        intro y hy
        have := hfree y hy
        omega
      · rw [patchAll_ne h, patch_hi hlen]
        intro y hy
        have := hfree y hy
        omega

theorem Laid.bind (h : b.Laid its) {l : Nat} (hb : b.bind l = some b') : b.Extends b' ∧ b'.Laid its := by
  unfold BytecodeBuilder.bind at hb
  split at hb
  next => cases hb
  next => cases hb
  next sites hl =>
    obtain ⟨code, hpatch, rfl⟩ := map_eq_some_iff.mp hb
    have hlt : l < b.labels.length := (List.getElem?_eq_some_iff.mp hl).1
    have hext : b.Extends { b with code := code, labels := b.labels.set l (.bound b.code.length) } := by
      refine ⟨⟨[], by simp⟩, ⟨[], by simp⟩, fun l' t ht => ?_⟩
      have hne : l ≠ l' := by
        rintro rfl
        rw [hl] at ht
        cases ht
      show (b.labels.set l _)[l']? = _
      rw [List.getElem?_set_ne hne, ht]
    have hfar : ∀ s ∈ sites, ∀ s' ∈ sites, s = s' ∨ s + 1 < s' ∨ s' + 1 < s := by
      intro s hs s' hs'
      obtain ⟨it, hit, hpos, hw, _⟩ := h.sites l sites hl s hs
      obtain ⟨it', hit', hpos', hw', _⟩ := h.sites l sites hl s' hs'
      rcases h.chain.disjoint it hit it' hit' with heq | hd | hd
      · left
        rw [← hpos, ← hpos', heq]
      · omega
      · omega
    have hin : ∀ s ∈ sites, s + 1 < b.code.length := by
      intro s hs
      obtain ⟨it, hit, hpos, hw, _⟩ := h.sites l sites hl s hs
      have := h.fits it hit
      omega
    have hspec := patchAll_spec hpatch hin hfar
    -- only the operands of the jumps to `l` change
    have hframe : ∀ it ∈ its, (∀ kind, it.call ≠ .fwdJump kind l) → ∀ i, it.pos ≤ i → i < it.pos + it.width →
        code[i]? = b.code[i]? := by
      intro it hit hother i hge hi
      apply patchAll_ne hpatch
      intro s hs
      obtain ⟨it', hit', hpos, hw, kind, hkind⟩ := h.sites l sites hl s hs
      rcases h.chain.disjoint it hit it' hit' with heq | hd | hd
      · exact absurd (heq ▸ hkind) (hother kind)
      · omega
      · omega
    refine ⟨hext, ?_, ?_, ?_⟩
    · rw [show code.length = b.code.length from patchAll_length hpatch]
      exact h.chain
    · intro it hit
      rcases h.item it hit with ⟨bs, i, hsits, hwidth, hreads, hdec⟩ | ⟨kind, l', sites', hcall, hw, hl', hmem, hsits⟩
      · left
        refine ⟨bs, i, ?_, hwidth, hext.reads hreads, hdec⟩
        apply hsits.frame
        rw [hwidth]
        apply hframe it hit
        intro kind hcall
        rw [hcall] at hreads
        cases hreads with
        | straight hs => cases hs
        | fwdJump ht _ =>
          rw [hl] at ht
          cases ht
      · by_cases heq : l' = l
        · left
          subst heq
          cases (hl.symm.trans hl')
          obtain ⟨hback, hle, hlo, hhi⟩ := hspec _ hmem
          have hfirst : b.code[it.pos]? = some kind.opcode.byte := hsits 0 _ rfl
          have hop : code[it.pos]? = some kind.opcode.byte := by
            rw [patchAll_ne hpatch, hfirst]
            intro s hs
            obtain ⟨it', hit', hpos, hw', _⟩ := h.sites l' sites hl s hs
            rcases h.chain.disjoint it hit it' hit' with he | hd | hd
            · subst he
              omega
            · omega
            · omega
          have hdist : b.code.length - (it.pos + 1 + 2) = b.code.length - (it.pos + 3) := by omega
          rw [hdist] at hlo hhi hle
          refine ⟨kind.opcode.byte :: u16 (b.code.length - (it.pos + 3)), kind.instr (b.code.length - (it.pos + 3)), ?_, ?_,
            ?_, ?_⟩
          · intro k v hk
            match k with
            | 0 => cases hk; exact hop
            | 1 => cases hk; exact hlo
            | 2 => cases hk; exact hhi
          · rw [hw]; rfl
          · rw [hcall]
            apply Reads.fwdJump
            · exact List.getElem?_set_self hlt
            · show it.pos + 3 ≤ _
              omega
          · intro rest
            have hval := readU16_u16 (show b.code.length - (it.pos + 3) < 2 ^ 16 by omega)
            rw [hw]
            cases kind <;> simp [decode, decodeOp, u16, FwdJump.opcode, FwdJump.instr, hval]
        · right
          refine ⟨kind, l', sites', hcall, hw, ?_, hmem, ?_⟩
          · show (b.labels.set l _)[l']? = _
            rw [List.getElem?_set_ne (Ne.symm heq), hl']
          · apply hsits.frame
            intro i hge hi
            rw [length_singleton] at hi
            apply hframe it hit _ i hge (by omega)
            intro kind' hcall'
            rw [hcall] at hcall'
            cases hcall'
            exact heq rfl
    · intro l' sites' hl' s hs
      have hne : l ≠ l' := by
        rintro rfl
        rw [show (b.labels.set l (LabelState.bound b.code.length))[l]? = _ from List.getElem?_set_self hlt] at hl'
        cases hl'
      rw [show (b.labels.set l (LabelState.bound b.code.length))[l']? = _ from List.getElem?_set_ne hne] at hl'
      exact h.sites l' sites' hl' s hs

theorem internLiteral_spec (addr : Obj ↪ Nat) (o : Obj) :
    b.Extends (b.internLiteral addr o).2 ∧ (b.internLiteral addr o).2.code = b.code ∧
      (b.internLiteral addr o).2.labels = b.labels ∧ b.InSlot addr o (b.internLiteral addr o).1 ∧
      ∀ j ≤ (b.internLiteral addr o).1, (b.internLiteral addr o).2.literals[j]? = (b.literals ++ [o])[j]? := by
  have hgrow : ∀ m, b.Extends { b with literals := b.literals ++ [o], literalIndex := m } := fun m =>
    ⟨⟨[o], rfl⟩, ⟨[], by simp⟩, fun _ _ h => h⟩
  unfold internLiteral
  split
  next hnone =>
    refine ⟨hgrow _, rfl, rfl, .inr ⟨rfl, fun i hi => ?_⟩, fun _ _ => rfl⟩
    rw [hnone] at hi
    cases hi
  next idx hsome =>
    split
    next hhit =>
      obtain ⟨o', hget, haddr⟩ := map_eq_some_iff.mp hhit
      rw [addr.injective haddr] at hget
      refine ⟨Extends.refl b, rfl, rfl, .inl ⟨hsome, hget⟩, fun j hj => ?_⟩
      have hlt := (List.getElem?_eq_some_iff.mp hget).1
      exact (List.getElem?_append_left (show j < b.literals.length by show j < _; exact Nat.lt_of_le_of_lt hj hlt)).symm
    next hmiss =>
      refine ⟨hgrow _, rfl, rfl, .inr ⟨rfl, fun i hi hget => ?_⟩, fun _ _ => rfl⟩
      rw [hsome] at hi
      cases hi
      rw [hget] at hmiss
      exact hmiss rfl

theorem InSlot.unique {i j : Nat} (hi : b.InSlot addr o i) (hj : b.InSlot addr o j) : i = j := by
  rcases hi with ⟨hl, hg⟩ | ⟨hlen, hfree⟩
  · rcases hj with ⟨hl', _⟩ | ⟨_, hfree'⟩
    · exact Option.some.inj (hl.symm.trans hl')
    · exact absurd hg (hfree' i hl)
  · rcases hj with ⟨hl', hg'⟩ | ⟨hlen', _⟩
    · exact absurd hg' (hfree j hl')
    · exact hlen.trans hlen'.symm

theorem decode_literalRef (idx : Nat) (rest : List UInt8) :
    (idx ≤ 255 → decode (Opcode.pushLiteral.byte :: [UInt8.ofNat idx] ++ rest) = some (.pushLiteral (idx % 65536), 2)) ∧
      decode (Opcode.pushLiteralW.byte :: u16 idx ++ rest) = some (.pushLiteral (idx % 65536), 3) := by
  constructor
  · intro h
    have hval : (UInt8.ofNat idx).toNat = idx % 65536 := by
      rw [UInt8.toNat_ofNat']
      omega
    rw [← hval]
    rfl
  · have hval : readU16 (UInt8.ofNat idx) (UInt8.ofNat (idx >>> 8)) = idx % 65536 := readU16_u16_mod idx
    rw [← hval]
    rfl

def itemOf (b b' : BytecodeBuilder Obj Sel) (c : BuilderCall Obj Sel) : List (BuilderItem Obj Sel) :=
  if c.emits then [⟨b, c, b'.code.length - b.code.length⟩] else []

theorem itemOf_emit {b b₁ : BytecodeBuilder Obj Sel} (h : c.emits = true) (op : Opcode)
    (operand : List UInt8) (hcode : b₁.code = b.code) :
    itemOf b (b₁.emit op operand) c = [⟨b, c, (op.byte :: operand).length⟩] := by
  unfold itemOf
  rw [if_pos h]
  simp [BytecodeBuilder.emit, hcode]

theorem Laid.literal {b : BytecodeBuilder Obj Sel} {its : List (BuilderItem Obj Sel)} (h : b.Laid its) (addr : Obj ↪ Nat)
    (o : Obj) : b.Extends (b.pushLiteral addr o) ∧
      (b.pushLiteral addr o).Laid (its ++ itemOf b (b.pushLiteral addr o) (.pushLiteral addr o)) := by
  obtain ⟨hext, hcode, hlab, hslot, hagree⟩ := b.internLiteral_spec addr o
  have hreads := Reads.literal (b := (b.internLiteral addr o).2) hslot hagree
  unfold pushLiteral emitLiteralRef
  split
  next hle =>
    rw [itemOf_emit rfl _ _ hcode]
    exact ⟨⟨hext.literals, hext.icSites, hext.bound⟩,
      h.emit hext hcode hlab hreads fun rest => (decode_literalRef _ rest).1 hle⟩
  next =>
    rw [itemOf_emit rfl _ _ hcode]
    exact ⟨⟨hext.literals, hext.icSites, hext.bound⟩,
      h.emit hext hcode hlab hreads fun rest => (decode_literalRef _ rest).2⟩

theorem Laid.sent (h : b.Laid its) {narrow wide : Opcode} {selector : Sel} {argc : UInt8} {isSuper : Bool}
    (hc : c.emits = true) (hs : b.emitSend narrow wide selector argc = some b')
    (hreads : ∀ b₁ : BytecodeBuilder Obj Sel, ∀ idx, b₁.icSites[idx]? = some (selector, argc) →
      b₁.Reads b c (.send idx isSuper))
    (hnarrow : ∀ a rest, decodeOp narrow (a :: rest) = some (.send a.toNat isSuper, 2))
    (hwide : ∀ lo hi rest, decodeOp wide (lo :: hi :: rest) = some (.send (readU16 lo hi) isSuper, 3)) :
    b.Extends b' ∧ b'.Laid (its ++ itemOf b b' c) := by
  unfold emitSend addSend at hs
  split at hs
  next hroom =>
    cases hs
    have hext : b.Extends { b with icSites := b.icSites ++ [(selector, argc)] } :=
      ⟨⟨[], by simp⟩, ⟨_, rfl⟩, fun _ _ h => h⟩
    have hread := hreads { b with icSites := b.icSites ++ [(selector, argc)] } b.icSites.length (by simp)
    have hitem : ∀ op operand, itemOf b ({ b with icSites := b.icSites ++ [(selector, argc)] }.emit op operand) c =
        [⟨b, c, (op.byte :: operand).length⟩] := fun op operand => itemOf_emit hc op operand rfl
    dsimp only
    split
    next hle =>
      have hval : (UInt8.ofNat b.icSites.length).toNat = b.icSites.length := by
        rw [UInt8.toNat_ofNat']
        omega
      rw [hitem]
      refine ⟨⟨hext.literals, hext.icSites, hext.bound⟩, h.emit hext rfl rfl hread fun rest => ?_⟩
      simp only [decode, cons_append, Opcode.ofByte_byte, bind_some]
      rw [hnarrow, hval]
      rfl
    next =>
      have hval := readU16_u16 (show b.icSites.length < 2 ^ 16 by omega)
      rw [hitem]
      refine ⟨⟨hext.literals, hext.icSites, hext.bound⟩, h.emit hext rfl rfl hread fun rest => ?_⟩
      simp only [decode, cons_append, Opcode.ofByte_byte, bind_some, u16]
      rw [hwide, hval]
      rfl
  next => cases hs

theorem Laid.fwdJump {b b' : BytecodeBuilder Obj Sel} {its : List (BuilderItem Obj Sel)} (h : b.Laid its)
    {kind : FwdJump} {l : Nat} (hj : b.emitFwdJump kind l = some b') :
    b.Extends b' ∧ b'.Laid (its ++ itemOf b b' (.fwdJump kind l)) := by
  unfold emitFwdJump at hj
  split at hj
  next => cases hj
  next sites hl =>
    cases hj
    have hlt : l < b.labels.length := (List.getElem?_eq_some_iff.mp hl).1
    have hset : ∀ l' : Nat, (b.labels.set l (LabelState.unbound (sites ++ [b.code.length + 1])))[l']? =
        if l = l' then some (LabelState.unbound (sites ++ [b.code.length + 1])) else b.labels[l']? := by
      intro l'
      split
      next heq => subst heq; exact List.getElem?_set_self hlt
      next hne => exact List.getElem?_set_ne hne
    have hext : b.Extends { b.emit kind.opcode (u16 0xFFFF) with
        labels := b.labels.set l (.unbound (sites ++ [b.code.length + 1])) } := by
      refine ⟨⟨[], by simp [BytecodeBuilder.emit]⟩, ⟨[], by simp [BytecodeBuilder.emit]⟩, fun l' t ht => ?_⟩
      show (b.labels.set l _)[l']? = _
      rw [hset, if_neg, ht]
      rintro rfl
      rw [hl] at ht
      cases ht
    have hitem : itemOf b { b.emit kind.opcode (u16 0xFFFF) with
        labels := b.labels.set l (.unbound (sites ++ [b.code.length + 1])) } (.fwdJump kind l) =
        [⟨b, .fwdJump kind l, (kind.opcode.byte :: u16 0xFFFF).length⟩] := itemOf_emit rfl _ _ rfl
    rw [hitem]
    refine ⟨hext, h.append hext rfl (by simp) ?_ ?_ ?_⟩
    · intro l' old hold
      by_cases heq : l = l'
      · subst heq
        cases (hl.symm.trans hold)
        exact ⟨[b.code.length + 1], (hset l).trans (if_pos rfl)⟩
      · exact ⟨[], by rw [append_nil]; exact (hset l').trans ((if_neg heq).trans hold)⟩
    · right
      refine ⟨kind, l, sites ++ [b.code.length + 1], rfl, rfl, (hset l).trans (if_pos rfl), by simp [BuilderItem.pos], ?_⟩
      intro k v hk
      match k with
      | 0 => cases hk; exact Sits.last b.code _ 0 _ rfl
    · intro l' sites' hl' s hs
      have hl'' := (hset l').symm.trans hl'
      split at hl''
      next heq =>
        subst heq
        cases hl''
        rcases mem_append.mp hs with hs | hs
        · exact .inl ⟨sites, hl, hs⟩
        · exact .inr ⟨(mem_singleton.mp hs).symm, rfl, kind, rfl⟩
      next => exact .inl ⟨sites', hl'', hs⟩
  next target hl =>
    obtain ⟨hback, hj⟩ := ite_none_left_eq_some.mp hj
    obtain ⟨hfar, hj⟩ := ite_none_left_eq_some.mp hj
    cases hj
    have hval := readU16_u16 (show target - (b.code.length + 1 + 2) < 2 ^ 16 by omega)
    have hdist : target - (b.code.length + 1 + 2) = target - (b.code.length + 3) := by omega
    rw [itemOf_emit rfl _ _ rfl]
    refine ⟨⟨⟨[], by simp [BytecodeBuilder.emit]⟩, ⟨[], by simp [BytecodeBuilder.emit]⟩, fun _ _ h => h⟩,
      h.emit (Extends.refl b) rfl rfl (Reads.fwdJump hl (by omega)) fun rest => ?_⟩
    rw [← hdist]
    cases kind <;> simp [decode, decodeOp, u16, FwdJump.opcode, FwdJump.instr, hval]

theorem Laid.jumpBack {b b' : BytecodeBuilder Obj Sel} {its : List (BuilderItem Obj Sel)} (h : b.Laid its) {l : Nat}
    (hj : b.jumpBack l = some b') : b.Extends b' ∧ b'.Laid (its ++ itemOf b b' (.jumpBack l)) := by
  unfold BytecodeBuilder.jumpBack at hj
  split at hj
  next => cases hj
  next => cases hj
  next target hl =>
    obtain ⟨hahead, hj⟩ := ite_none_left_eq_some.mp hj
    obtain ⟨hfar, hj⟩ := ite_none_left_eq_some.mp hj
    cases hj
    have hval := readU16_u16 (show b.code.length + 3 - target < 2 ^ 16 by omega)
    rw [itemOf_emit rfl _ _ rfl]
    refine ⟨⟨⟨[], by simp [BytecodeBuilder.emit]⟩, ⟨[], by simp [BytecodeBuilder.emit]⟩, fun _ _ h => h⟩,
      h.emit (Extends.refl b) rfl rfl (Reads.jumpBack hl (by omega)) fun rest => ?_⟩
    simp [decode, decodeOp, u16, hval]

theorem Laid.global (h : b.Laid its) {addr : Obj ↪ Nat} (hc : c.emits = true) {instr : UInt8 → Instr}
    (hreads : ∀ b₁ : BytecodeBuilder Obj Sel, ∀ idx, b.InSlot addr o idx →
      (∀ j ≤ idx, b₁.literals[j]? = (b.literals ++ [o])[j]?) → b₁.Reads b c (instr (UInt8.ofNat idx)))
    (hdec : ∀ a rest, decodeOp op (a :: rest) = some (instr a, 2)) :
    b.Extends ((b.internLiteral addr o).2.emit op [UInt8.ofNat (b.internLiteral addr o).1]) ∧
      ((b.internLiteral addr o).2.emit op [UInt8.ofNat (b.internLiteral addr o).1]).Laid
        (its ++ itemOf b ((b.internLiteral addr o).2.emit op [UInt8.ofNat (b.internLiteral addr o).1]) c) := by
  obtain ⟨hext, hcode, hlab, hslot, hagree⟩ := b.internLiteral_spec addr o
  rw [itemOf_emit hc _ _ hcode]
  refine ⟨⟨hext.literals, hext.icSites, hext.bound⟩, h.emit hext hcode hlab (hreads _ _ hslot hagree) fun rest => ?_⟩
  simp only [decode, cons_append, Opcode.ofByte_byte, bind_some]
  rw [hdec]
  rfl

theorem Laid.interned (h : b.Laid its) (addr : Obj ↪ Nat)
    (o : Obj) : b.Extends (b.internLiteral addr o).2 ∧ (b.internLiteral addr o).2.Laid its := by
  obtain ⟨hext, hcode, hlab, -, -⟩ := b.internLiteral_spec addr o
  refine ⟨hext, h.tables hext hcode (fun l sites hl => ?_) fun l sites hl => ?_⟩
  · rw [hlab]
    exact hl
  · rw [hlab] at hl
    exact .inr hl

theorem Laid.straight (h : b.Laid its) (hemits : c.emits = true)
    (hc : c.straight = some (op, operand, i)) (hb : b.call checked c = some b') :
    b.Extends b' ∧ b'.Laid (its ++ itemOf b b' c) := by
  rw [BuilderCall.call_straight hc] at hb
  cases hb
  rw [itemOf_emit hemits _ _ rfl]
  exact ⟨⟨⟨[], by simp [BytecodeBuilder.emit]⟩, ⟨[], by simp [BytecodeBuilder.emit]⟩, fun _ _ h => h⟩,
    h.emit (Extends.refl b) rfl rfl (.straight hc) (BuilderCall.decode_straight hc)⟩

theorem Laid.call (h : b.Laid its) (hb : b.call checked c = some b') :
    b.Extends b' ∧ b'.Laid (its ++ itemOf b b' c) := by
  cases c with
  | pushSelf => exact h.straight rfl rfl hb
  | pushNil => exact h.straight rfl rfl hb
  | pushTrue => exact h.straight rfl rfl hb
  | pushFalse => exact h.straight rfl rfl hb
  | pushSmiI8 v => exact h.straight rfl rfl hb
  | pushTemp t => exact h.straight rfl rfl hb
  | storeTemp t => exact h.straight rfl rfl hb
  | storeTempPop t => exact h.straight rfl rfl hb
  | pushInstvar i => exact h.straight rfl rfl hb
  | storeInstvarPop i => exact h.straight rfl rfl hb
  | pushCtxTemp depth idx => exact h.straight rfl rfl hb
  | storeCtxTempPop depth idx => exact h.straight rfl rfl hb
  | pop => exact h.straight rfl rfl hb
  | dup => exact h.straight rfl rfl hb
  | retTos => exact h.straight rfl rfl hb
  | retSelf => exact h.straight rfl rfl hb
  | blockReturnTos => exact h.straight rfl rfl hb
  | nlrTos => exact h.straight rfl rfl hb
  | pushLiteral addr o =>
    cases hb
    exact h.literal addr o
  | pushGlobal addr assoc =>
    cases hb
    exact h.global rfl (fun b₁ idx => Reads.global) fun a rest => rfl
  | storeGlobalPop addr assoc =>
    cases hb
    exact h.global rfl (fun b₁ idx => Reads.storeGlobal) fun a rest => rfl
  | internBlockLiteral addr blk =>
    cases hb
    have := h.interned addr blk
    rwa [show itemOf b (b.internLiteral addr blk).2 (.internBlockLiteral addr blk) = [] from rfl, append_nil]
  | pushClosure lit n =>
    simp only [BytecodeBuilder.call, pushClosure] at hb
    split at hb
    next => cases hb
    next =>
      cases hb
      rw [itemOf_emit rfl _ _ rfl]
      exact ⟨⟨⟨[], by simp [BytecodeBuilder.emit]⟩, ⟨[], by simp [BytecodeBuilder.emit]⟩, fun _ _ h => h⟩,
        h.emit (Extends.refl b) rfl rfl (.closure ⟨[], append_nil _⟩) fun rest => rfl⟩
  | addSend selector argc =>
    simp only [BytecodeBuilder.call, addSend] at hb
    split at hb
    next =>
      cases hb
      have hext : b.Extends { b with icSites := b.icSites ++ [(selector, argc)] } :=
        ⟨⟨[], by simp⟩, ⟨_, rfl⟩, fun _ _ h => h⟩
      refine ⟨hext, ?_⟩
      rw [show itemOf b _ (.addSend selector argc) = [] from rfl, append_nil]
      exact h.tables hext rfl (fun l sites hl => hl) fun l sites hl => .inr hl
    next => cases hb
  | send selector argc =>
    exact h.sent rfl hb (fun b₁ idx => Reads.send) (fun a rest => rfl) fun lo hi rest => rfl
  | sendSuper selector argc =>
    exact h.sent rfl hb (fun b₁ idx => Reads.sendSuper) (fun a rest => rfl) fun lo hi rest => rfl
  | newLabel =>
    cases hb
    have hold : ∀ (l : Nat) st, b.labels[l]? = some st → (b.labels ++ [LabelState.unbound []])[l]? = some st :=
      fun l st hl => by rw [List.getElem?_append_left (List.getElem?_eq_some_iff.mp hl).1, hl]
    have hext : b.Extends b.newLabel := ⟨⟨[], by simp [newLabel]⟩, ⟨[], by simp [newLabel]⟩, fun l t hl => hold l _ hl⟩
    refine ⟨hext, ?_⟩
    rw [show itemOf b b.newLabel .newLabel = [] from rfl, append_nil]
    refine h.tables hext rfl (fun l sites hl => hold l _ hl) fun l sites hl => ?_
    rcases Nat.lt_trichotomy l b.labels.length with hlt | heq | hgt
    · right
      rwa [← List.getElem?_append_left hlt]
    · left
      subst heq
      simpa [newLabel, eq_comm] using hl
    · simp [newLabel, List.getElem?_append_right hgt.le, Nat.sub_ne_zero_of_lt hgt] at hl
  | bind l =>
    have := h.bind hb
    rwa [show itemOf b b' (.bind l) = [] from rfl, append_nil]
  | fwdJump kind l => exact h.fwdJump hb
  | jumpBack l => exact h.jumpBack hb

end BytecodeBuilder

end WinArmVm
