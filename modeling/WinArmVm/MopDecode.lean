import WinArmVm.Mop

namespace WinArmVm.Mop

namespace Body

def named : Body → List Oop
  | .slots named => named
  | .oops named _ => named
  | .bytes named _ => named
  | _ => []

def elements : Body → List Oop
  | .oops _ elements => elements
  | _ => []

def Fits (k : Klass) : Body → Prop
  | .slots named => k.format = .slots ∧ named.length = k.nslots
  | .oops named elements => k.format = .indexableOops ∧ named.length = k.nslots ∧ elements.length < 2 ^ 64
  | .bytes named tail => k.format = .indexableBytes ∧ named.length = k.nslots ∧ tail.length < 2 ^ 64
  | .double _ => k.format = .double
  | .internal => k.format ∉ [Format.slots, .indexableOops, .indexableBytes, .double]

end Body

namespace Universe

def byteKlasses (u : Universe) : List Nat :=
  [u.symbolKlass, u.stringKlass, u.bytearrayKlass, u.floatArrayKlass, u.largePosIntKlass, u.largeNegIntKlass]

def tagged (u : Universe) : List Nat := u.byteKlasses ++ [u.arrayKlass]

def special (u : Universe) : List Nat :=
  u.smiKlass :: u.doubleKlass :: u.characterKlass :: (u.tagged ++ [u.alienKlass, u.objcrefKlass])

end Universe

namespace Vm

structure WellFormed (v : Vm) : Prop where
  double : (v.klasses v.univ.doubleKlass).format = .double
  character : (v.klasses v.univ.characterKlass).format = .slots ∧ (v.klasses v.univ.characterKlass).nslots = 1
  bytes : ∀ k ∈ v.univ.byteKlasses, (v.klasses k).format = .indexableBytes ∧ (v.klasses k).nslots = 0
  array : (v.klasses v.univ.arrayKlass).format = .indexableOops ∧ (v.klasses v.univ.arrayKlass).nslots = 0
  distinct : v.univ.special.Nodup
  fits : ∀ {a : Nat} {m}, v.heap[a]? = some m → m.body.Fits (v.klasses m.klass)
  slotCount : ∀ k, (v.klasses k).nslots < 2 ^ 64
  nameSize : ∀ {k name}, (v.klasses k).name = some name → name.length < 2 ^ 64
  interned : ∀ {bs} {a : Nat}, v.symbols.lookup bs = some a ↔ v.heap[a]? = some ⟨v.univ.symbolKlass, .bytes [] bs⟩

def children (v : Vm) (a : Nat) : List Oop :=
  match v.heap[a]? with
  | some m => m.body.named ++ m.body.elements
  | none => []

end Vm

end WinArmVm.Mop

namespace WinArmVm.Mop

/-- A later state of the receiver: old objects that were not touched stay, symbols stay interned. -/
structure Grows (touched : Nat → Prop) (w w' : Vm) : Prop where
  univ : w'.univ = w.univ
  klasses : w'.klasses = w.klasses
  globals : w'.globals = w.globals
  heap : ∀ a, a < w.heap.length → ¬ touched a → w'.heap[a]? = w.heap[a]?
  length : w.heap.length ≤ w'.heap.length
  symbols : ∀ bs a, w.symbols.lookup bs = some a → w'.symbols.lookup bs = some a
  fresh : ∀ bs a, w'.symbols.lookup bs = some a → w.symbols.lookup bs = some a ∨ w.heap.length ≤ a

def Unsettled (w : Vm) (a : Nat) : Prop := a < w.heap.length ∧ ∀ bs, w.symbols.lookup bs ≠ some a

/-- What was allocated from `n` on stays as it is, and so do the symbols. -/
def Later (n : Nat) (w w' : Vm) : Prop := Grows (fun a => a < n ∧ ∀ bs, w.symbols.lookup bs ≠ some a) w w'

namespace Grows

variable {touched touched' : Nat → Prop} {w w₁ w₂ : Vm}

theorem refl (touched : Nat → Prop) (w : Vm) : Grows touched w w :=
  ⟨rfl, rfl, rfl, fun _ _ _ => rfl, Nat.le_refl _, fun _ _ h => h, fun _ _ h => .inl h⟩

theorem mono (h : Grows touched w w₁) (hle : ∀ a, a < w.heap.length → touched a → touched' a) : Grows touched' w w₁ :=
  ⟨h.univ, h.klasses, h.globals, fun a ha ht => h.heap a ha fun hx => ht (hle a ha hx), h.length, h.symbols, h.fresh⟩

theorem trans (h : Grows touched w w₁) (h' : Grows touched w₁ w₂) : Grows touched w w₂ where
  univ := h'.univ.trans h.univ
  klasses := h'.klasses.trans h.klasses
  globals := h'.globals.trans h.globals
  heap a ha ht := (h'.heap a (Nat.lt_of_lt_of_le ha h.length) ht).trans (h.heap a ha ht)
  length := Nat.le_trans h.length h'.length
  symbols bs a hs := h'.symbols bs a (h.symbols bs a hs)
  fresh bs a hs := by
    rcases h'.fresh bs a hs with hs | hle
    · exact h.fresh bs a hs
    · exact .inr (Nat.le_trans h.length hle)

theorem unsettled (h : Grows touched w w₁) {a : Nat} (ha : Unsettled w a) : Unsettled w₁ a := by
  refine ⟨Nat.lt_of_lt_of_le ha.1 h.length, fun bs hs => ?_⟩
  rcases h.fresh bs a hs with hs | hle
  · exact ha.2 bs hs
  · exact Nat.not_le.mpr ha.1 hle

end Grows

theorem Later.mono {n n' : Nat} {w w' : Vm} (h : Later n w w') (hle : n ≤ n') : Later n' w w' :=
  Grows.mono h fun _ _ ha => ⟨Nat.lt_of_lt_of_le ha.1 hle, ha.2⟩

theorem Later.back {touched : Nat → Prop} {w w₁ w₂ F : Vm} (h : Grows touched w₁ w₂)
    (ht : ∀ a, touched a → a < w.heap.length ∧ Unsettled w₁ a)
    (hF : Later w.heap.length w₂ F) : Later w.heap.length w₁ F where
  univ := hF.univ.trans h.univ
  klasses := hF.klasses.trans h.klasses
  globals := hF.globals.trans h.globals
  heap a ha hnot := by
    have hq : ¬ touched a := fun hx => hnot ⟨(ht a hx).1, (ht a hx).2.2⟩
    rw [← h.heap a ha hq]
    apply hF.heap a (Nat.lt_of_lt_of_le ha h.length)
    rintro ⟨hlt, hsym⟩
    exact hnot ⟨hlt, fun bs hs => hsym bs (h.symbols bs a hs)⟩
  length := Nat.le_trans h.length hF.length
  symbols bs a hs := hF.symbols bs a (h.symbols bs a hs)
  fresh bs a hs := by
    rcases hF.fresh bs a hs with hs | hle
    · exact h.fresh bs a hs
    · exact .inr (Nat.le_trans h.length hle)

namespace UnpickleState

def withHeap (s : UnpickleState) (heap : List Object) : UnpickleState := { s with vm := { s.vm with heap := heap } }

def opened (s : UnpickleState) (n : Object) : UnpickleState :=
  { s.withHeap (s.vm.heap ++ [n]) with table := s.table ++ [s.vm.heap.length] }

end UnpickleState

theorem Grows.alloc (touched : Nat → Prop) (w : Vm) (n : Object) :
    Grows touched w { w with heap := w.heap ++ [n] } := by
  refine ⟨rfl, rfl, rfl, fun a ha _ => List.getElem?_append_left ha, ?_, fun _ _ h => h, fun _ _ h => .inl h⟩
  simp

theorem Grows.update (w : Vm) (p : Nat) (f : Object → Object) :
    Grows (· = p) w { w with heap := w.heap.modify p f } := by
  refine ⟨rfl, rfl, rfl, fun a _ hne => ?_, by simp, fun _ _ h => h, fun _ _ h => .inl h⟩
  rw [List.getElem?_modify]
  cases w.heap[a]? <;> simp [Ne.symm hne]

end WinArmVm.Mop

namespace WinArmVm.Mop

variable {s : UnpickleState}

theorem bind_ok {α β : Type} {x : Unpickle α} {f : α → Unpickle β} {r : β × UnpickleState} :
    (x >>= f) s = .ok r ↔ ∃ a t, x s = .ok (a, t) ∧ f a t = .ok r := by
  show Except.bind (x s) (fun p => f p.1 p.2) = .ok r ↔ _
  cases h : x s with
  | error e =>
    constructor
    · intro hx
      cases hx
    · rintro ⟨a, t, hx, -⟩
      cases hx
  | ok p =>
    constructor
    · intro hx
      exact ⟨p.1, p.2, rfl, hx⟩
    · rintro ⟨a, t, hx, hf⟩
      cases hx
      exact hf

variable {put : Nat → Oop → Object → Object} {β : Type} {f : UnpickleState → Unpickle β} {α : Type}

theorem get_bind : (get >>= f) s = f s s := rfl

theorem read_get_bind : ((Builds.read get : Unpickle UnpickleState) >>= f) s = f s s := rfl

theorem pure_ok {a b : α} {s t : UnpickleState} (h : (pure a : Unpickle α) s = .ok (b, t)) : b = a ∧ t = s := by
  cases h
  exact ⟨rfl, rfl⟩

def Consumes {α : Type} (x : Unpickle α) : Prop := ∀ s a s', x s = .ok (a, s') → s'.vm = s.vm ∧ s'.table = s.table ∧
    ∀ v t, x ⟨v, s.cur, t⟩ = .ok (a, ⟨v, s'.cur, t⟩)

namespace Consumes

variable {α β : Type}

theorem pure (a : α) : Consumes (pure a : Unpickle α) := by
  intro s b s' h
  obtain ⟨rfl, rfl⟩ := pure_ok h
  exact ⟨rfl, rfl, fun _ _ => rfl⟩

theorem u8 : Consumes u8 := by
  intro s a s' h
  unfold Mop.u8 at h ⊢
  split at h
  next => cases h
  next b bs hcur =>
    cases h
    exact ⟨rfl, rfl, fun v t => by simp only [hcur]⟩

theorem exact (n : Nat) : Consumes (exact n) := by
  intro s a s' h
  unfold Mop.exact at h ⊢
  split at h
  next => cases h
  next hlen =>
    cases h
    exact ⟨rfl, rfl, fun v t => if_neg hlen⟩

theorem varint : Consumes varint := by
  intro s a s' h
  unfold Mop.varint at h ⊢
  split at h
  next v bs hread =>
    cases h
    exact ⟨rfl, rfl, fun v t => by simp only [hread]⟩
  next => cases h
  next => cases h

theorem lenCapped (k : Nat) : Consumes (lenCapped k) := by
  intro s a s' h
  obtain ⟨n, t, hn, h⟩ := bind_ok.mp h
  obtain ⟨hvm, htab, hrun⟩ := varint s n t hn
  rw [get_bind] at h
  split at h
  next => cases h
  next hlen =>
    obtain ⟨rfl, rfl⟩ := pure_ok h
    refine ⟨hvm, htab, fun v t' => bind_ok.mpr ⟨a, _, hrun v t', ?_⟩⟩
    rw [get_bind]
    rw [if_neg hlen]
    rfl

end Consumes

theorem modify_concat (f : Object → Object) : ∀ (heap : List Object) (m : Object),
    (heap ++ [m]).modify heap.length f = heap ++ [f m] := by
  intro heap
  induction heap with
  | nil => intro m; rfl
  | cons x heap ih =>
    intro m
    show x :: (heap ++ [m]).modify heap.length f = _
    rw [ih, List.cons_append]

def Interned (v : Vm) : Prop :=
  ∀ bs b, v.symbols.lookup bs = some b → v.heap[b]? = some ⟨v.univ.symbolKlass, .bytes [] bs⟩

namespace Interned

variable {v : Vm}

theorem lt (h : Interned v) {bs : List UInt8} {b : Nat} (hb : v.symbols.lookup bs = some b) : b < v.heap.length :=
  (List.getElem?_eq_some_iff.mp (h bs b hb)).1

theorem alloc (h : Interned v) (m : Object) : Interned { v with heap := v.heap ++ [m] } := by
  intro bs b hb
  rw [List.getElem?_append_left (h.lt hb), h bs b hb]

theorem update (h : Interned v) {p : Nat} (hp : Unsettled v p) (f : Object → Object) :
    Interned { v with heap := v.heap.modify p f } := by
  intro bs b hb
  have hne : p ≠ b := fun heq => hp.2 bs (heq ▸ hb)
  rw [List.getElem?_modify, h bs b hb]
  simp [hne]

theorem unsettled_next (h : Interned v) (m : Object) : Unsettled { v with heap := v.heap ++ [m] } v.heap.length :=
  ⟨by simp, fun _ hb => Nat.lt_irrefl _ (h.lt hb)⟩

end Interned

theorem intern_spec {bytes : List UInt8} {s s' : UnpickleState} {a : Nat} (h : Unpickle.intern bytes s = .ok (a, s'))
    (hint : Interned s.vm) : s'.cur = s.cur ∧ s'.table = s.table ∧ s'.vm.symbols.lookup bytes = some a ∧
      Interned s'.vm ∧ Grows (fun _ => False) s.vm s'.vm ∧
      (∀ p, s.vm.heap.length ≤ p → ∀ m, s'.vm.heap[p]? = some m → s'.vm.symbols.lookup bytes = some p) := by
  unfold Unpickle.intern at h
  rw [get_bind] at h
  cases hlook : s.vm.symbols.lookup bytes with
  | some b =>
    simp only [hlook] at h
    obtain ⟨rfl, rfl⟩ := pure_ok h
    refine ⟨rfl, rfl, hlook, hint, Grows.refl _ _, fun p hp m hm => ?_⟩
    exact absurd (List.getElem?_eq_some_iff.mp hm).1 (Nat.not_lt.mpr hp)
  | none =>
    simp only [hlook] at h
    cases h
    have hself : List.lookup bytes ((bytes, s.vm.heap.length) :: s.vm.symbols) = some s.vm.heap.length := by
      simp
    have hkeep : ∀ bs b, List.lookup bs ((bytes, s.vm.heap.length) :: s.vm.symbols) = some b →
        bs = bytes ∧ b = s.vm.heap.length ∨ s.vm.symbols.lookup bs = some b := by
      intro bs b hb
      rw [List.lookup_cons] at hb
      split at hb
      next heq => exact .inl ⟨by simpa using heq, (Option.some.inj hb).symm⟩
      next => exact .inr hb
    refine ⟨rfl, rfl, hself, ?_, ⟨rfl, rfl, rfl, fun p hp _ => List.getElem?_append_left hp, by simp, ?_, ?_⟩, ?_⟩
    · intro bs b hb
      rcases hkeep bs b hb with ⟨rfl, rfl⟩ | hold
      · exact List.getElem?_concat_length
      · rw [List.getElem?_append_left (hint.lt hold), hint bs b hold]
    · intro bs b hb
      rw [List.lookup_cons]
      split
      next heq =>
        have : bs = bytes := by simpa using heq
        rw [this, hlook] at hb
        cases hb
      next => exact hb
    · intro bs b hb
      rcases hkeep bs b hb with ⟨_, rfl⟩ | hold
      · exact .inr (Nat.le_refl _)
      · exact .inl hold
    · intro p hp m hm
      have hlt := (List.getElem?_eq_some_iff.mp hm).1
      have hp' : p = s.vm.heap.length := by
        have : p < (s.vm.heap ++ [(⟨s.vm.univ.symbolKlass, .bytes [] bytes⟩ : Object)]).length := hlt
        rw [List.length_append, List.length_singleton] at this
        omega
      rw [hp']
      exact hself

namespace Object

variable (i : Nat) (v : Oop) (bytes : List UInt8) (m : Object)

theorem klass_setBodyOop : (m.setBodyOop i v).klass = m.klass := by
  obtain ⟨k, body⟩ := m
  cases body <;> rfl

theorem named_setBodyOop : (m.setBodyOop i v).body.named = m.body.named.set i v := by
  obtain ⟨k, body⟩ := m
  cases body <;> rfl

theorem elements_setBodyOop : (m.setBodyOop i v).body.elements = m.body.elements := by
  obtain ⟨k, body⟩ := m
  cases body <;> rfl

theorem klass_atPut : (m.atPut i v).klass = m.klass := by
  obtain ⟨k, body⟩ := m
  cases body <;> rfl

theorem named_atPut : (m.atPut i v).body.named = m.body.named := by
  obtain ⟨k, body⟩ := m
  cases body <;> rfl

theorem elements_atPut : (m.atPut i v).body.elements = m.body.elements.set i v := by
  obtain ⟨k, body⟩ := m
  cases body <;> rfl

theorem klass_bytesPut : (m.bytesPut bytes).klass = m.klass := by
  obtain ⟨k, body⟩ := m
  cases body <;> rfl

theorem named_bytesPut : (m.bytesPut bytes).body.named = m.body.named := by
  obtain ⟨k, body⟩ := m
  cases body <;> rfl

theorem elements_bytesPut : (m.bytesPut bytes).body.elements = m.body.elements := by
  obtain ⟨k, body⟩ := m
  cases body <;> rfl

end Object

/-- The stores of a filling loop from index `i` on. -/
def putAll (put : Nat → Oop → Object → Object) : Nat → List Oop → Object → Object
  | _, [], m => m
  | i, o :: os, m => putAll put (i + 1) os (put i o m)

theorem putAll_list (part : Object → List Oop)
    (hput : ∀ i o m, part (put i o m) = (part m).set i o) : ∀ {os : List Oop} {i : Nat} {m : Object},
    i + os.length ≤ (part m).length →
    part (putAll put i os m) = (part m).take i ++ os ++ (part m).drop (i + os.length) := by
  intro os
  induction os with
  | nil => intro i m _; simp [putAll]
  | cons o os ih =>
    intro i m hle
    rw [List.length_cons] at hle
    have hlt : i < (part m).length := by omega
    have hrest : i + 1 + os.length ≤ (part (put i o m)).length := by
      rw [hput, List.length_set]
      omega
    rw [putAll, ih hrest, hput, List.take_set, List.drop_set_of_lt (by omega), List.length_cons,
      List.take_succ_eq_append_getElem hlt, List.set_append_right _ _ (by simp)]
    simp [Nat.min_eq_left hlt.le, Nat.add_assoc, Nat.add_comm 1]

theorem putAll_congr (part : Object → α)
    (hput : ∀ i o m, part (put i o m) = part m) : ∀ {os : List Oop} {i : Nat} {m : Object},
    part (putAll put i os m) = part m := by
  intro os
  induction os with
  | nil => intro i m; rfl
  | cons o os ih =>
    intro i m
    rw [putAll, ih, hput]

end WinArmVm.Mop
