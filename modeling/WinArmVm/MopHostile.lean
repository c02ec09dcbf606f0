import WinArmVm.MopCursor
import WinArmVm.MopDelimited

namespace WinArmVm.Mop

open Nat List

def Object.shape (m : Object) : Nat × Nat × Nat × Nat :=
  (m.klass, m.body.named.length, m.body.elements.length, m.body.tail.length)

def Vm.shapes (v : Vm) : List (Nat × Nat × Nat × Nat) := v.heap.map Object.shape

def Vm.PlainIndexables (v : Vm) : Prop := ∀ name k, v.globals.lookup name = some (.klass k) →
    (v.klasses k).format ∈ [Format.indexableOops, .indexableBytes] → (v.klasses k).nslots = 0

/-- No class with an indexable tail and named slots has its name in the message. -/
def Vm.PlainIn (v : Vm) (message : List UInt8) : Prop := ∀ name k, v.globals.lookup name = some (.klass k) →
    name <:+: message → (v.klasses k).format ∈ [Format.indexableOops, .indexableBytes] → (v.klasses k).nslots = 0

theorem Vm.PlainIndexables.plainIn {v : Vm} (h : v.PlainIndexables) (message : List UInt8) : v.PlainIn message :=
  fun name k hk _ => h name k hk

def Decoder.erase (s : Decoder) : UnpickleState := ⟨s.vm, s.cur.b.drop s.cur.i, s.table⟩

/-- The cursor stands in the message, the classes are the receiver's, and every container so far
can be filled from the input. -/
structure Sound (w : Vm) (bytes : Slice) (s : Decoder) : Prop where
  input : s.cur.b = bytes.bytes
  inside : s.cur.i ≤ bytes.bytes.length
  univ : s.vm.univ = w.univ
  klasses : s.vm.klasses = w.klasses
  globals : s.vm.globals = w.globals
  supplied : w.PlainIn bytes.bytes → ∀ c ∈ s.containers, c.slots + c.bytes ≤ c.supply

structure Onward (w : Vm) (bytes : Slice) (s s' : Decoder) : Prop where
  sound : Sound w bytes s'
  kept : s.containers <+: s'.containers

variable {w : Vm} {bytes : Slice} {name : List UInt8} {subkind : Subkind} {s : Decoder} {u t : UnpickleState} {a : Nat}
  {m : Object}

theorem Sound.onward (h : Sound w bytes s) : Onward w bytes s s := ⟨h, prefix_rfl⟩

theorem Onward.trans {s s₁ s₂ : Decoder} (h : Onward w bytes s s₁)
    (h₁ : Onward w bytes s₁ s₂) : Onward w bytes s s₂ := ⟨h₁.sound, h.kept.trans h₁.kept⟩

/-- From states that stand for `u`, the decoder does what `y` does: no panic, no lost shape. -/
def Follows {α : Type} (w : Vm) (bytes : Slice) (u : UnpickleState) (x : Decode α) (y : Unpickle α) : Prop :=
  ∀ s, s.erase = u → Sound w bytes s →
    (∀ a t, y u = .ok (a, t) → ∃ s', x s = (.ok a, s') ∧ s'.erase = t ∧ Onward w bytes s s' ∧
      u.vm.shapes <+: t.vm.shapes) ∧
    ∀ e, y u = .error e → ∃ s', x s = (.error (.err e), s') ∧ Onward w bytes s s'

variable {heap : List Object} {u : UnpickleState} {s s' : Decoder} {α β : Type} {f : α → Decode β} {x : Decode α}

theorem Decode.bind_of_ok {a : α} (h : x s = (.ok a, s')) : (x >>= f) s = f a s' := by
  show (ExceptT.bindCont f (x s).1 : StateM Decoder _) (x s).2 = _
  rw [h]
  rfl

theorem Decode.bind_of_error {e : Halt} (h : x s = (.error e, s')) : (x >>= f) s = (.error e, s') := by
  show (ExceptT.bindCont f (x s).1 : StateM Decoder _) (x s).2 = _
  rw [h]
  rfl

namespace Follows

variable {w : Vm} {bytes : Slice} {u : UnpickleState} {α β : Type}

theorem pure (a : α) : Follows w bytes u (pure a) (pure a) := by
  intro s hs hsound
  refine ⟨fun b t h => ?_, fun e h => by cases h⟩
  obtain ⟨rfl, rfl⟩ := pure_ok h
  exact ⟨s, rfl, hs, hsound.onward, prefix_rfl⟩

theorem fail (e : UnpickleErr) : Follows w bytes u (Decode.fail e : Decode α) (throw e) := by
  intro s _ hsound
  refine ⟨fun b t h => (throw_ok h).elim, fun e' h => ?_⟩
  cases h
  exact ⟨s, rfl, hsound.onward⟩

theorem bind {x : Decode α} {y : Unpickle α} {f : α → Decode β} {g : α → Unpickle β} (hx : Follows w bytes u x y)
    (hf : ∀ a t, y u = .ok (a, t) → u.vm.shapes <+: t.vm.shapes → Follows w bytes t (f a) (g a)) :
    Follows w bytes u (x >>= f) (y >>= g) := by
  intro s hs hsound
  obtain ⟨hok, herror⟩ := hx s hs hsound
  constructor
  · intro b t' h
    obtain ⟨a, t, ha, hb⟩ := bind_ok.mp h
    obtain ⟨s₁, hrun, hs₁, hon, hshapes⟩ := hok a t ha
    obtain ⟨s₂, hrun', hs₂, hon', hshapes'⟩ := (hf a t ha hshapes s₁ hs₁ hon.sound).1 b t' hb
    exact ⟨s₂, (Decode.bind_of_ok hrun).trans hrun', hs₂, hon.trans hon', hshapes.trans hshapes'⟩
  · intro e h
    rcases bind_error.mp h with he | ⟨a, t, ha, he⟩
    · obtain ⟨s₁, hrun, hon⟩ := herror e he
      exact ⟨s₁, Decode.bind_of_error hrun, hon⟩
    · obtain ⟨s₁, hrun, hs₁, hon, hshapes⟩ := hok a t ha
      obtain ⟨s₂, hrun', hon'⟩ := (hf a t ha hshapes s₁ hs₁ hon.sound).2 e he
      exact ⟨s₂, (Decode.bind_of_ok hrun).trans hrun', hon.trans hon'⟩

variable {g : UnpickleState → Unpickle β}

theorem vmOf {f : Vm → Decode β} (hf : Follows w bytes u (f u.vm) (g u)) :
    Follows w bytes u (Decoder.vmOf >>= f) ((Builds.read get : Unpickle UnpickleState) >>= g) := by
  intro s hs hsound
  have hvm : s.vm = u.vm := by rw [← hs]; rfl
  rw [Decode.bind_of_ok (rfl : Decoder.vmOf s = (.ok s.vm, s)), hvm, read_get_bind]
  exact hf s hs hsound

theorem tableOf {f : List Nat → Decode β} (hf : Follows w bytes u (f u.table) (g u)) :
    Follows w bytes u (Decoder.tableOf >>= f) ((Builds.read get : Unpickle UnpickleState) >>= g) := by
  intro s hs hsound
  have htable : s.table = u.table := by rw [← hs]; rfl
  rw [Decode.bind_of_ok (rfl : Decoder.tableOf s = (.ok s.table, s)), htable, read_get_bind]
  exact hf s hs hsound

theorem silent {x : Decode Unit} {f : Unit → Decode β} {y : Unpickle β}
    (hx : ∀ s, s.erase = u → Sound w bytes s → ∃ s', x s = (.ok (), s') ∧ s'.erase = u ∧ Onward w bytes s s')
    (hf : Follows w bytes u (f ()) y) : Follows w bytes u (x >>= f) y := by
  intro s hs hsound
  obtain ⟨s', hrun, hs', hon⟩ := hx s hs hsound
  rw [Decode.bind_of_ok hrun]
  obtain ⟨hok, herror⟩ := hf s' hs' hon.sound
  constructor
  · intro b t h
    obtain ⟨s₂, hrun', hs₂, hon', hshapes⟩ := hok b t h
    exact ⟨s₂, hrun', hs₂, hon.trans hon', hshapes⟩
  · intro e h
    obtain ⟨s₂, hrun', hon'⟩ := herror e h
    exact ⟨s₂, hrun', hon.trans hon'⟩

end Follows

namespace Sound

variable {w : Vm} {bytes : Slice} {s : Decoder}

theorem within (h : Sound w bytes s) : s.erase.cur <:+ bytes.bytes := by
  show s.cur.b.drop s.cur.i <:+ bytes.bytes
  rw [h.input]
  exact drop_suffix _ _

theorem seek (h : Sound w bytes s) {i : Nat} (hi : i ≤ bytes.bytes.length) :
    Sound w bytes { s with cur := { s.cur with i := i } } :=
  ⟨h.input, hi, h.univ, h.klasses, h.globals, h.supplied⟩

theorem short (h : Sound w bytes s) : s.erase.cur.length < 2 ^ 63 := by
  have hsmall := bytes.small
  rw [← h.input] at hsmall
  exact lt_of_le_of_lt (length_drop ▸ sub_le _ _ : (s.cur.b.drop s.cur.i).length ≤ _) hsmall

theorem remaining (h : Sound w bytes s) : Cursor.remaining s = (.ok s.erase.cur.length, s) := by
  have hle : s.cur.i ≤ s.cur.b.length := by
    rw [h.input]
    exact h.inside
  show (Cursor.usizeSub s.cur.b.length s.cur.i : Decode Nat) s = _
  unfold Cursor.usizeSub
  rw [if_neg (not_lt.mpr hle)]
  show _ = (Except.ok (s.cur.b.drop s.cur.i).length, s)
  rw [length_drop]

end Sound

namespace Follows

variable {w : Vm} {bytes : Slice} {u : UnpickleState} {α β : Type}

theorem u8 : Follows w bytes u Cursor.u8 u8 := by
  intro s hs hsound
  have hcur : u.cur = s.cur.b.drop s.cur.i := by rw [← hs]; rfl
  have hrun : Cursor.u8 s = s.cur.b[s.cur.i]?.elim (.error (.err .truncated), s)
      fun v => (.ok v, { s with cur := { s.cur with i := s.cur.i + 1 } }) := by
    unfold Cursor.u8
    rw [Decode.bind_of_ok (rfl : Cursor.get s = (.ok s.cur, s))]
    cases s.cur.b[s.cur.i]? <;> rfl
  rw [hrun]
  unfold Mop.u8
  rw [hcur]
  cases hat : s.cur.b[s.cur.i]? with
  | none =>
    rw [drop_eq_nil_of_le (List.getElem?_eq_none_iff.mp hat)]
    refine ⟨fun a t h => (by cases h), fun e h => ?_⟩
    cases h
    exact ⟨s, rfl, hsound.onward⟩
  | some b =>
    obtain ⟨hlt, rfl⟩ := List.getElem?_eq_some_iff.mp hat
    rw [drop_eq_getElem_cons hlt]
    refine ⟨fun a t h => ?_, fun e h => by cases h⟩
    cases h
    refine ⟨_, rfl, ?_, ⟨hsound.seek (hsound.input ▸ hlt), prefix_rfl⟩, prefix_rfl⟩
    rw [← hs]
    rfl

theorem exact (n : Nat) : Follows w bytes u (Cursor.exact n) (exact n) := by
  intro s hs hsound
  have hcur : u.cur = s.cur.b.drop s.cur.i := by rw [← hs]; rfl
  have hin := hsound.inside
  have hsmall := bytes.small
  rw [← hsound.input] at hin hsmall
  have hrun : Cursor.exact n s = if s.cur.b.length < s.cur.i + n then (.error (.err .truncated), s)
      else (.ok ((s.cur.b.drop s.cur.i).take n), { s with cur := { s.cur with i := s.cur.i + n } }) := by
    show (if 2 ^ 64 ≤ s.cur.i + n then (Decode.fail .truncated : Decode (List UInt8))
      else if s.cur.b.length < s.cur.i + n then Decode.fail .truncated
      else do
        let bs ← Cursor.slice s.cur.b s.cur.i (s.cur.i + n)
        Cursor.seek (s.cur.i + n)
        return bs) s = _
    by_cases hfit : s.cur.b.length < s.cur.i + n
    · rw [if_pos hfit, if_pos hfit, ite_self]
      rfl
    · have hslice : Cursor.slice s.cur.b s.cur.i (s.cur.i + n) s = (.ok ((s.cur.b.drop s.cur.i).take n), s) := by
        unfold Cursor.slice
        rw [if_pos ⟨by omega, by omega⟩, Nat.add_sub_cancel_left]
      rw [if_neg (by omega), if_neg hfit, if_neg hfit, Decode.bind_of_ok hslice]
      rfl
  rw [hrun]
  unfold Mop.exact
  rw [hcur, length_drop]
  by_cases hfit : s.cur.b.length < s.cur.i + n
  · rw [if_pos hfit, if_pos (by omega)]
    refine ⟨fun a t h => (by cases h), fun e h => ?_⟩
    cases h
    exact ⟨s, rfl, hsound.onward⟩
  · rw [if_neg hfit, if_neg (by omega)]
    refine ⟨fun a t h => ?_, fun e h => by cases h⟩
    cases h
    refine ⟨_, rfl, ?_, ⟨hsound.seek (by rw [← hsound.input]; omega), prefix_rfl⟩, prefix_rfl⟩
    rw [← hs]
    show (⟨s.vm, s.cur.b.drop (s.cur.i + n), s.table⟩ : UnpickleState) = ⟨s.vm, _, s.table⟩
    rw [drop_drop]

def varintAt (fuel shift v : Nat) : Unpickle Nat := fun s =>
  match Varint.read fuel shift v s.cur with
  | .ok (v, bs) => .ok (v, { s with cur := bs })
  | .error .truncated => .error .truncated
  | .error .tooLong => .error (.malformed "varint too long")

theorem varintAt_succ (fuel shift v : Nat) : varintAt (fuel + 1) shift v = (do
      let b ← Mop.u8
      let v := v ||| ((b.toNat % 128) <<< shift) % 2 ^ 64
      if b.toNat / 128 = 0 then return v else varintAt fuel (shift + 7) v) := by
  funext s
  obtain ⟨vm, cur, table⟩ := s
  cases cur with
  | nil => rfl
  | cons b bs =>
    show varintAt (fuel + 1) shift v ⟨vm, b :: bs, table⟩ =
      (if b.toNat / 128 = 0 then (Pure.pure (v ||| ((b.toNat % 128) <<< shift) % 2 ^ 64) : Unpickle Nat)
        else varintAt fuel (shift + 7) (v ||| ((b.toNat % 128) <<< shift) % 2 ^ 64)) ⟨vm, bs, table⟩
    unfold varintAt
    rw [Varint.read]
    by_cases hlast : b.toNat / 128 = 0
    · rw [if_pos hlast, if_pos hlast]
      rfl
    · rw [if_neg hlast, if_neg hlast]

theorem varintFrom : ∀ {fuel shift v : Nat} {u : UnpickleState}, shift + fuel ≤ 10 →
    Follows w bytes u (Cursor.varintFrom fuel shift v) (varintAt fuel (7 * shift) v) := by
  intro fuel
  induction fuel with
  | zero =>
    intro shift v u _
    exact fail _
  | succ fuel ih =>
    intro shift v u hle
    rw [varintAt_succ]
    apply u8.bind
    intro b t _ _
    rw [if_neg (by omega)]
    split
    · exact pure _
    · exact ih (by omega)

theorem varint : Follows w bytes u Cursor.varint varint := varintFrom (by omega)

theorem lenCapped (k : Nat) : Follows w bytes u (Cursor.lenCapped k) (lenCapped k) := by
  apply varint.bind
  intro n t _ _ s hs hsound
  have hshort := hsound.short
  rw [hs] at hshort
  rw [Decode.bind_of_ok hsound.remaining, hs, get_bind]
  by_cases hlack : t.cur.length < n * max k 1
  · rw [if_pos (Or.inr hlack), if_pos hlack]
    exact fail _ s hs hsound
  · rw [if_neg hlack, if_neg (by omega)]
    exact pure n s hs hsound

theorem lenCapped_run {k n : Nat} {t : UnpickleState} (h : Mop.lenCapped k u = .ok (n, t)) :
    n * max k 1 ≤ t.cur.length := by
  obtain ⟨n', t', _, h⟩ := bind_ok.mp h
  rw [get_bind] at h
  split at h
  next => cases h
  next hlen =>
    obtain ⟨rfl, rfl⟩ := pure_ok h
    exact not_lt.mp hlen

theorem tablePush (a : Nat) : Follows w bytes u (Decoder.tablePush a) (tablePush a) := by
  intro s hs hsound
  refine ⟨fun x t h => ?_, fun e h => by cases h⟩
  cases h
  refine ⟨_, rfl, ?_, ⟨⟨hsound.input, hsound.inside, hsound.univ, hsound.klasses, hsound.globals, hsound.supplied⟩, prefix_rfl⟩,
    prefix_rfl⟩
  rw [← hs]
  rfl

theorem alloc (m : Object) : Follows w bytes u (Decoder.alloc m) (Unpickle.alloc m) := by
  intro s hs hsound
  have hvm : s.vm = u.vm := by rw [← hs]; rfl
  refine ⟨fun x t h => ?_, fun e h => by cases h⟩
  cases h
  refine ⟨_, congrArg (fun v : Vm => (Except.ok v.heap.length, _)) hvm, ?_,
    ⟨⟨hsound.input, hsound.inside, hsound.univ, hsound.klasses, hsound.globals, hsound.supplied⟩, prefix_rfl⟩, ?_⟩
  · rw [← hs]
    rfl
  · show u.vm.heap.map Object.shape <+: (u.vm.heap ++ [m]).map Object.shape
    rw [map_append]
    exact prefix_append _ _

theorem record {slots size taken : Nat} {f : Unit → Decode β} {y : Unpickle β}
    (hfit : w.PlainIn bytes.bytes → slots + size ≤ taken + u.cur.length) (hf : Follows w bytes u (f ()) y) :
    Follows w bytes u (Decoder.record slots size taken >>= f) y := by
  apply silent _ hf
  intro s hs hsound
  refine ⟨{ s with containers := s.containers ++ [⟨slots, size, taken + u.cur.length⟩] }, ?_, hs,
    ⟨hsound.input, hsound.inside, hsound.univ, hsound.klasses, hsound.globals, fun hplain c hc => ?_⟩,
    prefix_append _ _⟩
  · show (Cursor.remaining >>= _ : Decode Unit) s = _
    rw [Decode.bind_of_ok hsound.remaining, hs]
  · rcases mem_append.mp hc with hc | hc
    · exact hsound.supplied hplain c hc
    · rw [mem_singleton.mp hc]
      exact hfit hplain

theorem static {x : Decode α} {y : Unpickle α}
    (h : u.vm.univ = w.univ → u.vm.klasses = w.klasses → u.vm.globals = w.globals → Follows w bytes u x y) :
    Follows w bytes u x y := by
  intro s hs hsound
  have hvm : s.vm = u.vm := by rw [← hs]; rfl
  exact h (hvm ▸ hsound.univ) (hvm ▸ hsound.klasses) (hvm ▸ hsound.globals) s hs hsound

theorem within {x : Decode α} {y : Unpickle α} (h : u.cur <:+ bytes.bytes → Follows w bytes u x y) :
    Follows w bytes u x y := by
  intro s hs hsound
  exact h (hs ▸ hsound.within) s hs hsound

theorem intern (name : List UInt8) : Follows w bytes u (Decoder.intern name) (Unpickle.intern name) := by
  unfold Decoder.intern Unpickle.intern
  apply vmOf
  cases u.vm.symbols.lookup name with
  | some a => exact pure a
  | none =>
    apply record (fun _ => by omega)
    apply (alloc _).bind
    intro a t _ _
    refine bind (fun s hs hsound => ⟨fun x t' h => ?_, fun e h => by cases h⟩) fun _ _ _ _ => pure a
    cases h
    refine ⟨{ s with vm := { s.vm with symbols := (name, a) :: s.vm.symbols } }, rfl, ?_,
      ⟨⟨hsound.input, hsound.inside, hsound.univ, hsound.klasses, hsound.globals, hsound.supplied⟩, prefix_rfl⟩, prefix_rfl⟩
    rw [← hs]
    rfl

end Follows

def Store.Suits (w : Vm) (shape : Nat × Nat × Nat × Nat) : Store → Prop
  | .bodyOop i _ => i < shape.2.1
  | .tailOop i _ => (w.klasses shape.1).format = .indexableOops ∧ i < shape.2.2.1
  | .bytes bs => (w.klasses shape.1).format = .indexableBytes ∧ bs.length = shape.2.2.2

namespace Store

variable {w : Vm} {m : Object} {st : Store}

theorem Suits.fits (h : st.Suits w m.shape) : st.Fits (w.klasses m.klass) m := by
  cases st with
  | bodyOop i v => exact h
  | tailOop i v => exact h
  | bytes bs => exact ⟨h.1, le_of_eq h.2⟩

theorem Suits.write_eq (h : st.Suits w m.shape) : st.write m = st.apply m := by
  cases st with
  | bodyOop i v => rfl
  | tailOop i v => rfl
  | bytes bs =>
    have hlen : bs.length = m.body.tail.length := h.2
    show m.bytesPut (bs ++ m.body.tail.drop bs.length) = m.bytesPut bs
    rw [hlen, drop_length, append_nil]

theorem Suits.shape_apply (h : st.Suits w m.shape) : (st.apply m).shape = m.shape := by
  obtain ⟨k, body⟩ := m
  cases st with
  | bodyOop i v => cases body <;> simp [Store.apply, Object.setBodyOop, Object.shape, Body.named, Body.elements, Body.tail]
  | tailOop i v => cases body <;> simp [Store.apply, Object.atPut, Object.shape, Body.named, Body.elements, Body.tail]
  | bytes bs =>
    have hlen := h.2
    cases body <;> simp_all [Store.apply, Object.bytesPut, Object.shape, Body.named, Body.elements, Body.tail]

end Store

theorem shapes_modify {f : Object → Object} (hm : heap[a]? = some m)
    (hf : (f m).shape = m.shape) : (heap.modify a f).map Object.shape = heap.map Object.shape := by
  apply ext_getElem?
  intro i
  rw [getElem?_map, getElem?_map, getElem?_modify]
  by_cases heq : a = i
  · subst heq
    simp [hm, hf]
  · simp [heq]

theorem modify_congr {f g : Object → Object} (hm : heap[a]? = some m)
    (hfg : f m = g m) : heap.modify a f = heap.modify a g := by
  apply ext_getElem?
  intro i
  rw [getElem?_modify, getElem?_modify]
  by_cases heq : a = i
  · subst heq
    simp [hm, hfg]
  · simp [heq]

theorem shape_kept {v v' : Vm} (h : v.shapes <+: v'.shapes) {shape : Nat × Nat × Nat × Nat}
    (ha : v.shapes[a]? = some shape) : v'.shapes[a]? = some shape := by
  obtain ⟨l, hl⟩ := h
  rw [← hl, List.getElem?_append_left (List.getElem?_eq_some_iff.mp ha).1, ha]

theorem exact_length {n : Nat} {bs : List UInt8} (h : exact n u = .ok (bs, t)) : bs.length = n := by
  unfold exact at h
  split at h
  next => cases h
  next hlen =>
    cases h
    rw [length_take, min_eq_left (not_lt.mp hlen)]

theorem exact_occurs {n : Nat} {bs : List UInt8} (h : exact n u = .ok (bs, t)) : bs <:+: u.cur := by
  unfold exact at h
  split at h
  next => cases h
  next =>
    cases h
    exact ( take_prefix n u.cur).isInfix

theorem alloc_shape (h : Unpickle.alloc m u = .ok (a, t)) : t.vm.shapes[a]? = some m.shape ∧ t.cur = u.cur := by
  cases h
  refine ⟨?_, rfl⟩
  show ((u.vm.heap ++ [m]).map Object.shape)[u.vm.heap.length]? = _
  simp

namespace Follows

variable {w : Vm} {bytes : Slice} {u : UnpickleState} {α β : Type} {shape : Nat × Nat × Nat × Nat} {t : UnpickleState}
  {a : Nat}

theorem store {st : Store} (hshape : u.vm.shapes[a]? = some shape)
    (hsuits : st.Suits w shape) : Follows w bytes u (Decoder.store a st) (Builds.store a st) := by
  intro s hs hsound
  have hvm : s.vm = u.vm := by rw [← hs]; rfl
  obtain ⟨m, hm, rfl⟩ : ∃ m, u.vm.heap[a]? = some m ∧ m.shape = shape := by
    unfold Vm.shapes at hshape
    rw [getElem?_map] at hshape
    exact Option.map_eq_some_iff.mp hshape
  refine ⟨fun x t h => ?_, fun e h => by cases h⟩
  cases h
  refine ⟨{ s with vm := { s.vm with heap := s.vm.heap.modify a st.apply } }, ?_, ?_,
    ⟨⟨hsound.input, hsound.inside, hsound.univ, hsound.klasses, hsound.globals, hsound.supplied⟩, prefix_rfl⟩, ?_⟩
  · unfold Decoder.store
    rw [hvm, hm]
    dsimp only
    rw [if_pos (by rw [← hvm, hsound.klasses]; exact hsuits.fits), modify_congr hm hsuits.write_eq]
  · rw [← hs]
    rfl
  · show u.vm.heap.map Object.shape <+: (u.vm.heap.modify a st.apply).map Object.shape
    rw [shapes_modify hm hsuits.shape_apply]

variable {child : Unpickle Oop} {child' : Decode Oop} {subkind : Subkind}

theorem fill (hchild : ∀ u, Follows w bytes u child' child)
    {put : Nat → Oop → Store} : ∀ {n i : Nat} {u : UnpickleState},
    (∀ j o, j < i + n → (put j o).Suits w shape) → u.vm.shapes[a]? = some shape →
    Follows w bytes u (Decoder.fill child' put a i n) (fill child put a i n) := by
  intro n
  induction n with
  | zero =>
    intro i u _ _
    exact pure ()
  | succ n ih =>
    intro i u hsuits hshape
    apply (hchild u).bind
    intro c t _ ht
    have hshape' := shape_kept ht hshape
    apply (store hshape' (hsuits i c (by omega))).bind
    intro _ t' _ ht'
    exact ih (fun j o hj => hsuits j o (by omega)) (shape_kept ht' hshape')

theorem allocSlots (k : Nat) : Follows w bytes u (Decoder.allocSlots k) (allocSlots k) := vmOf (alloc _)

theorem allocIndexableOops {k n : Nat} (hfit : w.PlainIn bytes.bytes → (w.klasses k).nslots + n ≤ u.cur.length) :
    Follows w bytes u (Decoder.allocIndexableOops k n) (allocIndexableOops k n) := by
  apply static
  intro _ hklasses _
  apply vmOf
  apply record
  · intro hplain
    have := hfit hplain
    rw [hklasses]
    omega
  · exact alloc _

theorem allocIndexableBytes {k n taken : Nat}
    (hfit : w.PlainIn bytes.bytes → (w.klasses k).nslots + n ≤ taken + u.cur.length) :
    Follows w bytes u (Decoder.allocIndexableBytes k n taken) (allocIndexableBytes k n) := by
  apply static
  intro _ hklasses _
  apply vmOf
  apply record
  · intro hplain
    rw [hklasses]
    exact hfit hplain
  · exact alloc _

theorem upBytes (hw : w.WellFormed) {klass n : Nat} {bs : List UInt8} (hk : klass ∈ w.univ.byteKlasses) (hn : bs.length = n) :
    Follows w bytes u (Decoder.upBytes klass n bs) (upBytes klass n bs) := by
  apply static
  intro _ hklasses _
  obtain ⟨hformat, hslots⟩ := hw.bytes klass hk
  have halloc : Follows w bytes u (Decoder.allocIndexableBytes klass n bs.length) (Mop.allocIndexableBytes klass n) :=
    allocIndexableBytes fun _ => by omega
  apply halloc.bind
  intro b t hb _
  obtain ⟨hshape, -⟩ := alloc_shape hb
  have hsuits : Store.Suits w (klass, (u.vm.klasses klass).nslots, 0, n) (.bytes bs) := ⟨hformat, hn⟩
  simp only [Object.shape, Body.named, Body.elements, Body.tail, length_replicate, length_nil] at hshape
  apply (store hshape hsuits).bind
  intro _ _ _ _
  apply (tablePush b).bind
  intro _ _ _ _
  exact pure _

theorem upSized (hw : w.WellFormed) (klass : Universe → Nat) (hk : klass w.univ ∈ w.univ.byteKlasses) :
    Follows w bytes u (Decoder.upSized klass) (do
      let n ← Mop.lenCapped 1
      let bs ← Mop.exact n
      let s ← (Builds.read get : Unpickle UnpickleState)
      Mop.upBytes (klass s.vm.univ) n bs) := by
  apply (lenCapped 1).bind
  intro n t _ _
  apply (exact n).bind
  intro bs t' hbs _
  apply static
  intro huniv _ _
  apply vmOf
  rw [huniv]
  exact upBytes hw hk (exact_length hbs)

theorem upArray (hw : w.WellFormed)
    (hchild : ∀ u, Follows w bytes u child' child) : Follows w bytes u (Decoder.upArray child') (upArray child) := by
  apply (lenCapped 1).bind
  intro n t hn _
  apply static
  intro huniv hklasses _
  apply vmOf
  obtain ⟨hformat, hslots⟩ := hw.array
  have hle := lenCapped_run hn
  rw [huniv]
  have halloc : Follows w bytes t (Decoder.allocIndexableOops w.univ.arrayKlass n)
      (Mop.allocIndexableOops w.univ.arrayKlass n) :=
    allocIndexableOops fun _ => by simp at hle; omega
  apply halloc.bind
  intro arr t₁ harr _
  obtain ⟨hshape, -⟩ := alloc_shape harr
  simp only [Object.shape, Body.named, Body.elements, Body.tail, length_replicate, length_nil] at hshape
  apply (tablePush arr).bind
  intro _ t₂ _ ht₂
  have hshape₂ := shape_kept ht₂ hshape
  have hsuits : ∀ j o, j < 0 + n →
      Store.Suits w (w.univ.arrayKlass, (t.vm.klasses w.univ.arrayKlass).nslots, n, 0) (.tailOop j o) :=
    fun j o hj => ⟨hformat, by simpa using hj⟩
  exact (fill hchild hsuits hshape₂).bind fun _ _ _ _ => pure _

theorem tailLength : ∀ subkind : Subkind, Follows w bytes u (Decoder.tailLength subkind) subkind.tailLength
  | .slots => pure 0
  | .oops => lenCapped 1
  | .bytes => lenCapped 1

theorem resolveKlass (name : List UInt8) {nslots idxN : Nat} (subkind : Subkind) (hidx : idxN < 2 ^ 63) :
    Follows w bytes u (Decoder.resolveKlass name nslots subkind idxN) (resolveKlass name nslots subkind idxN) := by
  apply (Follows.intern name).bind
  intro sym t _ _
  apply vmOf
  cases t.vm.globals.lookup name with
  | none => exact fail _
  | some g =>
    cases g with
    | other => exact fail _
    | klass kls =>
      dsimp only
      split
      · exact fail _
      · split
        · exact fail _
        · intro s hs hsound
          have hsmall := hsound.short
          rw [hs] at hsmall
          by_cases hlack : t.cur.length + idxN < nslots + idxN
          · rw [if_pos hlack]
            split
            · exact fail _ s hs hsound
            · rw [Decode.bind_of_ok hsound.remaining, hs, if_pos hlack]
              exact fail _ s hs hsound
          · rw [if_neg hlack, if_neg (by omega), Decode.bind_of_ok hsound.remaining, hs, if_neg hlack]
            exact pure kls s hs hsound

def recordShape (k kls idxN : Nat) : Subkind → Nat × Nat × Nat × Nat
  | .slots => (kls, k, 0, 0)
  | .oops => (kls, k, idxN, 0)
  | .bytes => (kls, k, 0, idxN)

theorem allocObject {kls idxN : Nat} (hslots : (w.klasses kls).nslots ≤ u.cur.length) (hidx : idxN ≤ u.cur.length)
    (hplain : w.PlainIn bytes.bytes → subkind ≠ .slots → (w.klasses kls).nslots = 0) :
    Follows w bytes u (Decoder.allocObject kls idxN subkind) (subkind.alloc kls idxN) := by
  cases subkind with
  | slots =>
    apply static
    intro _ hklasses _ s hs hsound
    have hvm : s.vm = u.vm := by rw [← hs]; rfl
    rw [show Decoder.allocObject kls idxN .slots = Decoder.vmOf >>= fun vm => do
      Decoder.record (vm.klasses kls).nslots 0 0
      Decoder.allocSlots kls from rfl, Decode.bind_of_ok (rfl : Decoder.vmOf s = (.ok s.vm, s)), hvm]
    refine record (fun _ => ?_) (allocSlots kls) s hs hsound
    rw [hklasses]
    omega
  | oops =>
    refine allocIndexableOops fun h => ?_
    have := hplain h (by decide)
    omega
  | bytes =>
    refine allocIndexableBytes fun h => ?_
    have := hplain h (by decide)
    omega

theorem subkindAlloc_run {kls idxN obj : Nat} (h : (subkind.alloc kls idxN : Unpickle Nat) u = .ok (obj, t)) :
    t.vm.shapes[obj]? = some (recordShape (u.vm.klasses kls).nslots kls idxN subkind) := by
  cases subkind with
  | slots =>
    obtain ⟨hshape, -⟩ := alloc_shape (m := ⟨kls, .slots (List.replicate (u.vm.klasses kls).nslots .nilObj)⟩) h
    simpa [Object.shape, Body.named, Body.elements, Body.tail, recordShape] using hshape
  | oops =>
    obtain ⟨hshape, -⟩ := alloc_shape
      (m := ⟨kls, .oops (List.replicate (u.vm.klasses kls).nslots .nilObj) (List.replicate idxN .nilObj)⟩) h
    simpa [Object.shape, Body.named, Body.elements, Body.tail, recordShape] using hshape
  | bytes =>
    obtain ⟨hshape, -⟩ := alloc_shape
      (m := ⟨kls, .bytes (List.replicate (u.vm.klasses kls).nslots .nilObj) (List.replicate idxN 0)⟩) h
    simpa [Object.shape, Body.named, Body.elements, Body.tail, recordShape] using hshape

theorem fillTail (hchild : ∀ u, Follows w bytes u child' child)
    {k kls obj idxN : Nat} (hformat : (w.klasses kls).format = subkind.format)
    (hshape : u.vm.shapes[obj]? = some (recordShape k kls idxN subkind)) :
    Follows w bytes u (Decoder.fillTail child' obj idxN subkind) (subkind.fillTail child obj idxN) := by
  cases subkind with
  | slots => exact pure ()
  | oops => exact fill hchild (fun j o hj => (⟨hformat, by simpa [recordShape] using hj⟩ :
      Store.Suits w (recordShape k kls idxN .oops) (.tailOop j o))) hshape
  | bytes =>
    apply (exact idxN).bind
    intro bs t hbs ht
    have hsuits : Store.Suits w (recordShape k kls idxN .bytes) (.bytes bs) := ⟨hformat, exact_length hbs⟩
    exact store (shape_kept ht hshape) hsuits

theorem tailLength_run {idxN : Nat} (h : subkind.tailLength u = .ok (idxN, t)) : idxN ≤ t.cur.length := by
  cases subkind with
  | slots =>
    obtain ⟨rfl, -⟩ := pure_ok h
    exact zero_le _
  | oops => simpa using lenCapped_run h
  | bytes => simpa using lenCapped_run h

theorem filled (hchild : ∀ u, Follows w bytes u child' child)
    {nslots kls obj idxN : Nat} (hformat : (w.klasses kls).format = subkind.format)
    (hshape : u.vm.shapes[obj]? = some (recordShape nslots kls idxN subkind)) :
    Follows w bytes u
      (do
        Decoder.tablePush obj
        Decoder.fill child' .bodyOop obj 0 nslots
        Decoder.fillTail child' obj idxN subkind
        return Oop.mem obj)
      (do
        Mop.tablePush obj
        Mop.fill child .bodyOop obj 0 nslots
        subkind.fillTail child obj idxN
        return Oop.mem obj) := by
  apply (tablePush obj).bind
  intro _ t _ ht
  have hshape₁ := shape_kept ht hshape
  have hnamed : (recordShape nslots kls idxN subkind).2.1 = nslots := by cases subkind <;> rfl
  have hsuits : ∀ j o, j < 0 + nslots → Store.Suits w (recordShape nslots kls idxN subkind) (.bodyOop j o) := by
    intro j o hj
    show j < (recordShape nslots kls idxN subkind).2.1
    omega
  apply (fill hchild hsuits hshape₁).bind
  intro _ t₁ _ ht₁
  exact (fillTail hchild hformat (shape_kept ht₁ hshape₁)).bind fun _ _ _ _ => pure _

theorem upObject (hchild : ∀ u, Follows w bytes u child' child) :
    Follows w bytes u (Decoder.upObject child') (upObject child) := by
  apply (lenCapped 1).bind
  intro nameLen _ _ _
  apply within
  intro hcur
  apply (exact nameLen).bind
  intro name _ hname _
  have hoccurs : name <:+: bytes.bytes := (exact_occurs hname).trans hcur.isInfix
  apply varint.bind
  intro nslots _ _ _
  apply u8.bind
  intro b _ _ _
  cases Subkind.ofByte b with
  | none => exact fail _
  | some subkind =>
    apply (tailLength subkind).bind
    intro idxN t hidxN _
    have hidx := tailLength_run hidxN
    have hresolve : Follows w bytes t (Decoder.resolveKlass name nslots subkind idxN)
        (Mop.resolveKlass name nslots subkind idxN) := fun s hs hsound => by
      have hshort := hsound.short
      rw [hs] at hshort
      exact resolveKlass name subkind (by omega) s hs hsound
    apply hresolve.bind
    intro kls t₁ hkls _
    obtain ⟨⟨sym, hsym⟩, hlook, hslots, hformat, hle⟩ := resolveKlass_run hkls
    have hcur₁ : t₁.cur = t.cur := (Reads.intern name t t.cur rfl).1 sym t₁ hsym
    apply static
    intro _ hklasses hglobals
    rw [hklasses] at hslots hformat
    rw [hglobals] at hlook
    have halloc : Follows w bytes t₁ (Decoder.allocObject kls idxN subkind) (subkind.alloc kls idxN) := by
      apply allocObject (by omega) (by rw [hcur₁]; exact hidx)
      intro hplain hsub
      apply hplain name kls hlook hoccurs
      rw [hformat]
      cases subkind with
      | slots => exact absurd rfl hsub
      | oops => decide
      | bytes => decide
    apply halloc.bind
    intro obj t₂ hobj _
    have hshape := subkindAlloc_run hobj
    rw [hklasses, hslots] at hshape
    exact filled hchild hformat hshape

theorem upTagged (hw : w.WellFormed) (hchild : ∀ u, Follows w bytes u child' child) (tag : Tag) :
    Follows w bytes u (Decoder.upTagged child' tag) (upTagged child tag) := by
  cases tag with
  | nil => exact pure _
  | false => exact pure _
  | true => exact pure _
  | smi =>
    apply varint.bind
    intro n _ _ _
    split
    · exact pure _
    · exact fail _
  | double =>
    apply (exact 8).bind
    intro raw t hraw _
    rw [if_neg (not_not.mpr (exact_length hraw))]
    apply vmOf
    exact (alloc _).bind fun _ _ _ _ => pure _
  | char =>
    apply varint.bind
    intro code _ _ _
    split
    · apply static
      intro huniv hklasses _
      apply vmOf
      apply (allocSlots _).bind
      intro obj t hobj _
      obtain ⟨hshape, -⟩ := alloc_shape (m := ⟨_, .slots (List.replicate _ .nilObj)⟩) hobj
      have hsuits : ∀ i, Store.Suits w (Object.shape ⟨w.univ.characterKlass,
          .slots (List.replicate (w.klasses w.univ.characterKlass).nslots .nilObj)⟩) (.bodyOop 0 (.smi i)) := by
        intro i
        show 0 < (List.replicate _ _).length
        rw [length_replicate, hw.character.2]
        exact one_pos
      rw [huniv, hklasses] at hshape
      exact (store hshape (hsuits _)).bind fun _ _ _ _ => pure _
    · exact fail _
  | symbol =>
    apply (lenCapped 1).bind
    intro n _ _ _
    apply (exact n).bind
    intro bs _ _ _
    apply (Follows.intern bs).bind
    intro sym _ _ _
    exact (tablePush sym).bind fun _ _ _ _ => pure _
  | string => exact upSized hw (·.stringKlass) (by simp [Universe.byteKlasses])
  | byteArray => exact upSized hw (·.bytearrayKlass) (by simp [Universe.byteKlasses])
  | floatArray =>
    apply (lenCapped 8).bind
    intro lanes t hlanes _ s hs hsound
    have hshort := hsound.short
    have hle := lenCapped_run hlanes
    rw [hs] at hshort
    rw [show max 8 1 = 8 from rfl] at hle
    rw [if_neg (by omega)]
    refine bind (exact (lanes * 8)) (fun bs t' hbs _ => ?_) s hs hsound
    apply static
    intro huniv _ _
    apply vmOf
    rw [huniv]
    exact upBytes hw (by simp [Universe.byteKlasses]) (exact_length hbs)
  | largeInt =>
    apply u8.bind
    intro neg _ _ _
    split
    · exact fail _
    · refine upSized hw (fun u => if neg = 1 then u.largeNegIntKlass else u.largePosIntKlass) ?_
      by_cases hneg : neg = 1
      · simp [Universe.byteKlasses, hneg]
      · simp [Universe.byteKlasses, hneg]
  | array => exact upArray hw hchild
  | backref =>
    apply varint.bind
    intro idx t _ _
    apply tableOf
    cases t.table[idx]? with
    | none => exact fail _
    | some a => exact pure _
  | object => exact upObject hchild

theorem up (hw : w.WellFormed) : ∀ {room frames depth : Nat} {u : UnpickleState}, room < frames →
    depth + room = MAX_DEPTH → Follows w bytes u (Decoder.up frames depth) (up room) := by
  intro room
  induction room with
  | zero =>
    intro frames depth u hframes hdepth
    obtain ⟨frames, rfl⟩ : ∃ n, frames = n + 1 := ⟨frames - 1, by omega⟩
    unfold Decoder.up
    rw [if_pos (by omega)]
    exact fail _
  | succ room ih =>
    intro frames depth u hframes hdepth
    obtain ⟨frames, rfl⟩ : ∃ n, frames = n + 1 := ⟨frames - 1, by omega⟩
    unfold Decoder.up
    rw [if_neg (by omega)]
    apply tableOf
    split
    · exact fail _
    · apply u8.bind
      intro b _ _ _
      cases Tag.ofByte b with
      | none => exact fail _
      | some tag => exact upTagged hw (fun u => ih (by omega) (by omega)) tag

end Follows

theorem decode_unpickle (hw : w.WellFormed) (bytes : Slice) : (∀ root v, unpickle w bytes.bytes = .ok (root, v) →
      ∃ s, decode (MAX_DEPTH + 1) w bytes = (.ok root, s) ∧ s.vm = v ∧ Sound w bytes s) ∧
    ∀ e, unpickle w bytes.bytes = .error e →
      ∃ s, decode (MAX_DEPTH + 1) w bytes = (.error (.err e), s) ∧ Sound w bytes s := by
  by_cases hmagic : bytes.bytes.take MAGIC.length = MAGIC
  · have hlen : MAGIC.length ≤ bytes.bytes.length := by
      have := congrArg List.length hmagic
      rw [length_take] at this
      omega
    have hdecode : decode (MAX_DEPTH + 1) w bytes =
        Decoder.up (MAX_DEPTH + 1) 0 ⟨w, ⟨bytes.bytes, MAGIC.length⟩, [], []⟩ := by
      unfold decode
      rw [if_neg (by rintro (h | h); exact absurd hlen (not_le.mpr h); exact h hmagic)]
    have hsound : Sound w bytes ⟨w, ⟨bytes.bytes, MAGIC.length⟩, [], []⟩ :=
      ⟨rfl, hlen, rfl, rfl, rfl, fun _ c hc => absurd hc not_mem_nil⟩
    obtain ⟨hok, herror⟩ := Follows.up hw (lt_succ_self MAX_DEPTH) (zero_add MAX_DEPTH) _ rfl hsound
    rw [hdecode]
    unfold unpickle
    rw [if_neg (not_not.mpr hmagic)]
    constructor
    · intro root v h
      split at h
      next root' t hup =>
        cases h
        obtain ⟨s, hrun, ht, hon, -⟩ := hok root t hup
        exact ⟨s, hrun, by rw [← ht]; rfl, hon.sound⟩
      next => cases h
    · intro e h
      split at h
      next => cases h
      next e' hup =>
        cases h
        obtain ⟨s, hrun, hon⟩ := herror e hup
        exact ⟨s, hrun, hon.sound⟩
  · have hdecode : decode (MAX_DEPTH + 1) w bytes = (.error (.err .badMagic), ⟨w, ⟨bytes.bytes, 0⟩, [], []⟩) := by
      unfold decode
      rw [if_pos (.inr hmagic)]
    rw [hdecode]
    unfold unpickle
    rw [if_pos hmagic]
    refine ⟨fun root v h => (by cases h), fun e h => ?_⟩
    cases h
    exact ⟨_, rfl, rfl, zero_le _, rfl, rfl, rfl, fun _ c hc => absurd hc not_mem_nil⟩

/-- The decoding ends with a value or an error, with the cursor in the message, and no container it
allocated was larger than what was left to fill it. -/
def Total (w : Vm) (bytes : Slice) : Prop :=
  (∀ halt, (decode (MAX_DEPTH + 1) w bytes).1 = .error halt → ∃ e, halt = .err e) ∧
    (decode (MAX_DEPTH + 1) w bytes).2.cur.i ≤ bytes.bytes.length ∧
    ∀ c ∈ (decode (MAX_DEPTH + 1) w bytes).2.containers, c.slots + c.bytes ≤ c.supply

theorem decode_sound (hw : w.WellFormed) (bytes : Slice) :
    (∀ halt, (decode (MAX_DEPTH + 1) w bytes).1 = .error halt → ∃ e, halt = .err e) ∧
      Sound w bytes (decode (MAX_DEPTH + 1) w bytes).2 := by
  obtain ⟨hok, herror⟩ := decode_unpickle hw bytes
  cases h : unpickle w bytes.bytes with
  | ok r =>
    obtain ⟨s, hrun, -, hsound⟩ := hok r.1 r.2 h
    rw [hrun]
    exact ⟨fun halt hhalt => (by cases hhalt), hsound⟩
  | error e =>
    obtain ⟨s, hrun, hsound⟩ := herror e h
    rw [hrun]
    refine ⟨fun halt hhalt => ?_, hsound⟩
    cases hhalt
    exact ⟨e, rfl⟩

/-- Whatever the receiver binds, a message that names none of its mixed classes is decoded within
its bounds. -/
theorem total_of_plainIn (hw : w.WellFormed) (hplain : w.PlainIn bytes.bytes) : Total w bytes := by
  obtain ⟨hhalt, hsound⟩ := decode_sound hw bytes
  exact ⟨hhalt, hsound.inside, hsound.supplied hplain⟩

structure Vm.Sized (v : Vm) : Prop where
  names : ∀ name g, v.globals.lookup name = some g → name.length < 2 ^ 61
  slots : ∀ k, (v.klasses k).nslots < 2 ^ 61

def mixedMessage (name : List UInt8) (nslots : Nat) (subkind : Subkind) : List UInt8 :=
  MAGIC ++ (Tag.object.byte :: (writeVarint name.length ++ (name ++ (writeVarint nslots ++ (subkind.byte ::
    (writeVarint nslots ++ List.replicate nslots 0))))))

theorem mixedMessage_length {nslots : Nat} (hname : name.length < 2 ^ 61) (hslots : nslots < 2 ^ 61)
    (subkind : Subkind) : (mixedMessage name nslots subkind).length < 2 ^ 63 := by
  have h := Varint.write_length_le 10 name.length
  have h' := Varint.write_length_le 10 nslots
  simp only [mixedMessage, MAGIC, writeVarint, length_append, length_cons, length_nil, length_replicate]
  omega

theorem intern_run (name : List UInt8) (u : UnpickleState) : ∃ sym t, Unpickle.intern name u = .ok (sym, t) ∧
    t.cur = u.cur ∧ t.vm.univ = u.vm.univ ∧ t.vm.klasses = u.vm.klasses ∧ t.vm.globals = u.vm.globals := by
  unfold Unpickle.intern
  rw [get_bind]
  cases u.vm.symbols.lookup name with
  | some a => exact ⟨a, u, rfl, rfl, rfl, rfl, rfl⟩
  | none => exact ⟨_, _, rfl, rfl, rfl, rfl, rfl⟩

theorem resolveKlass_passes (idxN : Nat) {nslots kls : Nat}
    (hlook : u.vm.globals.lookup name = some (.klass kls)) (hslots : (u.vm.klasses kls).nslots = nslots)
    (hformat : (u.vm.klasses kls).format = subkind.format) (hle : nslots ≤ u.cur.length) :
    ∃ t, (resolveKlass name nslots subkind idxN : Unpickle Nat) u = .ok (kls, t) ∧ t.cur = u.cur := by
  obtain ⟨sym, t, hsym, hcur, -, hklasses, hglobals⟩ := intern_run name u
  refine ⟨t, bind_ok.mpr ⟨sym, t, hsym, ?_⟩, hcur⟩
  rw [read_get_bind, hglobals, hlook]
  dsimp only
  rw [hklasses, if_neg (not_not.mpr hslots), if_neg (not_not.mpr hformat), if_neg (by rw [hcur]; omega)]
  rfl

theorem allocObject_records (hsound : Sound w bytes s)
    (hsub : subkind ≠ .slots) (kls idxN : Nat) : ∃ obj s', Decoder.allocObject kls idxN subkind s = (.ok obj, s') ∧
      ∃ c ∈ s'.containers, c.slots + c.bytes = (w.klasses kls).nslots + idxN ∧ c.supply = s.erase.cur.length := by
  have hrecord : ∀ slots size, Decoder.record slots size 0 s =
      (.ok (), { s with containers := s.containers ++ [⟨slots, size, 0 + s.erase.cur.length⟩] }) := by
    intro slots size
    show (Cursor.remaining >>= _ : Decode Unit) s = _
    rw [Decode.bind_of_ok hsound.remaining]
  cases subkind with
  | slots => exact absurd rfl hsub
  | oops =>
    have hrun : Decoder.allocObject kls idxN .oops s = _ :=
      (Decode.bind_of_ok (rfl : Decoder.vmOf s = (.ok s.vm, s))).trans (Decode.bind_of_ok (hrecord _ _))
    refine ⟨_, _, hrun, ⟨(s.vm.klasses kls).nslots + idxN, 0, 0 + s.erase.cur.length⟩, ?_, ?_, ?_⟩
    · exact mem_append_right _ (mem_singleton.mpr rfl)
    · rw [hsound.klasses]
      rfl
    · exact zero_add _
  | bytes =>
    have hrun : Decoder.allocObject kls idxN .bytes s = _ :=
      (Decode.bind_of_ok (rfl : Decoder.vmOf s = (.ok s.vm, s))).trans (Decode.bind_of_ok (hrecord _ _))
    refine ⟨_, _, hrun, ⟨(s.vm.klasses kls).nslots, idxN, 0 + s.erase.cur.length⟩, ?_, ?_, ?_⟩
    · exact mem_append_right _ (mem_singleton.mpr rfl)
    · rw [hsound.klasses]
    · exact zero_add _

theorem Follows.run {α : Type} {x : Decode α} {y : Unpickle α} {a : α}
    (h : Follows w bytes u x y) (hy : y u = .ok (a, t)) (hs : s.erase = u) (hsound : Sound w bytes s) :
    ∃ s', x s = (.ok a, s') ∧ s'.erase = t ∧ Sound w bytes s' := by
  obtain ⟨s', hrun, hs', hon, -⟩ := (h s hs hsound).1 a t hy
  exact ⟨s', hrun, hs', hon.sound⟩

theorem Follows.kept {α : Type} {x : Decode α} {y : Unpickle α}
    (h : Follows w bytes u x y) (hs : s.erase = u) (hsound : Sound w bytes s) :
    s.containers <+: (x s).2.containers := by
  obtain ⟨hok, herror⟩ := h s hs hsound
  cases hy : y u with
  | ok r =>
    obtain ⟨s', hrun, -, hon, -⟩ := hok r.1 r.2 hy
    rw [hrun]
    exact hon.kept
  | error e =>
    obtain ⟨s', hrun, hon⟩ := herror e hy
    rw [hrun]
    exact hon.kept

theorem upObject_overdraws (hw : w.WellFormed) (hsized : w.Sized) {frames depth room : Nat}
    (hframes : room < frames) (hdepth : depth + room = MAX_DEPTH)
    {kls nslots : Nat} (hlook : w.globals.lookup name = some (.klass kls)) (hsub : subkind ≠ .slots)
    (hformat : (w.klasses kls).format = subkind.format) (hslots : (w.klasses kls).nslots = nslots) (hpos : 0 < nslots)
    (hsound : Sound w bytes s)
    (hcur : s.erase.cur = writeVarint name.length ++ (name ++ (writeVarint nslots ++ (subkind.byte ::
      (writeVarint nslots ++ List.replicate nslots 0))))) :
    ∃ c ∈ (Decoder.upObject (Decoder.up frames depth) s).2.containers, c.supply < c.slots + c.bytes := by
  have hname := hsized.names name _ hlook
  have hcount := hsized.slots kls
  rw [hslots] at hcount
  obtain ⟨s₁, hrun₁, hs₁, hsound₁⟩ := (Follows.lenCapped 1).run
    (Reads.lenCapped_run (by omega) hcur (by simp)) rfl hsound
  obtain ⟨s₂, hrun₂, hs₂, hsound₂⟩ := (Follows.exact name.length).run (Reads.exact_run rfl rfl) hs₁ hsound₁
  obtain ⟨s₃, hrun₃, hs₃, hsound₃⟩ := Follows.varint.run (Reads.varint_run (by omega) rfl) hs₂ hsound₂
  obtain ⟨s₄, hrun₄, hs₄, hsound₄⟩ := Follows.u8.run (Reads.u8_run rfl) hs₃ hsound₃
  have htail : subkind.tailLength ⟨s.erase.vm, writeVarint nslots ++ List.replicate nslots 0, s.erase.table⟩ =
      .ok (nslots, ⟨s.erase.vm, List.replicate nslots 0, s.erase.table⟩) := by
    cases subkind with
    | slots => exact absurd rfl hsub
    | oops => exact Reads.lenCapped_run (by omega) rfl (by simp)
    | bytes => exact Reads.lenCapped_run (by omega) rfl (by simp)
  obtain ⟨s₅, hrun₅, hs₅, hsound₅⟩ := (Follows.tailLength subkind).run htail hs₄ hsound₄
  obtain ⟨t, hresolve, hleft⟩ := resolveKlass_passes (u := ⟨s.erase.vm, List.replicate nslots 0, s.erase.table⟩) nslots
    (hsound.globals ▸ hlook) (hsound.klasses ▸ hslots) (hsound.klasses ▸ hformat) (by simp)
  obtain ⟨s₆, hrun₆, hs₆, hsound₆⟩ := (Follows.resolveKlass name subkind (by omega)).run hresolve hs₅ hsound₅
  obtain ⟨obj, s₇, hrun₇, c, hc, hsize, hsupply⟩ := allocObject_records hsound₆ hsub kls nslots
  have hoccurs : name <:+: bytes.bytes := by
    refine IsInfix.trans ?_ hsound.within.isInfix
    rw [hcur]
    exact infix_append' _ _ _
  have hmixed : ¬ w.PlainIn bytes.bytes := by
    intro hplain
    have hzero := hplain name kls hlook hoccurs (by rw [hformat]; cases subkind <;> simp [Subkind.format] at hsub ⊢)
    omega
  have hfollow : Follows w bytes t (Decoder.allocObject kls nslots subkind) (subkind.alloc kls nslots) := by
    apply Follows.allocObject
    · rw [hslots, hleft]
      simp
    · rw [hleft]
      simp
    · intro hplain
      exact absurd hplain hmixed
  obtain ⟨⟨obj', t₇⟩, halloc⟩ : ∃ r, (subkind.alloc kls nslots : Unpickle Nat) t = .ok r := by
    cases subkind with
    | slots => exact ⟨_, rfl⟩
    | oops => exact ⟨_, rfl⟩
    | bytes => exact ⟨_, rfl⟩
  obtain ⟨s₇', hrun₇', hs₇, hsound₇⟩ := hfollow.run halloc hs₆ hsound₆
  obtain ⟨hobj, rfl⟩ : (Except.ok obj : Except Halt Nat) = .ok obj' ∧ s₇ = s₇' := by
    have := hrun₇.symm.trans hrun₇'
    exact ⟨congrArg Prod.fst this, congrArg Prod.snd this⟩
  cases hobj
  have hnslots : (t.vm.klasses kls).nslots = nslots := by
    rw [← hs₆, ← hslots]
    exact congrArg (fun k => (k kls).nslots) hsound₆.klasses
  have hshape := Follows.subkindAlloc_run halloc
  rw [hnslots] at hshape
  have hchild : ∀ u, Follows w bytes u (Decoder.up frames depth) (up room) := fun u => Follows.up hw hframes hdepth
  have hheader : Decoder.upObject (Decoder.up frames depth) s = _ :=
    (Decode.bind_of_ok hrun₁).trans ((Decode.bind_of_ok hrun₂).trans ((Decode.bind_of_ok hrun₃).trans
      (Decode.bind_of_ok hrun₄)))
  rw [Subkind.ofByte_byte] at hheader
  have hrest : Decoder.upObject (Decoder.up frames depth) s = _ :=
    hheader.trans ((Decode.bind_of_ok hrun₅).trans ((Decode.bind_of_ok hrun₆).trans (Decode.bind_of_ok hrun₇)))
  have hkept : c ∈ (Decoder.upObject (Decoder.up frames depth) s).2.containers := by
    rw [hrest]
    exact ((Follows.filled hchild hformat hshape).kept hs₇ hsound₇).subset hc
  refine ⟨c, hkept, ?_⟩
  rw [hsize, hsupply, hs₆, hleft, hslots, length_replicate]
  omega

theorem up_object {frames depth : Nat} {s s₁ : Decoder} (hdepth : depth < MAX_DEPTH)
    (htable : s.table.length < MAX_OBJECTS) (hread : Cursor.u8 s = (.ok Tag.object.byte, s₁)) :
    Decoder.up (frames + 1) depth s = Decoder.upObject (Decoder.up frames (depth + 1)) s₁ := by
  have hobject : Decoder.upTagged (Decoder.up frames (depth + 1)) .object =
      Decoder.upObject (Decoder.up frames (depth + 1)) := rfl
  rw [Decoder.up, if_neg (not_le.mpr hdepth), Decode.bind_of_ok (rfl : Decoder.tableOf s = (.ok s.table, s)),
    if_neg (not_le.mpr htable), Decode.bind_of_ok hread, Tag.ofByte_byte]
  exact congrFun hobject s₁

theorem overdrawn (hw : w.WellFormed) (hsized : w.Sized) {kls : Nat}
    (hlook : w.globals.lookup name = some (.klass kls)) (hsub : subkind ≠ .slots)
    (hformat : (w.klasses kls).format = subkind.format) (hpos : 0 < (w.klasses kls).nslots)
    (hsmall : (mixedMessage name (w.klasses kls).nslots subkind).length < 2 ^ 63) :
    ¬ Total w ⟨mixedMessage name (w.klasses kls).nslots subkind, hsmall⟩ := by
  rintro ⟨-, -, htotal⟩
  have hsound : Sound w ⟨mixedMessage name (w.klasses kls).nslots subkind, hsmall⟩
      ⟨w, ⟨mixedMessage name (w.klasses kls).nslots subkind, MAGIC.length⟩, [], []⟩ :=
    ⟨rfl, by simp [mixedMessage], rfl, rfl, rfl, fun _ c hc => absurd hc not_mem_nil⟩
  obtain ⟨s₁, hrun₁, hs₁, hsound₁⟩ := Follows.u8.run (Reads.u8_run (drop_left ..)) rfl hsound
  obtain ⟨c, hc, hlack⟩ := upObject_overdraws hw hsized (show MAX_DEPTH - 1 < MAX_DEPTH by decide)
    (show 1 + (MAX_DEPTH - 1) = MAX_DEPTH by decide) hlook hsub hformat rfl hpos hsound₁ (by rw [hs₁])
  have hrun : decode (MAX_DEPTH + 1) w ⟨mixedMessage name (w.klasses kls).nslots subkind, hsmall⟩ =
      Decoder.upObject (Decoder.up MAX_DEPTH 1) s₁ := by
    unfold decode
    rw [if_neg (by simp [mixedMessage])]
    exact up_object (by decide) (succ_pos _) hrun₁
  rw [hrun] at htotal
  exact absurd (htotal c hc) (not_le.mpr hlack)

/-- Every message is decoded within its bounds exactly when no class with an indexable tail that a
name is bound to has named slots. -/
theorem total_iff {w : Vm} (hw : w.WellFormed) (hsized : w.Sized) : (∀ bytes, Total w bytes) ↔ w.PlainIndexables := by
  constructor
  · intro htotal name kls hlook hformat
    by_contra hslots
    have hsub : ∃ subkind : Subkind, subkind ≠ .slots ∧ (w.klasses kls).format = subkind.format := by
      rcases mem_cons.mp hformat with h | h
      · exact ⟨.oops, by decide, h⟩
      · exact ⟨.bytes, by decide, mem_singleton.mp h⟩
    obtain ⟨subkind, hsub, hformat⟩ := hsub
    have hsmall := mixedMessage_length (hsized.names name _ hlook) (hsized.slots kls) subkind
    exact overdrawn hw hsized hlook hsub hformat (by omega) hsmall (htotal _)
  · exact fun hplain bytes => total_of_plainIn hw (hplain.plainIn bytes.bytes)

theorem plainVm_sized : plainVm.Sized where
  names name g h := by
    have hcases : ∀ e ∈ plainVm.globals, e.1.length < 2 ^ 61 := by decide
    obtain ⟨l, r, hsplit, -⟩ := lookup_eq_some_iff.mp h
    apply hcases (name, g)
    rw [hsplit]
    simp
  slots k := by
    unfold plainVm
    dsimp only
    split <;> decide

theorem total_iff_plainVm : (∀ bytes, Total plainVm bytes) ↔ plainVm.PlainIndexables :=
  total_iff plainVm_wellFormed plainVm_sized

/-- A record of Alien, which has two named slots and bytes: two of each with two bytes left. -/
theorem alien_overdrawn :
    ¬ Total plainVm ⟨[77, 79, 80, 1, 11, 5, 65, 108, 105, 101, 110, 2, 2, 2, 0, 0], by decide⟩ := by
  have hformat : (plainVm.klasses 10).format = Subkind.bytes.format := rfl
  have hlook : plainVm.globals.lookup [65, 108, 105, 101, 110] = some (.klass 10) := rfl
  exact overdrawn plainVm_wellFormed plainVm_sized hlook (by decide) hformat (by decide) (by decide)

end WinArmVm.Mop
