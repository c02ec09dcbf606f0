import WinArmVm.MopSteady

namespace WinArmVm.Mop

open List

theorem except_bind_ok {ε α β : Type} {x : Except ε α} {f : α → Except ε β} {b : β} :
    x >>= f = .ok b ↔ ∃ a, x = .ok a ∧ f a = .ok b := by
  cases x with
  | error e =>
    constructor
    · intro h
      cases h
    · rintro ⟨a, h, -⟩
      cases h
  | ok a =>
    constructor
    · intro h
      exact ⟨a, rfl, h⟩
    · rintro ⟨a', h, hf⟩
      cases h
      exact hf

/-- On input that begins with `enc`, the step reads all of `enc` and no more, or fails for a reason
other than a lack of input. -/
def Reads {α : Type} (enc : List UInt8) (x : Unpickle α) : Prop :=
  ∀ s rest, s.cur = enc ++ rest → (∀ a s', x s = .ok (a, s') → s'.cur = rest) ∧ x s ≠ .error .truncated

namespace Reads

variable {α β : Type} {enc : List UInt8}

theorem pure (a : α) : Reads [] (pure a : Unpickle α) := by
  intro s rest hcur
  refine ⟨fun b s' h => ?_, fun h => by cases h⟩
  obtain ⟨-, rfl⟩ := pure_ok h
  exact hcur

theorem throw {e : UnpickleErr} (he : e ≠ .truncated) : Reads enc (throw e : Unpickle α) := by
  intro s rest _
  refine ⟨fun a s' h => (throw_ok h).elim, fun h => ?_⟩
  cases h
  exact he rfl

variable {s : UnpickleState} {f : Nat → Unpickle β} {rest : List UInt8} {x : Unpickle α}

theorem bind {enc' : List UInt8} {f : α → Unpickle β} (hx : Reads enc x)
    (hf : ∀ a, Reads enc' (f a)) : Reads (enc ++ enc') (x >>= f) := by
  intro s rest hcur
  rw [append_assoc] at hcur
  obtain ⟨hread, hlack⟩ := hx s (enc' ++ rest) hcur
  constructor
  · intro b s' h
    obtain ⟨a, s₁, ha, hb⟩ := bind_ok.mp h
    exact (hf a s₁ rest (hread a s₁ ha)).1 b s' hb
  · intro h
    rcases bind_error.mp h with he | ⟨a, s₁, ha, he⟩
    · exact hlack he
    · exact (hf a s₁ rest (hread a s₁ ha)).2 he

theorem after {f : α → Unpickle β} (hx : Reads [] x) (hf : ∀ a, Reads enc (f a)) : Reads enc (x >>= f) := hx.bind hf

theorem get {f : UnpickleState → Unpickle β} (hf : ∀ s, Reads enc (f s)) :
    Reads enc ((Builds.read get : Unpickle UnpickleState) >>= f) := by
  intro s rest hcur
  rw [read_get_bind]
  exact hf s s rest hcur

theorem beside (hx : ∀ s, ∃ a s', x s = .ok (a, s') ∧ s'.cur = s.cur) : Reads [] x := by
  intro s rest hcur
  obtain ⟨a, s', h, hsame⟩ := hx s
  constructor
  · intro b s'' hb
    cases h.symm.trans hb
    exact hsame.trans hcur
  · intro he
    cases h.symm.trans he

theorem alloc (m : Object) : Reads [] (Unpickle.alloc m) := beside fun _ => ⟨_, _, rfl, rfl⟩

theorem store (a : Nat) (st : Store) : Reads [] (Builds.store a st : Unpickle Unit) := beside fun _ => ⟨_, _, rfl, rfl⟩

theorem tablePush (a : Nat) : Reads [] (tablePush a) := beside fun _ => ⟨_, _, rfl, rfl⟩

theorem intern (bytes : List UInt8) : Reads [] (Unpickle.intern bytes) := by
  unfold Unpickle.intern
  refine get fun s => ?_
  split
  · exact pure _
  · apply (alloc _).after
    intro a
    refine after ?_ fun _ => pure a
    exact beside fun _ => ⟨_, _, rfl, rfl⟩

theorem u8_run {b : UInt8} (hcur : s.cur = b :: rest) : Mop.u8 s = .ok (b, { s with cur := rest }) := by
  unfold Mop.u8
  rw [hcur]

theorem u8 {f : UInt8 → Unpickle β} (b : UInt8) (hf : Reads enc (f b)) : Reads (b :: enc) (u8 >>= f) := by
  intro s rest hcur
  have hread : Mop.u8 s = .ok (b, { s with cur := enc ++ rest }) := u8_run hcur
  show (∀ a s', Except.bind (Mop.u8 s) _ = _ → _) ∧ Except.bind (Mop.u8 s) _ ≠ _
  rw [hread]
  exact hf _ rest rfl

theorem exact_run {bytes rest : List UInt8} {n : Nat} (hcur : s.cur = bytes ++ rest)
    (hn : n = bytes.length) : Mop.exact n s = .ok (bytes, { s with cur := rest }) := by
  unfold Mop.exact
  rw [hcur, hn, if_neg (by simp), take_left, drop_left]

theorem exact {f : List UInt8 → Unpickle β} (bytes : List UInt8) (hf : Reads enc (f bytes)) {n : Nat}
    (hn : n = bytes.length) : Reads (bytes ++ enc) (exact n >>= f) := by
  intro s rest hcur
  rw [append_assoc] at hcur
  have hread : Mop.exact n s = .ok (bytes, { s with cur := enc ++ rest }) := exact_run hcur hn
  show (∀ a s', Except.bind (Mop.exact n s) _ = _ → _) ∧ Except.bind (Mop.exact n s) _ ≠ _
  rw [hread]
  exact hf _ rest rfl

theorem varint_run {v : Nat} (hv : v < 2 ^ 64)
    (hcur : s.cur = writeVarint v ++ rest) : Mop.varint s = .ok (v, { s with cur := rest }) := by
  unfold Mop.varint
  rw [hcur, writeVarint, Varint.read_write hv]

theorem varint {v : Nat} (hv : v < 2 ^ 64) (hf : Reads enc (f v)) : Reads (writeVarint v ++ enc) (varint >>= f) := by
  intro s rest hcur
  rw [append_assoc] at hcur
  show (∀ a s', Except.bind (Mop.varint s) _ = _ → _) ∧ Except.bind (Mop.varint s) _ ≠ _
  rw [varint_run hv hcur]
  exact hf _ rest rfl

theorem lenCapped_run {k n : Nat} (hn : n < 2 ^ 64)
    (hcur : s.cur = writeVarint n ++ rest) (hle : n * max k 1 ≤ rest.length) :
    Mop.lenCapped k s = .ok (n, { s with cur := rest }) := by
  apply bind_ok.mpr
  refine ⟨n, _, varint_run hn hcur, ?_⟩
  rw [get_bind, if_neg (Nat.not_lt.mpr hle)]
  rfl

theorem lenCapped {k n : Nat} (hn : n < 2 ^ 64) (hle : n * max k 1 ≤ enc.length)
    (hf : Reads enc (f n)) : Reads (writeVarint n ++ enc) (lenCapped k >>= f) := by
  intro s rest hcur
  rw [append_assoc] at hcur
  have hread : Mop.lenCapped k s = .ok (n, { s with cur := enc ++ rest }) :=
    lenCapped_run hn hcur (by rw [length_append]; omega)
  show (∀ a s', Except.bind (Mop.lenCapped k s) _ = _ → _) ∧ Except.bind (Mop.lenCapped k s) _ ≠ _
  rw [hread]
  exact hf _ rest rfl

theorem allocSlots (k : Nat) : Reads [] (allocSlots k : Unpickle Nat) := get fun _ => alloc _

theorem allocIndexableOops (k n : Nat) : Reads [] (allocIndexableOops k n : Unpickle Nat) := get fun _ => alloc _

theorem allocIndexableBytes (k n : Nat) : Reads [] (allocIndexableBytes k n : Unpickle Nat) := get fun _ => alloc _

theorem subkindAlloc (kls idxN : Nat) : ∀ subkind : Subkind, Reads [] (subkind.alloc kls idxN : Unpickle Nat)
  | .slots => allocSlots kls
  | .oops => allocIndexableOops kls idxN
  | .bytes => allocIndexableBytes kls idxN

theorem upBytes (klass n : Nat) (bytes : List UInt8) : Reads [] (upBytes klass n bytes : Unpickle Oop) := by
  apply (allocIndexableBytes klass n).after
  intro b
  apply (store b (.bytes bytes)).after
  intro _
  exact (tablePush b).after fun _ => pure (Oop.mem b)

theorem fill {child : Unpickle Oop} (put : Nat → Oop → Store) (a : Nat) : ∀ {encs : List (List UInt8)} {i n : Nat},
    (∀ e ∈ encs, Reads e child) → n = encs.length → Reads encs.flatten (fill child put a i n) := by
  intro encs
  induction encs with
  | nil =>
    intro i n _ hn
    rw [hn]
    exact pure ()
  | cons e encs ih =>
    intro i n hencs hn
    rw [hn, flatten_cons]
    apply (hencs e mem_cons_self).bind
    intro c
    apply (store a (put i c)).after
    intro _
    exact ih (fun e' he' => hencs e' (mem_cons_of_mem _ he')) rfl

theorem resolveKlass (name : List UInt8) {nslots : Nat} (subkind : Subkind) (idxN : Nat)
    (hle : nslots ≤ enc.length) (hf : ∀ k, Reads enc (f k)) :
    Reads enc ((resolveKlass name nslots subkind idxN : Unpickle Nat) >>= f) := by
  intro s rest hcur
  have hname : ∀ k s', (Mop.resolveKlass name nslots subkind idxN : Unpickle Nat) s = .ok (k, s') →
      s'.cur = enc ++ rest := by
    intro k s' h
    obtain ⟨⟨sym, hsym⟩, -⟩ := resolveKlass_run h
    exact (Reads.intern name s (enc ++ rest) hcur).1 sym s' hsym
  have hlack : (Mop.resolveKlass name nslots subkind idxN : Unpickle Nat) s ≠ .error .truncated := by
    intro h
    rcases bind_error.mp h with he | ⟨sym, s₁, hsym, h⟩
    · exact (Reads.intern name s (enc ++ rest) hcur).2 he
    · have hcur₁ : s₁.cur = enc ++ rest := (Reads.intern name s (enc ++ rest) hcur).1 sym s₁ hsym
      rw [read_get_bind] at h
      cases hlook : s₁.vm.globals.lookup name with
      | none => simp only [hlook] at h; cases h
      | some g =>
        cases g with
        | other => simp only [hlook] at h; cases h
        | klass kls =>
          simp only [hlook] at h
          split at h
          next => cases h
          next =>
            split at h
            next => cases h
            next =>
              rw [hcur₁, if_neg (by simp; omega)] at h
              cases h
  constructor
  · intro b s' h
    obtain ⟨k, s₁, hk, hb⟩ := bind_ok.mp h
    exact (hf k s₁ rest (hname k s₁ hk)).1 b s' hb
  · intro h
    rcases bind_error.mp h with he | ⟨k, s₁, hk, he⟩
    · exact hlack he
    · exact (hf k s₁ rest (hname k s₁ hk)).2 he

end Reads

def Encodes (enc : List UInt8) : Prop := 0 < enc.length ∧ ∀ room, Reads enc (up room : Unpickle Oop)

namespace Encodes

theorem tagged (tag : Tag) {enc : List UInt8} (h : ∀ room, Reads enc (upTagged (up room : Unpickle Oop) tag)) :
    Encodes (tag.byte :: enc) := by
  refine ⟨Nat.succ_pos _, fun room => ?_⟩
  cases room with
  | zero => exact Reads.throw (by decide)
  | succ room =>
    apply Reads.get
    intro s
    split
    · exact Reads.throw (by decide)
    · apply Reads.u8
      rw [Tag.ofByte_byte]
      exact h room

theorem flatten_length : ∀ {encs : List (List UInt8)}, (∀ e ∈ encs, Encodes e) → encs.length ≤ encs.flatten.length := by
  intro encs
  induction encs with
  | nil => intro _; exact Nat.le_refl _
  | cons e encs ih =>
    intro h
    have hhead := (h e mem_cons_self).1
    have htail := ih fun e' he' => h e' (mem_cons_of_mem _ he')
    rw [flatten_cons, length_append, length_cons]
    omega

theorem bytesOf {bytes : List UInt8} {k n : Nat} (size : Nat → Nat)
    {f : Universe → Nat → List UInt8 → Unpickle Oop} (hn : n < 2 ^ 64) (hk : n * max k 1 ≤ bytes.length)
    (hsize : size n = bytes.length) (hf : ∀ u n bytes, Reads [] (f u n bytes)) :
    Reads (writeVarint n ++ bytes) (do
      let n ← lenCapped k
      let bytes ← exact (size n)
      let s ← (Builds.read get : Unpickle UnpickleState)
      f s.vm.univ n bytes) := by
  apply Reads.lenCapped hn hk
  rw [← append_nil bytes]
  apply Reads.exact bytes _ hsize
  apply Reads.get
  intro s
  exact hf s.vm.univ n bytes

def Writes (s s' : PickleState) : Prop := ∃ enc, s'.out = s.out ++ enc ∧ Encodes enc

theorem push (s : PickleState) {enc : List UInt8} (h : Encodes enc) : Writes s (s.push enc) := ⟨enc, rfl, h⟩

theorem pkEach {child : Oop → PickleState → Except PickleErr PickleState}
    (hchild : ∀ o s s', child o s = .ok s' → Writes s s') : ∀ {os : List Oop} {s s' : PickleState},
    pkEach child os s = .ok s' → ∃ encs : List (List UInt8), encs.length = os.length ∧
      s'.out = s.out ++ encs.flatten ∧ ∀ e ∈ encs, Encodes e := by
  intro os
  induction os with
  | nil =>
    intro s s' h
    cases h
    exact ⟨[], rfl, by simp, fun e he => absurd he not_mem_nil⟩
  | cons o os ih =>
    intro s s' h
    obtain ⟨s₁, ho, hos⟩ := except_bind_ok.mp h
    obtain ⟨enc, hout, henc⟩ := hchild o s s₁ ho
    obtain ⟨encs, hlen, hout', hencs⟩ := ih hos
    refine ⟨enc :: encs, by rw [length_cons, length_cons, hlen], ?_, ?_⟩
    · rw [hout', hout, flatten_cons, append_assoc]
    · intro e he
      rcases mem_cons.mp he with rfl | he
      · exact henc
      · exact hencs e he

end Encodes

open Encodes (Writes)

variable {v : Vm} {m : Object} {s s' : PickleState} {maxBytes : Nat}

theorem readBytesOut_ok {bytes : List UInt8} (h : readBytesOut m = .ok bytes) : ∃ named, m.body = .bytes named bytes := by
  unfold readBytesOut at h
  split at h
  next named tail hbody =>
    cases h
    exact ⟨named, hbody⟩
  next => cases h

theorem readBytesOut_lt (hfits : m.body.Fits (v.klasses m.klass)) {bytes : List UInt8} (h : readBytesOut m = .ok bytes) :
    bytes.length < 2 ^ 64 := by
  obtain ⟨named, hbody⟩ := readBytesOut_ok h
  rw [hbody] at hfits
  exact hfits.2.2

theorem pkBytes_writes {tag : Tag} (hfits : m.body.Fits (v.klasses m.klass))
    (htag : ∀ n bytes room, n = bytes.length → n < 2 ^ 64 →
      Reads (writeVarint n ++ bytes) (upTagged (up room : Unpickle Oop) tag))
    (h : pkBytes tag m s = .ok s') : Writes s s' := by
  obtain ⟨bytes, hbytes, h⟩ := except_bind_ok.mp h
  cases h
  apply Encodes.push
  apply Encodes.tagged
  intro room
  exact htag _ _ room rfl (readBytesOut_lt hfits hbytes)

theorem reads_symbol (n : Nat) (bytes : List UInt8) (room : Nat) (hn : n = bytes.length) (hlt : n < 2 ^ 64) :
    Reads (writeVarint n ++ bytes) (upTagged (up room : Unpickle Oop) .symbol) := by
  apply Reads.lenCapped hlt (by simp; omega)
  rw [← append_nil bytes]
  apply Reads.exact bytes _ hn
  apply (Reads.intern bytes).after
  intro sym
  exact (Reads.tablePush sym).after fun _ => Reads.pure _

theorem reads_string (n : Nat) (bytes : List UInt8) (room : Nat) (hn : n = bytes.length) (hlt : n < 2 ^ 64) :
    Reads (writeVarint n ++ bytes) (upTagged (up room : Unpickle Oop) .string) :=
  Encodes.bytesOf (fun n => n) (f := fun u n => upBytes u.stringKlass n) hlt (by simp; omega) hn
    fun _ _ _ => Reads.upBytes _ _ _

theorem reads_byteArray (n : Nat) (bytes : List UInt8) (room : Nat) (hn : n = bytes.length) (hlt : n < 2 ^ 64) :
    Reads (writeVarint n ++ bytes) (upTagged (up room : Unpickle Oop) .byteArray) :=
  Encodes.bytesOf (fun n => n) (f := fun u n => upBytes u.bytearrayKlass n) hlt (by simp; omega) hn
    fun _ _ _ => Reads.upBytes _ _ _

theorem reads_floatArray (n : Nat) (bytes : List UInt8) (room : Nat) (hn : n * 8 = bytes.length) (hlt : n < 2 ^ 64) :
    Reads (writeVarint n ++ bytes) (upTagged (up room : Unpickle Oop) .floatArray) :=
  Encodes.bytesOf (fun n => n * 8) (f := fun u n => upBytes u.floatArrayKlass (n * 8)) hlt (by simp; omega) hn
    fun _ _ _ => Reads.upBytes _ _ _

theorem reads_largeInt (neg : UInt8) (n : Nat) (bytes : List UInt8) (room : Nat) (hn : n = bytes.length)
    (hlt : n < 2 ^ 64) :
    Reads (neg :: (writeVarint n ++ bytes)) (upTagged (up room : Unpickle Oop) .largeInt) := by
  apply Reads.u8
  split
  · exact Reads.throw (by simp)
  · exact Encodes.bytesOf (fun n => n)
      (f := fun u n => upBytes (if neg = 1 then u.largeNegIntKlass else u.largePosIntKlass) n) hlt (by simp; omega) hn
      fun _ _ _ => Reads.upBytes _ _ _

theorem reads_array (encs : List (List UInt8)) (hencs : ∀ e ∈ encs, Encodes e) (hlt : encs.length < 2 ^ 64) (room : Nat) :
    Reads (writeVarint encs.length ++ encs.flatten) (upTagged (up room : Unpickle Oop) .array) := by
  apply Reads.lenCapped hlt
  · rw [max_self, Nat.mul_one]
    exact Encodes.flatten_length hencs
  · apply Reads.get
    intro s
    apply (Reads.allocIndexableOops s.vm.univ.arrayKlass encs.length).after
    intro arr
    apply (Reads.tablePush arr).after
    intro _
    rw [← append_nil encs.flatten]
    apply (Reads.fill .tailOop arr (fun e he => (hencs e he).2 room) rfl).bind
    intro _
    exact Reads.pure _

theorem reads_object {name : List UInt8} {nslots : Nat} {subkind : Subkind} {named : List (List UInt8)} {tail : List UInt8}
    (hname : name.length < 2 ^ 64) (hslots : nslots < 2 ^ 64) (hlen : named.length = nslots)
    (hnamed : ∀ e ∈ named, Encodes e) (room idxN : Nat) {header : List UInt8}
    (hidx : ∀ {f : Nat → Unpickle Oop}, Reads (named.flatten ++ tail) (f idxN) →
      Reads (header ++ (named.flatten ++ tail)) (subkind.tailLength >>= f))
    (htail : ∀ obj, Reads tail (subkind.fillTail (up room : Unpickle Oop) obj idxN)) :
    Reads (writeVarint name.length ++ (name ++ (writeVarint nslots ++ (subkind.byte :: (header ++ (named.flatten ++ tail))))))
      (upTagged (up room : Unpickle Oop) .object) := by
  have hcount : nslots ≤ named.flatten.length := hlen ▸ Encodes.flatten_length hnamed
  apply Reads.lenCapped hname (by simp)
  apply Reads.exact name _ rfl
  apply Reads.varint hslots
  apply Reads.u8
  rw [Subkind.ofByte_byte]
  apply hidx
  apply Reads.resolveKlass name subkind idxN (by rw [length_append]; omega)
  intro kls
  apply (Reads.subkindAlloc kls idxN subkind).after
  intro obj
  apply (Reads.tablePush obj).after
  intro _
  apply (Reads.fill .bodyOop obj (fun e he => (hnamed e he).2 room) hlen.symm).bind
  intro _
  rw [← append_nil tail]
  apply (htail obj).bind
  intro _
  exact Reads.pure _

theorem capped_ok (h : capped maxBytes s = .ok s') : s' = s := by
  unfold capped at h
  split at h <;> cases h
  rfl

theorem pkObject_writes {child : Oop → PickleState → Except PickleErr PickleState}
    (hchild : ∀ o s s', child o s = .ok s' → Writes s s') {k : Klass} (hfits : m.body.Fits k)
    (hslots : k.nslots < 2 ^ 64) (hsize : ∀ name, k.name = some name → name.length < 2 ^ 64)
    (h : pkObject maxBytes child k m s = .ok s') : Writes s s' := by
  obtain ⟨subkind, hsub, h⟩ := except_bind_ok.mp h
  cases hname : k.name with
  | none => simp only [hname] at h; cases h
  | some name =>
    simp only [hname] at h
    have hlt := hsize name hname
    split at h
    next named hbody =>
      obtain ⟨s₁, hnamed, hcap⟩ := except_bind_ok.mp h
      rw [hbody] at hfits
      obtain ⟨encs, hlen, hout, hencs⟩ := Encodes.pkEach hchild hnamed
      refine ⟨Tag.object.byte :: (writeVarint name.length ++ (name ++ (writeVarint k.nslots ++
        (Subkind.slots.byte :: ([] ++ (encs.flatten ++ [])))))), ?_, Encodes.tagged .object fun room => ?_⟩
      · rw [capped_ok hcap, hout]
        simp [PickleState.push]
      · exact reads_object hlt hslots (hlen.trans hfits.2) hencs room 0 (fun hf => hf)
          fun _ => Reads.pure ()
    next named elements hbody =>
      obtain ⟨s₁, hnamed, h⟩ := except_bind_ok.mp h
      obtain ⟨s₂, helements, hcap⟩ := except_bind_ok.mp h
      rw [hbody] at hfits
      obtain ⟨encs, hlen, hout, hencs⟩ := Encodes.pkEach hchild hnamed
      obtain ⟨encs', hlen', hout', hencs'⟩ := Encodes.pkEach hchild helements
      refine ⟨Tag.object.byte :: (writeVarint name.length ++ (name ++ (writeVarint k.nslots ++
        (Subkind.oops.byte :: (writeVarint elements.length ++ (encs.flatten ++ encs'.flatten)))))), ?_,
        Encodes.tagged .object fun room => ?_⟩
      · rw [capped_ok hcap, hout', hout]
        simp [PickleState.push]
      · refine reads_object hlt hslots (hlen.trans hfits.2.1) hencs room elements.length (fun hf => ?_) fun obj => ?_
        · apply Reads.lenCapped hfits.2.2 _ hf
          have := Encodes.flatten_length hencs'
          rw [length_append, max_self]
          omega
        · exact Reads.fill .tailOop obj (fun e he => (hencs' e he).2 room) hlen'.symm
    next named tail hbody =>
      obtain ⟨s₁, hnamed, hcap⟩ := except_bind_ok.mp h
      rw [hbody] at hfits
      obtain ⟨encs, hlen, hout, hencs⟩ := Encodes.pkEach hchild hnamed
      refine ⟨Tag.object.byte :: (writeVarint name.length ++ (name ++ (writeVarint k.nslots ++
        (Subkind.bytes.byte :: (writeVarint tail.length ++ (encs.flatten ++ tail)))))), ?_,
        Encodes.tagged .object fun room => ?_⟩
      · rw [capped_ok hcap]
        simp [PickleState.push, hout]
      · refine reads_object hlt hslots (hlen.trans hfits.2.1) hencs room tail.length (fun hf => ?_) fun obj => ?_
        · apply Reads.lenCapped hfits.2.2 _ hf
          rw [length_append, max_self]
          omega
        · have hread : Reads (tail ++ []) (Subkind.bytes.fillTail (up room : Unpickle Oop) obj tail.length) :=
            Reads.exact tail (Reads.store obj (.bytes tail)) rfl
          rwa [append_nil] at hread
    next => cases h

theorem pkTabled_writes (hv : v.WellFormed) {child : Oop → PickleState → Except PickleErr PickleState}
    (hchild : ∀ o s s', child o s = .ok s' → Writes s s') (hfits : m.body.Fits (v.klasses m.klass))
    (h : pkTabled v maxBytes child m s = .ok s') : Writes s s' := by
  unfold pkTabled at h
  dsimp only at h
  split at h
  next => exact pkBytes_writes hfits (fun n bytes room => reads_symbol n bytes room) h
  split at h
  next => exact pkBytes_writes hfits (fun n bytes room => reads_string n bytes room) h
  split at h
  next => exact pkBytes_writes hfits (fun n bytes room => reads_byteArray n bytes room) h
  split at h
  next =>
    obtain ⟨bytes, hbytes, h⟩ := except_bind_ok.mp h
    split at h
    next => cases h
    next hragged =>
      cases h
      have hlt := readBytesOut_lt hfits hbytes
      apply Encodes.push
      apply Encodes.tagged .floatArray
      intro room
      exact reads_floatArray _ _ room (by omega) (by omega)
  split at h
  next =>
    obtain ⟨bytes, hbytes, h⟩ := except_bind_ok.mp h
    cases h
    apply Encodes.push
    apply Encodes.tagged .largeInt
    intro room
    exact reads_largeInt _ _ _ room rfl (readBytesOut_lt hfits hbytes)
  split at h
  next =>
    split at h
    next named elements hbody =>
      rw [hbody] at hfits
      obtain ⟨encs, hlen, hout, hencs⟩ := Encodes.pkEach hchild h
      refine ⟨Tag.array.byte :: (writeVarint encs.length ++ encs.flatten), ?_, Encodes.tagged .array fun room => ?_⟩
      · rw [hout, hlen]
        simp [PickleState.push]
      · exact reads_array encs hencs (hlen ▸ hfits.2.2) room
    next => cases h
  split at h
  next => cases h
  split at h
  next => cases h
  exact pkObject_writes hchild hfits (hv.slotCount _) (fun name hname => hv.nameSize hname) h

theorem zigzag_lt (i : SmallInt) : zigzag i < 2 ^ 64 := BitVec.isLt _

theorem encodes_varint (tag : Tag) {n : Nat} (hn : n < 2 ^ 64)
    (hread : ∀ room, ∃ f, upTagged (up room : Unpickle Oop) tag = varint >>= f ∧ ∀ n, Reads [] (f n)) :
    Encodes (tag.byte :: writeVarint n) := by
  apply Encodes.tagged
  intro room
  obtain ⟨f, heq, hf⟩ := hread room
  rw [heq, ← append_nil (writeVarint n)]
  exact Reads.varint hn (hf n)

theorem pk_writes (hv : v.WellFormed) (maxBytes maxObjects : Nat) : ∀ room o s s',
    pk v maxBytes maxObjects room o s = .ok s' → Writes s s' := by
  intro room
  induction room with
  | zero =>
    intro o s s' h
    cases h
  | succ room ih =>
    intro o s s' h
    unfold pk at h
    split at h
    next => cases h
    split at h
    next =>
      cases h
      exact Encodes.push s (Encodes.tagged .nil fun _ => Reads.pure _)
    next =>
      cases h
      exact Encodes.push s (Encodes.tagged .false fun _ => Reads.pure _)
    next =>
      cases h
      exact Encodes.push s (Encodes.tagged .true fun _ => Reads.pure _)
    next i =>
      cases h
      apply Encodes.push
      apply encodes_varint .smi (zigzag_lt i)
      intro room
      refine ⟨_, rfl, fun n => ?_⟩
      split
      · exact Reads.pure _
      · exact Reads.throw (by simp)
    next => cases h
    next a =>
      split at h
      next => cases h
      next m hm =>
        split at h
        next =>
          split at h
          next bits hbody =>
            cases h
            apply Encodes.push
            apply Encodes.tagged .double
            intro room
            rw [← append_nil (toLeBytes bits)]
            apply Reads.exact (toLeBytes bits) _ rfl
            exact Reads.get fun s => (Reads.alloc _).after fun d => Reads.pure (Oop.mem d)
          next => cases h
        next =>
          split at h
          next =>
            split at h
            next code _ hbody =>
              cases h
              apply Encodes.push
              apply encodes_varint .char (BitVec.isLt _)
              intro room
              refine ⟨_, rfl, fun n => ?_⟩
              split
              · apply Reads.get
                intro s
                apply (Reads.allocSlots s.vm.univ.characterKlass).after
                intro obj
                exact (Reads.store obj _).after fun _ => Reads.pure (Oop.mem obj)
              · exact Reads.throw (by simp)
            next => cases h
            next => cases h
          next =>
            split at h
            next idx _ =>
              cases h
              apply Encodes.push
              apply encodes_varint .backref (by omega)
              intro room
              refine ⟨_, rfl, fun n => ?_⟩
              apply Reads.get
              intro s
              split
              · exact Reads.throw (by simp)
              · exact Reads.pure _
            next =>
              split at h
              next => cases h
              next =>
                obtain ⟨enc, hout, henc⟩ := pkTabled_writes hv (fun o s s' => ih o s s') (hv.fits hm) h
                exact ⟨enc, hout, henc⟩

theorem unpickle_magic (w : Vm) (bytes : List UInt8) : unpickle w (MAGIC ++ bytes) =
      ((up MAX_DEPTH : Unpickle Oop) ⟨w, bytes, []⟩).map fun p => (p.1, p.2.vm) := by
  unfold unpickle
  rw [take_left, drop_left, if_neg (fun hne => hne rfl)]
  cases (up MAX_DEPTH : Unpickle Oop) ⟨w, bytes, []⟩ with
  | error e => rfl
  | ok p => rfl

/-- A cut message is refused by every receiver; what follows a whole message changes nothing about
how it is read. -/
theorem message_delimited {v : Vm} (hv : v.WellFormed) {root : Oop} {bytes : List UInt8}
    (h : pickle v root = .ok bytes) (w : Vm) :
    (∀ p t, p ++ t = bytes → t ≠ [] → ∃ e, unpickle w p = .error e) ∧
      ∀ t, unpickle w (bytes ++ t) = unpickle w bytes := by
  obtain ⟨s', hpk, h⟩ := except_bind_ok.mp h
  cases h
  obtain ⟨enc, hout, hpos, hreads⟩ := pk_writes hv _ _ _ _ _ _ hpk
  rw [hout]
  show (∀ p t, p ++ t = MAGIC ++ enc → _ → _) ∧ ∀ t, unpickle w (MAGIC ++ enc ++ t) = unpickle w (MAGIC ++ enc)
  obtain ⟨hread, hlack⟩ := hreads MAX_DEPTH ⟨w, enc, []⟩ [] (append_nil enc).symm
  constructor
  · intro p t hsplit hne
    by_cases hmagic : p.take MAGIC.length = MAGIC
    · obtain ⟨q, rfl⟩ : ∃ q, p = MAGIC ++ q := ⟨p.drop MAGIC.length, by
        conv_lhs => rw [← take_append_drop MAGIC.length p, hmagic]⟩
      rw [append_assoc] at hsplit
      have hq : q ++ t = enc := append_cancel_left hsplit
      rw [unpickle_magic]
      cases hup : (up MAX_DEPTH : Unpickle Oop) ⟨w, q, []⟩ with
      | error e => exact ⟨e, rfl⟩
      | ok r =>
        have hmore : (up MAX_DEPTH : Unpickle Oop) ⟨w, enc, []⟩ = .ok (r.1, r.2.more t) := by
          rw [← hq]
          exact (Steady.up MAX_DEPTH).ok hup t
        have hend := hread _ _ hmore
        exact absurd (append_eq_nil_iff.mp hend).2 hne
    · refine ⟨.badMagic, ?_⟩
      unfold unpickle
      rw [if_pos hmagic]
  · intro t
    rw [append_assoc, unpickle_magic, unpickle_magic]
    cases hup : (up MAX_DEPTH : Unpickle Oop) ⟨w, enc, []⟩ with
    | error e =>
      have hmore : (up MAX_DEPTH : Unpickle Oop) ⟨w, enc ++ t, []⟩ = .error e :=
        (Steady.up MAX_DEPTH).error hup (fun he => hlack (by rw [hup, he])) t
      rw [hmore]
    | ok r =>
      have hmore : (up MAX_DEPTH : Unpickle Oop) ⟨w, enc ++ t, []⟩ = .ok (r.1, r.2.more t) :=
        (Steady.up MAX_DEPTH).ok hup t
      rw [hmore]
      rfl

theorem message_delimited_nil : (∀ p t, p ++ t = [77, 79, 80, 1, 0] → t ≠ [] → ∃ e, unpickle plainVm p = .error e) ∧
      ∀ t, unpickle plainVm ([77, 79, 80, 1, 0] ++ t) = unpickle plainVm [77, 79, 80, 1, 0] :=
  message_delimited plainVm_wellFormed (rfl : pickle plainVm .nilObj = .ok [77, 79, 80, 1, 0]) plainVm

/-- A byte after the message is accepted. -/
theorem suffix_accepted : ¬ ∀ (v : Vm) (root : Oop) (bytes t : List UInt8) (w : Vm), v.WellFormed →
    pickle v root = .ok bytes → t ≠ [] → ∃ e, unpickle w (bytes ++ t) = .error e := by
  intro h
  obtain ⟨e, he⟩ := h plainVm .nilObj [77, 79, 80, 1, 0] [0] plainVm plainVm_wellFormed rfl (by simp)
  cases he

end WinArmVm.Mop
