import WinArmVm.MopForgery

namespace WinArmVm.Mop

open UnpickleState

theorem bind_error {α β : Type} {x : Unpickle α} {f : α → Unpickle β} {s : UnpickleState} {e : UnpickleErr} :
    (x >>= f) s = .error e ↔ x s = .error e ∨ ∃ a t, x s = .ok (a, t) ∧ f a t = .error e := by
  show Except.bind (x s) (fun p => f p.1 p.2) = .error e ↔ _
  cases h : x s with
  | error e' =>
    constructor
    · intro hx
      cases hx
      exact .inl rfl
    · rintro (hx | ⟨a, t, hx, -⟩)
      · cases hx
        rfl
      · cases hx
  | ok p =>
    constructor
    · intro hx
      exact .inr ⟨p.1, p.2, rfl, hx⟩
    · rintro (hx | ⟨a, t, hx, hf⟩)
      · cases hx
      · cases hx
        exact hf

def UnpickleState.more (s : UnpickleState) (t : List UInt8) : UnpickleState := { s with cur := s.cur ++ t }

variable (s : UnpickleState) (t : List UInt8)

@[simp] theorem UnpickleState.vm_more : (s.more t).vm = s.vm := rfl

@[simp] theorem UnpickleState.cur_more : (s.more t).cur = s.cur ++ t := rfl

/-- More input at the end changes nothing but a complaint that there is too little. -/
structure Steady {α : Type} (x : Unpickle α) : Prop where
  ok : ∀ {s a s'}, x s = .ok (a, s') → ∀ t, x (s.more t) = .ok (a, s'.more t)
  error : ∀ {s e}, x s = .error e → e ≠ .truncated → ∀ t, x (s.more t) = .error e

namespace Steady

variable {α β : Type}

theorem pure (a : α) : Steady (pure a : Unpickle α) where
  ok h t := by
    obtain ⟨rfl, rfl⟩ := pure_ok h
    rfl
  error h := by cases h

theorem throw (e : UnpickleErr) : Steady (throw e : Unpickle α) where
  ok h := (throw_ok h).elim
  error h _ t := by
    cases h
    rfl

theorem bind {x : Unpickle α} {f : α → Unpickle β} (hx : Steady x) (hf : ∀ a, Steady (f a)) : Steady (x >>= f) where
  ok h t := by
    obtain ⟨a, s₁, hxa, hfa⟩ := bind_ok.mp h
    exact bind_ok.mpr ⟨a, _, hx.ok hxa t, (hf a).ok hfa t⟩
  error h hne t := by
    rcases bind_error.mp h with hxe | ⟨a, s₁, hxa, hfe⟩
    · exact bind_error.mpr (.inl (hx.error hxe hne t))
    · exact bind_error.mpr (.inr ⟨a, _, hx.ok hxa t, (hf a).error hfe hne t⟩)

theorem get {f : UnpickleState → Unpickle β} (hf : ∀ s, Steady (f s)) (hsame : ∀ s t, f (s.more t) = f s) :
    Steady ((Builds.read get : Unpickle UnpickleState) >>= f) where
  ok {s b s'} h t := by
    rw [read_get_bind] at h ⊢
    rw [hsame]
    exact (hf s).ok h t
  error {s e} h hne t := by
    rw [read_get_bind] at h ⊢
    rw [hsame]
    exact (hf s).error h hne t

theorem beside (x : Unpickle α) (a : UnpickleState → α) (g : UnpickleState → UnpickleState)
    (hx : ∀ s, x s = .ok (a s, g s)) (ha : ∀ s t, a (s.more t) = a s) (hg : ∀ s t, g (s.more t) = (g s).more t) :
    Steady x where
  ok {s b s'} h t := by
    rw [hx] at h ⊢
    cases h
    rw [ha, hg]
  error {s e} h := by
    rw [hx] at h
    cases h

theorem alloc (m : Object) : Steady (Unpickle.alloc m) :=
  beside _ (fun s => s.vm.heap.length) (fun s => { s with vm := { s.vm with heap := s.vm.heap ++ [m] } })
    (fun _ => rfl) (fun _ _ => rfl) (fun _ _ => rfl)

theorem store (a : Nat) (st : Store) : Steady (Builds.store a st : Unpickle Unit) :=
  beside _ (fun _ => ()) (fun s => { s with vm := { s.vm with heap := s.vm.heap.modify a st.apply } })
    (fun _ => rfl) (fun _ _ => rfl) (fun _ _ => rfl)

theorem tablePush (a : Nat) : Steady (tablePush a) :=
  beside _ (fun _ => ()) (fun s => { s with table := s.table ++ [a] })
    (fun _ => rfl) (fun _ _ => rfl) (fun _ _ => rfl)

theorem intern (bytes : List UInt8) : Steady (Unpickle.intern bytes) := by
  unfold Unpickle.intern
  refine get (fun s => ?_) fun s t => rfl
  split
  · exact pure _
  · refine (alloc _).bind fun a => bind ?_ fun _ => pure a
    exact beside _ (fun _ => ()) (fun s => { s with vm := { s.vm with symbols := (bytes, a) :: s.vm.symbols } })
      (fun _ => rfl) (fun _ _ => rfl) (fun _ _ => rfl)

theorem u8 : Steady u8 where
  ok h t := by
    unfold Mop.u8 at h ⊢
    split at h
    next => cases h
    next b bs hcur =>
      cases h
      simp [hcur, more]
  error {s e} h hne := by
    unfold Mop.u8 at h
    split at h <;> cases h
    exact absurd rfl hne

theorem exact (n : Nat) : Steady (exact n) where
  ok {s a s'} h t := by
    unfold Mop.exact at h ⊢
    split at h
    next => cases h
    next hlen =>
      cases h
      have hle : n ≤ s.cur.length := Nat.not_lt.mp hlen
      rw [if_neg (by simp; omega)]
      simp [more, List.take_append_of_le_length hle, List.drop_append_of_le_length hle]
  error {s e} h hne := by
    unfold Mop.exact at h
    split at h <;> cases h
    exact absurd rfl hne

theorem varint : Steady varint where
  ok {s v s'} h t := by
    unfold Mop.varint at h ⊢
    split at h
    next w bs hread =>
      cases h
      rw [cur_more, (Varint.read_append t).1 hread]
      rfl
    next => cases h
    next => cases h
  error {s e} h hne t := by
    unfold Mop.varint at h ⊢
    split at h
    next => cases h
    next =>
      cases h
      exact absurd rfl hne
    next hread =>
      rw [cur_more, (Varint.read_append t).2 hread]
      exact h

theorem lenCapped (k : Nat) : Steady (lenCapped k) where
  ok {s n s'} h t := by
    obtain ⟨w, s₁, hw, h⟩ := bind_ok.mp h
    rw [get_bind] at h
    split at h
    next => cases h
    next hlen =>
      obtain ⟨rfl, rfl⟩ := pure_ok h
      refine bind_ok.mpr ⟨n, _, varint.ok hw t, ?_⟩
      rw [get_bind, if_neg (by simp; omega)]
      rfl
  error {s e} h hne t := by
    rcases bind_error.mp h with hw | ⟨w, s₁, hw, h⟩
    · exact bind_error.mpr (.inl (varint.error hw hne t))
    · rw [get_bind] at h
      split at h
      next =>
        cases h
        exact absurd rfl hne
      next => cases h

variable {child : Unpickle Oop}

theorem fill (hchild : Steady child) (put : Nat → Oop → Store) (a : Nat) : ∀ i n, Steady (fill child put a i n) := by
  intro i n
  induction n generalizing i with
  | zero => exact pure ()
  | succ n ih =>
    apply hchild.bind
    intro c
    exact (store a (put i c)).bind fun _ => ih (i + 1)

theorem allocSlots (k : Nat) : Steady (allocSlots k : Unpickle Nat) := get (fun _ => alloc _) fun _ _ => rfl

theorem allocIndexableOops (k n : Nat) : Steady (allocIndexableOops k n : Unpickle Nat) :=
  get (fun _ => alloc _) fun _ _ => rfl

theorem allocIndexableBytes (k n : Nat) : Steady (allocIndexableBytes k n : Unpickle Nat) :=
  get (fun _ => alloc _) fun _ _ => rfl

theorem upBytes (klass n : Nat) (bytes : List UInt8) : Steady (upBytes klass n bytes : Unpickle Oop) := by
  apply (allocIndexableBytes klass n).bind
  intro b
  apply (store b (.bytes bytes)).bind
  intro _
  exact (tablePush b).bind fun _ => pure (Oop.mem b)

theorem upArray (hchild : Steady child) : Steady (upArray child) := by
  apply (lenCapped 1).bind
  intro n
  apply get
  · intro s
    apply (allocIndexableOops s.vm.univ.arrayKlass n).bind
    intro arr
    apply (tablePush arr).bind
    intro _
    exact (fill hchild .tailOop arr 0 n).bind fun _ => pure (Oop.mem arr)
  · intro s t
    rfl

theorem resolveKlass (name : List UInt8) (nslots : Nat) (subkind : Subkind) (idxN : Nat) :
    Steady (resolveKlass name nslots subkind idxN : Unpickle Nat) := by
  apply (Steady.intern name).bind
  intro _
  constructor
  · intro s k s' h t
    rw [read_get_bind] at h ⊢
    rw [vm_more, cur_more]
    cases hlook : s.vm.globals.lookup name with
    | none => simp only [hlook] at h; cases h
    | some g =>
      cases g with
      | other => simp only [hlook] at h; cases h
      | klass kls =>
        simp only [hlook] at h ⊢
        split at h
        next => cases h
        next hslots =>
          split at h
          next => cases h
          next hformat =>
            split at h
            next => cases h
            next hlen =>
              obtain ⟨rfl, rfl⟩ := pure_ok h
              rw [if_neg hslots, if_neg hformat, if_neg (by simp; omega)]
              rfl
  · intro s e h hne t
    rw [read_get_bind] at h ⊢
    rw [vm_more, cur_more]
    cases hlook : s.vm.globals.lookup name with
    | none => simp only [hlook] at h ⊢; exact (throw _).error h hne t
    | some g =>
      cases g with
      | other => simp only [hlook] at h ⊢; exact (throw _).error h hne t
      | klass kls =>
        simp only [hlook] at h ⊢
        split at h
        next hslots =>
          rw [if_pos hslots]
          exact (throw _).error h hne t
        next hslots =>
          rw [if_neg hslots]
          split at h
          next hformat =>
            rw [if_pos hformat]
            exact (throw _).error h hne t
          next hformat =>
            split at h
            next =>
              cases h
              exact absurd rfl hne
            next => cases h

theorem tailLength : ∀ subkind : Subkind, Steady subkind.tailLength
  | .slots => pure 0
  | .oops => lenCapped 1
  | .bytes => lenCapped 1

theorem subkindAlloc (kls idxN : Nat) : ∀ subkind : Subkind, Steady (subkind.alloc kls idxN : Unpickle Nat)
  | .slots => allocSlots kls
  | .oops => allocIndexableOops kls idxN
  | .bytes => allocIndexableBytes kls idxN

theorem fillTail (hchild : Steady child) (obj idxN : Nat) : ∀ subkind : Subkind, Steady (subkind.fillTail child obj idxN)
  | .slots => pure ()
  | .oops => fill hchild .tailOop obj 0 idxN
  | .bytes => (exact idxN).bind fun bytes => store obj (.bytes bytes)

theorem upObject (hchild : Steady child) : Steady (upObject child) := by
  apply (lenCapped 1).bind
  intro nameLen
  apply (exact nameLen).bind
  intro name
  apply varint.bind
  intro nslots
  apply u8.bind
  intro b
  split
  next => exact throw _
  next subkind _ =>
    apply (tailLength subkind).bind
    intro idxN
    apply (resolveKlass name nslots subkind idxN).bind
    intro kls
    apply (subkindAlloc kls idxN subkind).bind
    intro obj
    apply (tablePush obj).bind
    intro _
    apply (fill hchild .bodyOop obj 0 nslots).bind
    intro _
    exact (fillTail hchild obj idxN subkind).bind fun _ => pure (Oop.mem obj)

theorem bytesOf (k : Nat) (size : Nat → Nat) {f : Universe → Nat → List UInt8 → Unpickle Oop}
    (hf : ∀ u n bytes, Steady (f u n bytes)) :
    Steady (do
      let n ← Mop.lenCapped k
      let bytes ← Mop.exact (size n)
      let s ← (Builds.read MonadState.get : Unpickle UnpickleState)
      f s.vm.univ n bytes) := by
  apply (lenCapped k).bind
  intro n
  apply (exact (size n)).bind
  intro bytes
  exact get (fun s => hf s.vm.univ n bytes) fun _ _ => rfl

theorem upTagged (hchild : Steady child) : ∀ tag, Steady (upTagged child tag)
  | .nil => pure _
  | .false => pure _
  | .true => pure _
  | .smi => by
    apply varint.bind
    intro u
    split
    · exact pure _
    · exact throw _
  | .double => by
    apply (exact 8).bind
    intro raw
    exact get (fun _ => (alloc _).bind fun d => pure (Oop.mem d)) fun _ _ => rfl
  | .char => by
    apply varint.bind
    intro code
    split
    · refine get (fun s => ?_) fun _ _ => rfl
      apply (allocSlots s.vm.univ.characterKlass).bind
      intro obj
      exact (store obj _).bind fun _ => pure (Oop.mem obj)
    · exact throw _
  | .symbol => by
    apply (lenCapped 1).bind
    intro n
    apply (exact n).bind
    intro bytes
    apply (Steady.intern bytes).bind
    intro sym
    exact (tablePush sym).bind fun _ => pure (Oop.mem sym)
  | .string => bytesOf 1 (fun n => n) (f := fun u n => Mop.upBytes u.stringKlass n) fun _ _ _ => upBytes _ _ _
  | .byteArray => bytesOf 1 (fun n => n) (f := fun u n => Mop.upBytes u.bytearrayKlass n) fun _ _ _ => upBytes _ _ _
  | .floatArray =>
    bytesOf 8 (fun n => n * 8) (f := fun u n => Mop.upBytes u.floatArrayKlass (n * 8)) fun _ _ _ => upBytes _ _ _
  | .largeInt => by
    apply u8.bind
    intro neg
    split
    · exact throw _
    · exact bytesOf 1 (fun n => n)
        (f := fun u n => Mop.upBytes (if neg = 1 then u.largeNegIntKlass else u.largePosIntKlass) n)
        fun _ _ _ => upBytes _ _ _
  | .array => upArray hchild
  | .backref => by
    apply varint.bind
    intro idx
    refine get (fun s => ?_) fun _ _ => rfl
    split
    · exact throw _
    · exact pure _
  | .object => upObject hchild

theorem up : ∀ room, Steady (up room : Unpickle Oop) := by
  intro room
  induction room with
  | zero => exact throw _
  | succ room ih =>
    refine get (fun s => ?_) fun _ _ => rfl
    split
    · exact throw _
    · apply u8.bind
      intro b
      split
      · exact throw _
      · exact upTagged ih _

end Steady

end WinArmVm.Mop
