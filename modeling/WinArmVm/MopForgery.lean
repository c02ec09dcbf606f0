import WinArmVm.MopDecode

namespace WinArmVm.Mop

open List

namespace Vm

/-- The object at an address belongs to the graph of a reference. -/
inductive Holds (v : Vm) : Oop → Nat → Prop
  | self (a : Nat) : Holds v (.mem a) a
  | child {a b : Nat} {o : Oop} : o ∈ v.children a → Holds v o b → Holds v (.mem a) b

/-- The classes `pk` refuses by themselves, whatever their instance holds. -/
def Refuses (v : Vm) (k : Nat) : Prop := k ∉ v.univ.doubleKlass :: v.univ.characterKlass :: v.univ.tagged ∧
    (k = v.univ.alienKlass ∨ k = v.univ.objcrefKlass ∨ (v.klasses k).name = none ∨
      (v.klasses k).format ∉ [Format.slots, .indexableOops, .indexableBytes])

def Allowed (v : Vm) (a : Nat) (m : Object) : Prop := ¬ v.Refuses m.klass ∧ m.klass ≠ v.univ.smiKlass ∧
    (m.klass = v.univ.symbolKlass → ∃ bs, v.symbols.lookup bs = some a ∧ m.body = .bytes [] bs)

def Unforged (v : Vm) (root : Oop) : Prop := ∀ a m, v.Holds root a → v.heap[a]? = some m → v.Allowed a m

def Forges (v : Vm) (name : List UInt8) : Prop :=
  ∃ k, v.globals.lookup name = some (.klass k) ∧ (v.Refuses k ∨ k = v.univ.smiKlass ∨ k = v.univ.symbolKlass)

end Vm

/-- The names of the classes of `n` values one after another. -/
def namesEach (child : Unpickle (List (List UInt8))) : Nat → Unpickle (List (List UInt8))
  | 0 => return []
  | n + 1 => do
    let ns ← child
    let rest ← namesEach child n
    return ns ++ rest

def namesTail (child : Unpickle (List (List UInt8))) (idxN : Nat) : Subkind → Unpickle (List (List UInt8))
  | .slots => return []
  | .oops => namesEach child idxN
  | .bytes => do
    let _ ← exact idxN
    return []

def namesTagged (child : Unpickle (List (List UInt8))) : Tag → Unpickle (List (List UInt8))
  | .nil | .false | .true => return []
  | .smi | .char | .backref => do
    let _ ← varint
    return []
  | .double => do
    let _ ← exact 8
    return []
  | .symbol | .string | .byteArray => do
    let n ← lenCapped 1
    let _ ← exact n
    return []
  | .floatArray => do
    let lanes ← lenCapped 8
    let _ ← exact (lanes * 8)
    return []
  | .largeInt => do
    let _ ← u8
    let n ← lenCapped 1
    let _ ← exact n
    return []
  | .array => do
    let n ← lenCapped 1
    namesEach child n
  | .object => do
    let nameLen ← lenCapped 1
    let name ← exact nameLen
    let nslots ← varint
    let subkind ← u8
    match Subkind.ofByte subkind with
    | none => throw (.malformed "bad object subkind")
    | some subkind =>
      let idxN ← subkind.tailLength
      let ns ← namesEach child nslots
      let rest ← namesTail child idxN subkind
      return name :: (ns ++ rest)

def names : Nat → Unpickle (List (List UInt8))
  | 0 => throw .tooDeep
  | room + 1 => do
    let tag ← u8
    match Tag.ofByte tag with
    | none => throw (.badTag tag)
    | some tag => namesTagged (names room) tag

def recordNames (v : Vm) (bytes : List UInt8) : List (List UInt8) :=
  match names MAX_DEPTH ⟨v, bytes.drop MAGIC.length, []⟩ with
  | .ok (ns, _) => ns
  | .error _ => []

/-- What was built from address `n` on, or a symbol. -/
def Own (n : Nat) (v : Vm) (o : Oop) : Prop := ∀ a, o = .mem a → n ≤ a ∨ ∃ bs, v.symbols.lookup bs = some a

/-- Everything built from address `n` on is allowed and refers to what was built, or to symbols. -/
structure Kept (n : Nat) (s : UnpickleState) : Prop where
  object : ∀ a m, n ≤ a → s.vm.heap[a]? = some m → s.vm.Allowed a m ∧
    ∀ o ∈ m.body.named ++ m.body.elements, Own n s.vm o
  table : ∀ a ∈ s.table, Own n s.vm (.mem a)

/-- A stretch of the decoder's run that answered `os` and met the class names `ns`: each object a
name stands for is in the graph of an answer. -/
structure Stretch (n : Nat) (touched : Nat → Prop) (s s' : UnpickleState) (os : List Oop)
    (ns : List (List UInt8)) : Prop where
  interned : Interned s'.vm
  grows : Grows touched s.vm s'.vm
  made : ∀ name ∈ ns, ∃ k, s.vm.globals.lookup name = some (.klass k) ∧ ∀ F, Later s.vm.heap.length s'.vm F →
    ∃ o ∈ os, ∃ b m, F.Holds o b ∧ F.heap[b]? = some m ∧ m.klass = k ∧ ∀ bs, F.symbols.lookup bs ≠ some b
  kept : s.vm.univ.special.Nodup → (∀ name ∈ ns, ¬ s.vm.Forges name) → Kept n s → Kept n s' ∧ ∀ o ∈ os, Own n s'.vm o

theorem Own.mono {n : Nat} {touched : Nat → Prop} {v w : Vm} {o : Oop} (h : Own n v o) (hg : Grows touched v w) :
    Own n w o := by
  intro a ha
  rcases h a ha with hle | ⟨bs, hbs⟩
  · exact .inl hle
  · exact .inr ⟨bs, hg.symbols bs a hbs⟩

theorem Vm.Allowed.mono {touched : Nat → Prop} {v w : Vm} {a : Nat} {m : Object} (h : v.Allowed a m)
    (hg : Grows touched v w) : w.Allowed a m := by
  unfold Vm.Allowed Vm.Refuses
  rw [hg.univ, hg.klasses]
  refine ⟨h.1, h.2.1, fun hsym => ?_⟩
  obtain ⟨bs, hbs, hbody⟩ := h.2.2 hsym
  exact ⟨bs, hg.symbols bs a hbs, hbody⟩

theorem forges_congr {touched : Nat → Prop} {v w : Vm} (hg : Grows touched v w) (name : List UInt8) :
    w.Forges name ↔ v.Forges name := by
  unfold Vm.Forges Vm.Refuses
  rw [hg.univ, hg.klasses, hg.globals]

namespace Stretch

variable {n : Nat} {touched touched' : Nat → Prop} {s s₁ s₂ : UnpickleState} {os os₁ : List Oop}
  {ns ns₁ : List (List UInt8)}

theorem mono (h : Stretch n touched s s₁ os ns) (hle : ∀ a, a < s.vm.heap.length → touched a → touched' a) :
    Stretch n touched' s s₁ os ns :=
  { h with grows := h.grows.mono hle }

theorem trans (h : Stretch n touched s s₁ os ns) (h₁ : Stretch n touched s₁ s₂ os₁ ns₁)
    (ht : ∀ a, touched a → Unsettled s.vm a) : Stretch n touched s s₂ (os ++ os₁) (ns ++ ns₁) := by
  refine ⟨h₁.interned, h.grows.trans h₁.grows, ?_, ?_⟩
  · intro name hname
    rcases mem_append.mp hname with hname | hname
    · obtain ⟨k, hk, hmade⟩ := h.made name hname
      refine ⟨k, hk, fun F hF => ?_⟩
      have hback := Later.back h₁.grows (fun a ha => ⟨(ht a ha).1, h.grows.unsettled (ht a ha)⟩) hF
      obtain ⟨o, ho, hrest⟩ := hmade F hback
      exact ⟨o, mem_append_left _ ho, hrest⟩
    · obtain ⟨k, hk, hmade⟩ := h₁.made name hname
      refine ⟨k, by rwa [h.grows.globals] at hk, fun F hF => ?_⟩
      obtain ⟨o, ho, hrest⟩ := hmade F (hF.mono h.grows.length)
      exact ⟨o, mem_append_right _ ho, hrest⟩
  · intro hdis hok hkept
    obtain ⟨hkept₁, hown⟩ := h.kept hdis (fun name hn => hok name (mem_append_left _ hn)) hkept
    have hok₁ : ∀ name ∈ ns₁, ¬ s₁.vm.Forges name := fun name hn hf =>
      hok name (mem_append_right _ hn) ((forges_congr h.grows name).mp hf)
    obtain ⟨hkept₂, hown₁⟩ := h₁.kept (by rwa [h.grows.univ]) hok₁ hkept₁
    refine ⟨hkept₂, fun o ho => ?_⟩
    rcases mem_append.mp ho with ho | ho
    · exact (hown o ho).mono h₁.grows
    · exact hown₁ o ho

theorem skip {c : List UInt8} (h : Stretch n touched ⟨s.vm, c, s.table⟩ s₁ os ns) : Stretch n touched s s₁ os ns :=
  ⟨h.interned, h.grows, h.made, fun hdis hok hkept => h.kept hdis hok ⟨hkept.object, hkept.table⟩⟩

theorem still (hint : Interned s.vm) (hvm : s₁.vm = s.vm) (htab : s₁.table = s.table)
    (hown : Kept n s → ∀ o ∈ os, Own n s.vm o) : Stretch n touched s s₁ os [] := by
  refine ⟨by rwa [hvm], by rw [hvm]; exact Grows.refl _ _, fun name hn => absurd hn not_mem_nil, ?_⟩
  intro _ _ hkept
  refine ⟨⟨fun a m ha hm => ?_, fun a ha => ?_⟩, fun o ho => ?_⟩
  · rw [hvm] at hm ⊢
    exact hkept.object a m ha hm
  · rw [hvm]
    exact hkept.table a (by rwa [htab] at ha)
  · rw [hvm]
    exact hown hkept o ho

variable {s' : UnpickleState} {m : Object}

theorem Kept.alloc (h : Kept n s) (hvm : s'.vm = { s.vm with heap := s.vm.heap ++ [m] }) (hn : n ≤ s.vm.heap.length)
    (htab : ∀ a ∈ s'.table, a ∈ s.table ∨ a = s.vm.heap.length) (hall : s.vm.Allowed s.vm.heap.length m)
    (hkids : ∀ o ∈ m.body.named ++ m.body.elements, ∀ a, o ≠ .mem a) : Kept n s' := by
  refine ⟨fun a m' ha hm => ?_, fun a ha => ?_⟩
  · rw [hvm] at hm ⊢
    rcases Nat.lt_or_ge a s.vm.heap.length with hlt | hge
    · rw [show ({ s.vm with heap := s.vm.heap ++ [m] } : Vm).heap[a]? = s.vm.heap[a]? from
        List.getElem?_append_left hlt] at hm
      exact h.object a m' ha hm
    · have hlen := (List.getElem?_eq_some_iff.mp hm).1
      rw [show ({ s.vm with heap := s.vm.heap ++ [m] } : Vm).heap.length = s.vm.heap.length + 1 from by simp] at hlen
      obtain rfl : a = s.vm.heap.length := by omega
      have hm' : some m = some m' := List.getElem?_concat_length.symm.trans hm
      cases hm'
      exact ⟨hall, fun o ho b hb => absurd hb (hkids o ho b)⟩
  · rw [hvm]
    rcases htab a ha with hold | rfl
    · exact h.table a hold
    · intro b hb
      cases hb
      exact .inl hn

theorem fresh (hint : Interned s.vm) (hn : n ≤ s.vm.heap.length) (hvm : s'.vm = { s.vm with heap := s.vm.heap ++ [m] })
    (htab : ∀ a ∈ s'.table, a ∈ s.table ∨ a = s.vm.heap.length)
    (hall : s.vm.univ.special.Nodup → s.vm.Allowed s.vm.heap.length m)
    (hkids : ∀ o ∈ m.body.named ++ m.body.elements, ∀ a, o ≠ .mem a) :
    Stretch n touched s s' [.mem s.vm.heap.length] [] := by
  refine ⟨by rw [hvm]; exact hint.alloc m, by rw [hvm]; exact Grows.alloc _ _ _,
    fun name hname => absurd hname not_mem_nil, fun hdis _ hkept => ⟨?_, fun o ho b hb => ?_⟩⟩
  · exact Kept.alloc hkept hvm hn htab (hall hdis) hkids
  · rw [mem_singleton.mp ho] at hb
    cases hb
    exact .inl hn

theorem store {a : Nat} (h : Stretch n (· = a) s s₁ os ns) (ha : Unsettled s.vm a) {f : Object → Object}
    (hf : ∀ m : Object, (f m).klass = m.klass ∧
      ∀ o ∈ (f m).body.named ++ (f m).body.elements, o ∈ m.body.named ++ m.body.elements ∨ o ∈ os)
    (hvm : s₂.vm = { s₁.vm with heap := s₁.vm.heap.modify a f }) (htab : s₂.table = s₁.table) :
    Stretch n (· = a) s s₂ os ns := by
  have ha₁ : Unsettled s₁.vm a := h.grows.unsettled ha
  have hup : Grows (· = a) s₁.vm s₂.vm := by
    rw [hvm]
    exact Grows.update s₁.vm a f
  refine ⟨by rw [hvm]; exact h.interned.update ha₁ f, h.grows.trans hup, ?_, ?_⟩
  · intro name hname
    obtain ⟨k, hk, hmade⟩ := h.made name hname
    exact ⟨k, hk, fun F hF => hmade F (Later.back hup (fun b hb => by subst hb; exact ⟨ha.1, ha₁⟩) hF)⟩
  · intro hdis hok hkept
    obtain ⟨hkept₁, hown⟩ := h.kept hdis hok hkept
    refine ⟨⟨fun b m hb hm => ?_, fun b hb => ?_⟩, fun o ho => (hown o ho).mono hup⟩
    · rw [hvm] at hm
      rw [show ({ s₁.vm with heap := s₁.vm.heap.modify a f } : Vm).heap[b]? = _ from getElem?_modify ..] at hm
      obtain ⟨m₀, hm₀, hif⟩ := Option.map_eq_some_iff.mp hm
      obtain ⟨hall, hkids⟩ := hkept₁.object b m₀ hb hm₀
      split at hif
      next heq =>
        subst heq
        subst hif
        refine ⟨?_, fun o ho => ?_⟩
        · have hall' := hall.mono hup
          refine ⟨by rw [(hf m₀).1]; exact hall'.1, by rw [(hf m₀).1]; exact hall'.2.1, fun hsym => ?_⟩
          obtain ⟨bs, hbs, -⟩ := hall.2.2 (by rw [← (hf m₀).1, hsym, hup.univ])
          exact absurd hbs (ha₁.2 bs)
        · rcases (hf m₀).2 o ho with hold | hnew
          · exact (hkids o hold).mono hup
          · exact (hown o hnew).mono hup
      next =>
        subst hif
        exact ⟨hall.mono hup, fun o ho => (hkids o ho).mono hup⟩
    · rw [htab] at hb
      exact (hkept₁.table b hb).mono hup

theorem container (extra : List (List UInt8)) (hint : Interned s.vm)
    (hn : n ≤ s.vm.heap.length) (h : Stretch n (· = s.vm.heap.length) (s.opened m) s' os ns)
    (hall : s.vm.univ.special.Nodup → (∀ name ∈ extra, ¬ s.vm.Forges name) → s.vm.Allowed s.vm.heap.length m)
    (hkids : ∀ o ∈ m.body.named ++ m.body.elements, ∀ a, o ≠ .mem a)
    (hend : ∃ m', s'.vm.heap[s.vm.heap.length]? = some m' ∧ m'.klass = m.klass ∧
      ∀ o ∈ os, o ∈ m'.body.named ++ m'.body.elements)
    (hextra : ∀ name ∈ extra, s.vm.globals.lookup name = some (.klass m.klass)) :
    Stretch n (fun _ => False) s s' [.mem s.vm.heap.length] (extra ++ ns) := by
  have hopen : s.vm.heap.length < (s.opened m).vm.heap.length := by
    show _ < (s.vm.heap ++ [m]).length
    simp
  have hgrow : Grows (fun _ => False) s.vm s'.vm :=
    ((Grows.alloc _ s.vm m).trans h.grows).mono fun b hb heq => absurd heq (Nat.ne_of_lt hb)
  obtain ⟨m', hm', hklass, hmem⟩ := hend
  have hself : ∀ F, Later s.vm.heap.length s'.vm F → F.heap[s.vm.heap.length]? = some m' := by
    intro F hF
    rw [hF.heap _ (Nat.lt_of_lt_of_le hopen h.grows.length) fun hx => Nat.lt_irrefl _ hx.1]
    exact hm'
  refine ⟨h.interned, hgrow, ?_, ?_⟩
  · intro name hname
    rcases mem_append.mp hname with hname | hname
    · refine ⟨m.klass, hextra name hname, fun F hF => ?_⟩
      refine ⟨_, mem_singleton.mpr rfl, s.vm.heap.length, m', .self _, hself F hF, hklass, fun bs hbs => ?_⟩
      have hun : Unsettled s'.vm s.vm.heap.length := h.grows.unsettled (hint.unsettled_next m)
      rcases hF.fresh bs _ hbs with hold | hge
      · exact hun.2 bs hold
      · exact Nat.not_le.mpr hun.1 hge
    · obtain ⟨k, hk, hmade⟩ := h.made name hname
      refine ⟨k, hk, fun F hF => ?_⟩
      obtain ⟨o, ho, b, mb, hholds, hrest⟩ := hmade F (hF.mono hopen.le)
      refine ⟨_, mem_singleton.mpr rfl, b, mb, .child ?_ hholds, hrest⟩
      unfold Vm.children
      rw [hself F hF]
      exact hmem o ho
  · intro hdis hok hkept
    have hok₁ : ∀ name ∈ ns, ¬ (s.opened m).vm.Forges name := fun name hname hf =>
      hok name (mem_append_right _ hname) hf
    have hkept₁ : Kept n (s.opened m) := by
      apply Kept.alloc hkept rfl hn _ (hall hdis fun name hname => hok name (mem_append_left _ hname)) hkids
      intro a ha
      rcases mem_append.mp ha with ha | ha
      · exact .inl ha
      · exact .inr (mem_singleton.mp ha)
    refine ⟨(h.kept hdis hok₁ hkept₁).1, fun o ho b hb => ?_⟩
    rw [mem_singleton.mp ho] at hb
    cases hb
    exact .inl hn

end Stretch

def Decodes (n : Nat) (child : Unpickle Oop) (scan : Unpickle (List (List UInt8))) : Prop :=
  ∀ s o s', Interned s.vm → n ≤ s.vm.heap.length → child s = .ok (o, s') →
    ∃ ns, (∀ v t, scan ⟨v, s.cur, t⟩ = .ok (ns, ⟨v, s'.cur, t⟩)) ∧ Stretch n (fun _ => False) s s' [o] ns

section fill

variable {n : Nat} {child : Unpickle Oop} {scan : Unpickle (List (List UInt8))} {put : Nat → Oop → Store}

structure Puts (put : Nat → Oop → Store) : Prop where
  klass : ∀ i o m, ((put i o).apply m).klass = m.klass
  kids : ∀ i o m, ∀ x ∈ ((put i o).apply m).body.named ++ ((put i o).apply m).body.elements,
    x ∈ m.body.named ++ m.body.elements ∨ x = o

theorem puts_bodyOop : Puts Store.bodyOop := by
  refine ⟨Object.klass_setBodyOop, fun i o m x hx => ?_⟩
  change x ∈ (m.setBodyOop i o).body.named ++ (m.setBodyOop i o).body.elements at hx
  rw [Object.named_setBodyOop, Object.elements_setBodyOop] at hx
  rcases mem_append.mp hx with hx | hx
  · rcases mem_or_eq_of_mem_set hx with hx | hx
    · exact .inl (mem_append_left _ hx)
    · exact .inr hx
  · exact .inl (mem_append_right _ hx)

theorem puts_tailOop : Puts Store.tailOop := by
  refine ⟨Object.klass_atPut, fun i o m x hx => ?_⟩
  change x ∈ (m.atPut i o).body.named ++ (m.atPut i o).body.elements at hx
  rw [Object.named_atPut, Object.elements_atPut] at hx
  rcases mem_append.mp hx with hx | hx
  · exact .inl (mem_append_left _ hx)
  · rcases mem_or_eq_of_mem_set hx with hx | hx
    · exact .inl (mem_append_right _ hx)
    · exact .inr hx

theorem fill_spec (hchild : Decodes n child scan) (hput : Puts put) {a : Nat} : ∀ {k i : Nat} {s s' : UnpickleState},
    Interned s.vm → n ≤ s.vm.heap.length → Unsettled s.vm a → fill child put a i k s = .ok ((), s') →
    ∃ os ns, os.length = k ∧ (∀ v t, namesEach scan k ⟨v, s.cur, t⟩ = .ok (ns, ⟨v, s'.cur, t⟩)) ∧
      Stretch n (· = a) s s' os ns ∧ s'.vm.heap[a]? = s.vm.heap[a]?.map (putAll (fun i o => (put i o).apply) i os) := by
  intro k
  induction k with
  | zero =>
    intro i s s' hint _ _ h
    obtain ⟨-, rfl⟩ := pure_ok h
    refine ⟨[], [], rfl, fun _ _ => rfl, .still hint rfl rfl (fun _ o ho => absurd ho not_mem_nil), ?_⟩
    show _ = s'.vm.heap[a]?.map fun m => m
    rw [Option.map_id']
  | succ k ih =>
    intro i s s' hint hn ha h
    obtain ⟨c, s₁, hc, h⟩ := bind_ok.mp h
    obtain ⟨u, s₂, hup, hrest⟩ := bind_ok.mp h
    cases hup
    obtain ⟨ns, hscan, hfirst⟩ := hchild s c s₁ hint hn hc
    have hstored : Stretch n (· = a) s { s₁ with vm := { s₁.vm with heap := s₁.vm.heap.modify a (put i c).apply } } [c] ns := by
      refine Stretch.store (f := (put i c).apply) (hfirst.mono fun _ _ hx => hx.elim) ha (fun m => ?_) rfl rfl
      refine ⟨hput.klass i c m, fun x hx => ?_⟩
      rcases hput.kids i c m x hx with hold | heq
      · exact .inl hold
      · exact .inr (mem_singleton.mpr heq)
    have hn₂ := Nat.le_trans hn hstored.grows.length
    obtain ⟨os, ns', hlen, hscan', hstretch, hheap⟩ := ih hstored.interned hn₂ (hstored.grows.unsettled ha) hrest
    refine ⟨c :: os, ns ++ ns', by rw [length_cons, hlen], fun v t => ?_, ?_, ?_⟩
    · exact bind_ok.mpr ⟨ns, _, hscan v t, bind_ok.mpr ⟨ns', _, hscan' v t, rfl⟩⟩
    · exact hstored.trans hstretch fun b hb => by subst hb; exact ha
    · have hat : s₁.vm.heap[a]? = s.vm.heap[a]? := hfirst.grows.heap a ha.1 fun hx => hx
      rw [hheap]
      show (s₁.vm.heap.modify a (put i c).apply)[a]?.map _ = _
      rw [getElem?_modify, hat]
      cases s.vm.heap[a]? with
      | none => rfl
      | some m => simp [putAll]

end fill

namespace Universe

theorem tagged_special {u : Universe} (h : u.special.Nodup) {k : Nat} (hk : k ∈ u.tagged) :
    k ≠ u.smiKlass ∧ k ≠ u.doubleKlass ∧ k ≠ u.characterKlass := by
  unfold special at h
  have hmem : k ∈ u.tagged ++ [u.alienKlass, u.objcrefKlass] := mem_append_left _ hk
  rw [nodup_cons, nodup_cons, nodup_cons] at h
  obtain ⟨h₁, h₂, h₃, -⟩ := h
  refine ⟨?_, ?_, ?_⟩
  · rintro rfl
    exact h₁ (mem_cons_of_mem _ (mem_cons_of_mem _ hmem))
  · rintro rfl
    exact h₂ (mem_cons_of_mem _ hmem)
  · rintro rfl
    exact h₃ hmem

theorem symbol_special {u : Universe} (h : u.special.Nodup) :
    u.symbolKlass ∉ [u.stringKlass, u.bytearrayKlass, u.floatArrayKlass, u.largePosIntKlass, u.largeNegIntKlass,
      u.arrayKlass, u.doubleKlass, u.characterKlass, u.smiKlass] := by
  simp only [special, tagged, byteKlasses, cons_append, nil_append, nodup_cons, mem_cons,
    not_mem_nil, or_false, not_or] at h ⊢
  obtain ⟨⟨-, -, h₁, -⟩, ⟨-, h₂, -⟩, ⟨h₃, -⟩, ⟨h₄, h₅, h₆, h₇, h₈, h₉, -⟩, -⟩ := h
  exact ⟨h₄, h₅, h₆, h₇, h₈, h₉, Ne.symm h₂, Ne.symm h₃, Ne.symm h₁⟩

end Universe

variable {s : UnpickleState} {m : Object} {a : Nat} {n : Nat} {v : Vm}

theorem allowed_tagged (hdis : v.univ.special.Nodup)
    (hk : m.klass ∈ [v.univ.stringKlass, v.univ.bytearrayKlass, v.univ.floatArrayKlass, v.univ.largePosIntKlass,
      v.univ.largeNegIntKlass, v.univ.arrayKlass]) : v.Allowed a m := by
  have htag : m.klass ∈ v.univ.tagged := by
    exact mem_cons_of_mem _ hk
  refine ⟨fun href => href.1 ?_, (Universe.tagged_special hdis htag).1, fun hsym => absurd ?_ (Universe.symbol_special hdis)⟩
  · exact mem_cons_of_mem _ (mem_cons_of_mem _ htag)
  · rw [hsym] at hk
    exact mem_append_left [v.univ.doubleKlass, v.univ.characterKlass, v.univ.smiKlass] hk

theorem allowed_boxed (hdis : v.univ.special.Nodup)
    (hk : m.klass = v.univ.doubleKlass ∨ m.klass = v.univ.characterKlass) : v.Allowed a m := by
  refine ⟨fun href => href.1 ?_, ?_, fun hsym => absurd ?_ (Universe.symbol_special hdis)⟩
  · rcases hk with hk | hk
    · exact hk ▸ mem_cons_self
    · exact hk ▸ mem_cons_of_mem _ mem_cons_self
  · unfold Universe.special at hdis
    rw [nodup_cons, mem_cons, mem_cons, not_or, not_or] at hdis
    rcases hk with hk | hk
    · rw [hk]
      exact Ne.symm hdis.1.1
    · rw [hk]
      exact Ne.symm hdis.1.2.1
  · rcases hk with hk | hk
    · simp [← hsym, hk]
    · simp [← hsym, hk]

section tags

variable {n : Nat} {child : Unpickle Oop} {scan : Unpickle (List (List UInt8))}

theorem Consumes.step {α : Type} {x : Unpickle α} (hx : Consumes x) {s s' : UnpickleState} {a : α}
    (h : x s = .ok (a, s')) : ∃ c, s' = ⟨s.vm, c, s.table⟩ ∧ ∀ v t, x ⟨v, s.cur, t⟩ = .ok (a, ⟨v, c, t⟩) := by
  obtain ⟨hvm, htab, hrun⟩ := hx s a s' h
  refine ⟨s'.cur, ?_, hrun⟩
  rw [← hvm, ← htab]

variable {ns : List (List UInt8)} {nslots idxN kls : Nat} {bytes : List UInt8} {x : Unpickle Oop} {os : List Oop} {m : Object}
  {o : Oop} {k : Nat}

theorem decodes_still (hx : Consumes x)
    (hscan : ∀ s o s', x s = .ok (o, s') → ∀ v t, scan ⟨v, s.cur, t⟩ = .ok ([], ⟨v, s'.cur, t⟩))
    (ho : ∀ s o s', x s = .ok (o, s') → ∀ a, o ≠ .mem a) : Decodes n x scan := by
  intro s o s' hint _ h
  obtain ⟨hvm, htab, -⟩ := hx s o s' h
  refine ⟨[], hscan s o s' h, .still hint hvm htab fun _ o' ho' a ha => ?_⟩
  rw [mem_singleton.mp ho'] at ha
  exact absurd ha (ho s o s' h a)

variable {s s' : UnpickleState} {subkind : Subkind} {name : List UInt8}

theorem upBytes_spec {klass size : Nat} (hint : Interned s.vm) (hn : n ≤ s.vm.heap.length)
    (hk : klass ∈ [s.vm.univ.stringKlass, s.vm.univ.bytearrayKlass, s.vm.univ.floatArrayKlass,
      s.vm.univ.largePosIntKlass, s.vm.univ.largeNegIntKlass])
    (h : (upBytes klass size bytes : Unpickle Oop) s = .ok (o, s')) : s'.cur = s.cur ∧ Stretch n (fun _ => False) s s' [o] [] := by
  cases h
  refine ⟨rfl, Stretch.fresh (m := ⟨klass, .bytes (List.replicate (s.vm.klasses klass).nslots .nilObj) bytes⟩) hint hn ?_
    (fun a ha => ?_) (fun hdis => allowed_tagged hdis ?_) fun o ho a => ?_⟩
  · show ({ s.vm with heap := List.modify _ _ _ } : Vm) = _
    rw [modify_concat]
    rfl
  · rcases mem_append.mp ha with ha | ha
    · exact .inl ha
    · exact .inr (mem_singleton.mp ha)
  · exact mem_append_left [s.vm.univ.arrayKlass] hk
  · have hnil : o = .nilObj := by
      rcases mem_append.mp ho with ho | ho
      · exact eq_of_mem_replicate ho
      · cases ho
    rw [hnil]
    exact fun hx => by cases hx

theorem throw_ok {α : Type} {e : UnpickleErr} {s : UnpickleState} {r : α × UnpickleState}
    (h : (throw e : Unpickle α) s = .ok r) : False := by cases h

theorem decodes_nil : Decodes n (upTagged child .nil) (namesTagged scan .nil) :=
  decodes_still (.pure _) (fun s o s' h v t => by obtain ⟨-, rfl⟩ := pure_ok h; rfl)
    fun s o s' h a => by obtain ⟨rfl, -⟩ := pure_ok h; exact fun hx => by cases hx

theorem decodes_false : Decodes n (upTagged child .false) (namesTagged scan .false) :=
  decodes_still (.pure _) (fun s o s' h v t => by obtain ⟨-, rfl⟩ := pure_ok h; rfl)
    fun s o s' h a => by obtain ⟨rfl, -⟩ := pure_ok h; exact fun hx => by cases hx

theorem decodes_true : Decodes n (upTagged child .true) (namesTagged scan .true) :=
  decodes_still (.pure _) (fun s o s' h v t => by obtain ⟨-, rfl⟩ := pure_ok h; rfl)
    fun s o s' h a => by obtain ⟨rfl, -⟩ := pure_ok h; exact fun hx => by cases hx

theorem decodes_smi : Decodes n (upTagged child .smi) (namesTagged scan .smi) := by
  intro s o s' hint _ h
  obtain ⟨u, s₁, hu, h⟩ := bind_ok.mp h
  obtain ⟨c, rfl, hrun⟩ := Consumes.varint.step hu
  split at h
  next hrange =>
    obtain ⟨rfl, rfl⟩ := pure_ok h
    refine ⟨[], fun v t => bind_ok.mpr ⟨u, _, hrun v t, rfl⟩, .still hint rfl rfl fun _ o ho a ha => ?_⟩
    rw [mem_singleton.mp ho] at ha
    cases ha
  next => cases h

theorem decodes_double : Decodes n (upTagged child .double) (namesTagged scan .double) := by
  intro s o s' hint hn h
  obtain ⟨raw, s₁, hraw, h⟩ := bind_ok.mp h
  obtain ⟨c, rfl, hrun⟩ := (Consumes.exact 8).step hraw
  cases h
  refine ⟨[], fun v t => bind_ok.mpr ⟨raw, _, hrun v t, rfl⟩, ?_⟩
  exact .fresh (m := ⟨s.vm.univ.doubleKlass, .double (fromLeBytes raw)⟩) hint hn rfl (fun a ha => .inl ha)
    (fun hdis => allowed_boxed hdis (.inl rfl)) fun o ho => absurd ho not_mem_nil

theorem decodes_char : Decodes n (upTagged child .char) (namesTagged scan .char) := by
  intro s o s' hint hn h
  obtain ⟨code, s₁, hcode, h⟩ := bind_ok.mp h
  obtain ⟨c, rfl, hrun⟩ := Consumes.varint.step hcode
  split at h
  next hle =>
    cases h
    refine ⟨[], fun v t => bind_ok.mpr ⟨code, _, hrun v t, rfl⟩, ?_⟩
    refine .fresh (m := ⟨s.vm.univ.characterKlass, .slots ((List.replicate (s.vm.klasses s.vm.univ.characterKlass).nslots
      .nilObj).set 0 (.smi ⟨code, by unfold SmallInteger.minVal; omega, hle⟩))⟩) hint hn ?_ (fun a ha => .inl ha)
      (fun hdis => allowed_boxed hdis (.inr rfl)) fun o ho a => ?_
    · show ({ s.vm with heap := List.modify _ _ _ } : Vm) = _
      rw [modify_concat]
      rfl
    · have hmem := (mem_append.mp ho).resolve_right not_mem_nil
      rcases mem_or_eq_of_mem_set hmem with hmem | heq
      · rw [eq_of_mem_replicate hmem]
        exact fun hx => by cases hx
      · rw [heq]
        exact fun hx => by cases hx
  next => cases h

theorem intern_stretch {a : Nat} (h : Unpickle.intern bytes s = .ok (a, s'))
    (hint : Interned s.vm) : Stretch n (fun _ => False) s s' [] [] := by
  obtain ⟨-, htab, -, hint', hgrow, hfresh⟩ := intern_spec h hint
  refine ⟨hint', hgrow, fun name hname => absurd hname not_mem_nil, fun hdis _ hkept => ?_⟩
  refine ⟨⟨fun b m hb hm => ?_, fun b hb => ?_⟩, fun o ho => absurd ho not_mem_nil⟩
  · rcases Nat.lt_or_ge b s.vm.heap.length with hlt | hge
    · rw [hgrow.heap b hlt fun hx => hx] at hm
      obtain ⟨hall, hkids⟩ := hkept.object b m hb hm
      exact ⟨hall.mono hgrow, fun o ho => (hkids o ho).mono hgrow⟩
    · have hat := hfresh b hge m hm
      have hobj := hint' bytes b hat
      rw [hm] at hobj
      cases hobj
      refine ⟨⟨fun href => href.1 ?_, ?_, fun _ => ⟨bytes, hat, rfl⟩⟩, fun o ho => absurd ho not_mem_nil⟩
      · exact mem_cons_of_mem _ (mem_cons_of_mem _ mem_cons_self)
      · rw [hgrow.univ]
        exact (Universe.tagged_special hdis mem_cons_self).1
  · rw [htab] at hb
    exact (hkept.table b hb).mono hgrow

theorem decodes_symbol : Decodes n (upTagged child .symbol) (namesTagged scan .symbol) := by
  intro s o s' hint hn h
  obtain ⟨size, s₁, hsize, h⟩ := bind_ok.mp h
  obtain ⟨c, rfl, hrun⟩ := (Consumes.lenCapped 1).step hsize
  obtain ⟨bytes, s₂, hbytes, h⟩ := bind_ok.mp h
  obtain ⟨c', rfl, hrun'⟩ := (Consumes.exact size).step hbytes
  obtain ⟨sym, s₃, hsym, h⟩ := bind_ok.mp h
  obtain ⟨hcur, htab, hlook, hint', hgrow, -⟩ := intern_spec hsym hint
  have hstretch : Stretch n (fun _ => False) _ s₃ [] [] := intern_stretch hsym hint
  cases h
  refine ⟨[], fun v t => ?_, hint', hgrow, fun name hname => absurd hname not_mem_nil, fun hdis hok hkept => ?_⟩
  · refine bind_ok.mpr ⟨size, _, hrun v t, bind_ok.mpr ⟨bytes, _, hrun' v t, ?_⟩⟩
    show Except.ok _ = Except.ok ([], (⟨v, s₃.cur, t⟩ : UnpickleState))
    rw [hcur]
  · obtain ⟨hkept', -⟩ := hstretch.kept hdis hok ⟨hkept.object, hkept.table⟩
    have hown : Own n s₃.vm (.mem sym) := fun a ha => by
      cases ha
      exact .inr ⟨bytes, hlook⟩
    refine ⟨⟨hkept'.object, fun a ha => ?_⟩, fun o ho => mem_singleton.mp ho ▸ hown⟩
    rcases mem_append.mp ha with ha | ha
    · exact hkept'.table a ha
    · rw [mem_singleton.mp ha]
      exact hown

theorem decodes_backref : Decodes n (upTagged child .backref) (namesTagged scan .backref) := by
  intro s o s' hint hn h
  obtain ⟨idx, s₁, hidx, h⟩ := bind_ok.mp h
  obtain ⟨c, rfl, hrun⟩ := Consumes.varint.step hidx
  rw [read_get_bind] at h
  cases ha : s.table[idx]? with
  | none =>
    simp only [ha] at h
    cases h
  | some a =>
    simp only [ha] at h
    obtain ⟨rfl, rfl⟩ := pure_ok h
    refine ⟨[], fun v t => bind_ok.mpr ⟨idx, _, hrun v t, rfl⟩, .still hint rfl rfl fun hkept o ho => ?_⟩
    rw [mem_singleton.mp ho]
    exact hkept.table a (mem_of_getElem? ha)

theorem decodes_bytes (klass : Universe → Nat) (size : Nat → Nat) (hx : x = do
      let m ← lenCapped k
      let bytes ← exact (size m)
      let s ← Builds.read get
      upBytes (klass s.vm.univ) (size m) bytes)
    (hk : ∀ u : Universe, klass u ∈ [u.stringKlass, u.bytearrayKlass, u.floatArrayKlass, u.largePosIntKlass,
      u.largeNegIntKlass]) :
    Decodes n x (do
      let m ← lenCapped k
      let _ ← exact (size m)
      return []) := by
  intro s o s' hint hn h
  rw [hx] at h
  obtain ⟨m, s₁, hm, h⟩ := bind_ok.mp h
  obtain ⟨c, rfl, hrun⟩ := (Consumes.lenCapped k).step hm
  obtain ⟨bytes, s₂, hbytes, h⟩ := bind_ok.mp h
  obtain ⟨c', rfl, hrun'⟩ := (Consumes.exact (size m)).step hbytes
  rw [read_get_bind] at h
  obtain ⟨hcur, hstretch⟩ := upBytes_spec (n := n) (s := ⟨s.vm, c', s.table⟩) hint hn (hk s.vm.univ) h
  refine ⟨[], fun v t => bind_ok.mpr ⟨m, _, hrun v t, bind_ok.mpr ⟨bytes, _, hrun' v t, ?_⟩⟩, hstretch.skip⟩
  rw [hcur]
  rfl

theorem decodes_largeInt : Decodes n (upTagged child .largeInt) (namesTagged scan .largeInt) := by
  intro s o s' hint hn h
  obtain ⟨neg, s₁, hneg, h⟩ := bind_ok.mp h
  obtain ⟨c, rfl, hrun⟩ := Consumes.u8.step hneg
  split at h
  next => cases h
  next =>
    have hbytes := decodes_bytes (n := n) (k := 1)
      (fun u => if neg = 1 then u.largeNegIntKlass else u.largePosIntKlass) (fun m => m) rfl (fun u => by split <;> simp)
    obtain ⟨ns, hscan, hstretch⟩ := hbytes ⟨s.vm, c, s.table⟩ o s' hint hn h
    exact ⟨ns, fun v t => bind_ok.mpr ⟨neg, _, hrun v t, hscan v t⟩, hstretch.skip⟩

theorem replicate_nil_ne (h : o ∈ List.replicate k Oop.nilObj) (a : Nat) : o ≠ .mem a := by
  rw [eq_of_mem_replicate h]
  exact fun hx => by cases hx

theorem decodes_array (hchild : Decodes n child scan) : Decodes n (upTagged child .array) (namesTagged scan .array) := by
  intro s o s' hint hn h
  obtain ⟨size, s₁, hsize, h⟩ := bind_ok.mp h
  obtain ⟨c, rfl, hrun⟩ := (Consumes.lenCapped 1).step hsize
  rw [read_get_bind] at h
  obtain ⟨arr, s₂, halloc, h⟩ := bind_ok.mp h
  cases halloc
  obtain ⟨u, s₃, hpush, h⟩ := bind_ok.mp h
  cases hpush
  obtain ⟨u', s₄, hfill, h⟩ := bind_ok.mp h
  obtain ⟨rfl, rfl⟩ := pure_ok h
  generalize hm : (⟨s.vm.univ.arrayKlass, .oops (List.replicate (s.vm.klasses s.vm.univ.arrayKlass).nslots .nilObj)
    (List.replicate size .nilObj)⟩ : Object) = m at hfill
  have helems : m.body.elements = List.replicate size .nilObj := by rw [← hm]; rfl
  have hopen := hint.alloc m
  have hself : ((⟨s.vm, c, s.table⟩ : UnpickleState).opened m).vm.heap[s.vm.heap.length]? = some m :=
    getElem?_concat_length
  obtain ⟨os, ns, hlen, hscan, hstretch, hheap⟩ := fill_spec (s := (⟨s.vm, c, s.table⟩ : UnpickleState).opened m) hchild
    puts_tailOop hopen (Nat.le_trans hn (by simp [UnpickleState.opened, UnpickleState.withHeap]))
    (hint.unsettled_next m) hfill
  rw [hself] at hheap
  change _ = some (putAll Object.atPut 0 os m) at hheap
  have hput : (putAll Object.atPut 0 os m).body.elements = os := by
    rw [putAll_list (fun m => m.body.elements) Object.elements_atPut (by simp [helems, hlen]), helems, hlen]
    simp
  refine ⟨ns, fun v t => bind_ok.mpr ⟨size, _, hrun v t, hscan v t⟩, Stretch.skip (c := c) ?_⟩
  refine Stretch.container (m := m) [] hint hn hstretch (fun hdis _ => allowed_tagged hdis ?_) (fun o ho a => ?_)
    ⟨_, hheap, putAll_congr Object.klass Object.klass_atPut, fun o ho => ?_⟩ fun _ hx => absurd hx not_mem_nil
  · rw [← hm]
    simp
  · rw [← hm] at ho
    rcases mem_append.mp ho with ho | ho
    · exact replicate_nil_ne ho a
    · exact replicate_nil_ne ho a
  · rw [hput]
    exact mem_append_right _ ho

theorem record_stretch {m m' : Object} (hint : Interned s.vm) (hn : n ≤ s.vm.heap.length)
    (hlook : s.vm.globals.lookup name = some (.klass m.klass))
    (hkids : ∀ o ∈ m.body.named ++ m.body.elements, ∀ a, o ≠ .mem a)
    (h : Stretch n (· = s.vm.heap.length) (s.opened m) s' os ns) (hm' : s'.vm.heap[s.vm.heap.length]? = some m')
    (hklass : m'.klass = m.klass) (hend : ∀ o ∈ os, o ∈ m'.body.named ++ m'.body.elements) :
    Stretch n (fun _ => False) s s' [.mem s.vm.heap.length] (name :: ns) := by
  refine h.container [name] hint hn (fun _ hok => ?_) hkids ⟨m', hm', hklass, hend⟩ fun x hx => ?_
  · have hname := hok name (mem_singleton.mpr rfl)
    refine ⟨fun href => hname ⟨m.klass, hlook, .inl href⟩, fun hsmi => hname ⟨m.klass, hlook, .inr (.inl hsmi)⟩,
      fun hsym => absurd ⟨m.klass, hlook, .inr (.inr hsym)⟩ hname⟩
  · rw [mem_singleton.mp hx]
    exact hlook

theorem fill_opened (hchild : Decodes n child scan) {nslots : Nat}
    (hint : Interned s.vm) (hn : n ≤ s.vm.heap.length) (hslots : m.body.named.length = nslots)
    (h : fill child .bodyOop s.vm.heap.length 0 nslots (s.opened m) = .ok ((), s')) :
    ∃ os ns m', (∀ v t, namesEach scan nslots ⟨v, s.cur, t⟩ = .ok (ns, ⟨v, s'.cur, t⟩)) ∧
      Stretch n (· = s.vm.heap.length) (s.opened m) s' os ns ∧ s'.vm.heap[s.vm.heap.length]? = some m' ∧
      m'.klass = m.klass ∧ m'.body.named = os ∧ m'.body.elements = m.body.elements := by
  have hself : (s.opened m).vm.heap[s.vm.heap.length]? = some m := getElem?_concat_length
  obtain ⟨os, ns, hlen, hscan, hstretch, hheap⟩ := fill_spec (s := s.opened m) hchild puts_bodyOop (hint.alloc m)
    (Nat.le_trans hn (by simp [UnpickleState.opened, UnpickleState.withHeap])) (hint.unsettled_next m) h
  rw [hself] at hheap
  change _ = some (putAll Object.setBodyOop 0 os m) at hheap
  refine ⟨os, ns, _, hscan, hstretch, hheap, putAll_congr Object.klass Object.klass_setBodyOop, ?_,
    putAll_congr (fun m => m.body.elements) Object.elements_setBodyOop⟩
  rw [putAll_list (fun m => m.body.named) Object.named_setBodyOop (by simp [hslots, hlen]), hlen, ← hslots]
  simp

theorem resolveKlass_run (h : (resolveKlass name nslots subkind idxN : Unpickle Nat) s = .ok (kls, s')) :
    (∃ sym, Unpickle.intern name s = .ok (sym, s')) ∧ s'.vm.globals.lookup name = some (.klass kls) ∧
      (s'.vm.klasses kls).nslots = nslots ∧ (s'.vm.klasses kls).format = subkind.format ∧ nslots ≤ s'.cur.length := by
  obtain ⟨sym, s₁, hsym, h⟩ := bind_ok.mp h
  rw [read_get_bind] at h
  cases hlook : s₁.vm.globals.lookup name with
  | none =>
    simp only [hlook] at h
    cases h
  | some g =>
    cases g with
    | other =>
      simp only [hlook] at h
      cases h
    | klass k =>
      simp only [hlook] at h
      split at h
      next => cases h
      next hslots =>
        split at h
        next => cases h
        next hformat =>
          split at h
          next => cases h
          next hlen =>
            obtain ⟨rfl, rfl⟩ := pure_ok h
            exact ⟨⟨sym, hsym⟩, hlook, not_not.mp hslots, not_not.mp hformat, by omega⟩

theorem resolveKlass_spec (h : (resolveKlass name nslots subkind idxN : Unpickle Nat) s = .ok (kls, s')) (hint : Interned s.vm) :
    s'.cur = s.cur ∧ Stretch n (fun _ => False) s s' [] [] ∧ s'.vm.globals.lookup name = some (.klass kls) ∧
      (s'.vm.klasses kls).nslots = nslots ∧ (s'.vm.klasses kls).format = subkind.format := by
  obtain ⟨⟨sym, hsym⟩, hlook, hslots, hformat, -⟩ := resolveKlass_run h
  obtain ⟨hcur, -⟩ := intern_spec hsym hint
  exact ⟨hcur, intern_stretch hsym hint, hlook, hslots, hformat⟩

def blank (k : Klass) (kls idxN : Nat) : Subkind → Object
  | .slots => ⟨kls, .slots (List.replicate k.nslots .nilObj)⟩
  | .oops => ⟨kls, .oops (List.replicate k.nslots .nilObj) (List.replicate idxN .nilObj)⟩
  | .bytes => ⟨kls, .bytes (List.replicate k.nslots .nilObj) (List.replicate idxN 0)⟩

theorem alloc_spec {kls idxN obj : Nat} {s s₁ s₂ : UnpickleState} {u : Unit}
    (h : (subkind.alloc kls idxN : Unpickle Nat) s = .ok (obj, s₁)) (hpush : tablePush obj s₁ = .ok (u, s₂)) :
    obj = s.vm.heap.length ∧ s₂ = s.opened (blank (s.vm.klasses kls) kls idxN subkind) := by
  cases subkind <;> cases h <;> cases hpush <;> exact ⟨rfl, rfl⟩

theorem blank_shape (k : Klass) (kls idxN : Nat) (subkind : Subkind) :
    (blank k kls idxN subkind).klass = kls ∧ (blank k kls idxN subkind).body.named.length = k.nslots ∧
      (∀ o ∈ (blank k kls idxN subkind).body.named ++ (blank k kls idxN subkind).body.elements, ∀ a, o ≠ .mem a) ∧
      (subkind = .oops → (blank k kls idxN subkind).body.elements.length = idxN) := by
  have hnil : ∀ j l : Nat, ∀ o ∈ List.replicate j Oop.nilObj ++ List.replicate l Oop.nilObj, ∀ a, o ≠ .mem a := by
    intro j l o ho a
    rcases mem_append.mp ho with ho | ho
    · exact replicate_nil_ne ho a
    · exact replicate_nil_ne ho a
  cases subkind with
  | slots => exact ⟨rfl, length_replicate, hnil _ 0, fun hx => by cases hx⟩
  | oops => exact ⟨rfl, length_replicate, hnil _ _, fun _ => length_replicate⟩
  | bytes => exact ⟨rfl, length_replicate, hnil _ 0, fun hx => by cases hx⟩

theorem fillTail_spec (hchild : Decodes n child scan) {a idxN : Nat} {s₀ s s' : UnpickleState}
     (hn : n ≤ s.vm.heap.length) (ha₀ : Unsettled s₀.vm a)
    (hstretch : Stretch n (· = a) s₀ s os ns) (hm : s.vm.heap[a]? = some m) (hnamed : m.body.named = os)
    (helems : subkind = .oops → m.body.elements.length = idxN) (h : subkind.fillTail child a idxN s = .ok ((), s')) :
    ∃ os' rest m', (∀ v t, namesTail scan idxN subkind ⟨v, s.cur, t⟩ = .ok (rest, ⟨v, s'.cur, t⟩)) ∧
      Stretch n (· = a) s₀ s' os' (ns ++ rest) ∧ s'.vm.heap[a]? = some m' ∧ m'.klass = m.klass ∧
      ∀ o ∈ os', o ∈ m'.body.named ++ m'.body.elements := by
  cases subkind with
  | slots =>
    obtain ⟨-, rfl⟩ := pure_ok h
    refine ⟨os, [], m, fun _ _ => rfl, by rwa [append_nil], hm, rfl, fun o ho => ?_⟩
    exact mem_append_left _ (hnamed ▸ ho)
  | oops =>
    obtain ⟨os', rest, hlen, hscan, hstretch', hheap⟩ := fill_spec hchild puts_tailOop hstretch.interned hn
      (hstretch.grows.unsettled ha₀) h
    rw [hm] at hheap
    change _ = some (putAll Object.atPut 0 os' m) at hheap
    have hkeep : (putAll Object.atPut 0 os' m).body.named = os := by
      rw [putAll_congr (fun m => m.body.named) Object.named_atPut, hnamed]
    have hfill : (putAll Object.atPut 0 os' m).body.elements = os' := by
      rw [putAll_list (fun m => m.body.elements) Object.elements_atPut (by simp [helems rfl, hlen]), hlen, ← helems rfl]
      simp
    refine ⟨os ++ os', rest, _, hscan, hstretch.trans hstretch' fun b hb => ?_, hheap,
      putAll_congr Object.klass Object.klass_atPut, fun o ho => ?_⟩
    · subst hb
      exact ha₀
    · rw [hkeep, hfill]
      exact ho
  | bytes =>
    obtain ⟨bytes, s₁, hbytes, h⟩ := bind_ok.mp h
    obtain ⟨c, rfl, hrun⟩ := (Consumes.exact idxN).step hbytes
    cases h
    refine ⟨os, [], m.bytesPut bytes, fun v t => bind_ok.mpr ⟨bytes, _, hrun v t, rfl⟩, ?_, ?_, Object.klass_bytesPut _ _,
      fun o ho => ?_⟩
    · rw [append_nil]
      refine Stretch.store (f := Object.bytesPut bytes) hstretch ha₀ (fun m => ?_) rfl rfl
      rw [Object.named_bytesPut, Object.elements_bytesPut]
      exact ⟨Object.klass_bytesPut _ _, fun o ho => .inl ho⟩
    · show (s.vm.heap.modify a _)[a]? = _
      rw [getElem?_modify, hm]
      simp [Store.apply]
    · rw [Object.named_bytesPut, hnamed]
      exact mem_append_left _ ho

theorem decodes_object (hchild : Decodes n child scan) :
    Decodes n (upTagged child .object) (namesTagged scan .object) := by
  intro s o s' hint hn h
  obtain ⟨nameLen, s₁, h₁, h⟩ := bind_ok.mp h
  obtain ⟨c₁, rfl, hrun₁⟩ := (Consumes.lenCapped 1).step h₁
  obtain ⟨name, s₂, h₂, h⟩ := bind_ok.mp h
  obtain ⟨c₂, rfl, hrun₂⟩ := (Consumes.exact nameLen).step h₂
  obtain ⟨nslots, s₃, h₃, h⟩ := bind_ok.mp h
  obtain ⟨c₃, rfl, hrun₃⟩ := Consumes.varint.step h₃
  obtain ⟨sub, s₄, h₄, h⟩ := bind_ok.mp h
  obtain ⟨c₄, rfl, hrun₄⟩ := Consumes.u8.step h₄
  cases hsub : Subkind.ofByte sub with
  | none =>
    simp only [hsub] at h
    cases h
  | some subkind =>
    simp only [hsub] at h
    have htail : Consumes subkind.tailLength := by
      cases subkind
      · exact .pure 0
      · exact .lenCapped 1
      · exact .lenCapped 1
    obtain ⟨idxN, s₅, h₅, h⟩ := bind_ok.mp h
    obtain ⟨c₅, rfl, hrun₅⟩ := htail.step h₅
    obtain ⟨kls, s₆, h₆, h⟩ := bind_ok.mp h
    obtain ⟨hcur, hresolve, hlook, hslots, -⟩ := resolveKlass_spec (n := n) h₆ hint
    have hn₆ := Nat.le_trans hn hresolve.grows.length
    obtain ⟨obj, s₇, h₇, h⟩ := bind_ok.mp h
    obtain ⟨u, s₈, h₈, h⟩ := bind_ok.mp h
    obtain ⟨rfl, rfl⟩ := alloc_spec h₇ h₈
    obtain ⟨u', s₉, h₉, h⟩ := bind_ok.mp h
    obtain ⟨u'', s₁₀, h₁₀, h⟩ := bind_ok.mp h
    obtain ⟨rfl, rfl⟩ := pure_ok h
    obtain ⟨hbk, hbn, hbkids, hbe⟩ := blank_shape (s₆.vm.klasses kls) kls idxN subkind
    obtain ⟨os, ns, m₉, hscan, hfill, hm₉, hk₉, hnamed, helems⟩ := fill_opened hchild hresolve.interned hn₆
      (hbn.trans hslots) h₉
    obtain ⟨os', rest, m', hscan', hall, hm', hk', hmem⟩ := fillTail_spec hchild
      (Nat.le_trans hn₆ (Nat.le_trans (by simp [UnpickleState.opened, UnpickleState.withHeap]) hfill.grows.length))
      (hresolve.interned.unsettled_next _) hfill hm₉ hnamed (fun hs => by rw [helems]; exact hbe hs) h₁₀
    refine ⟨name :: (ns ++ rest), fun v t => ?_, ?_⟩
    · refine bind_ok.mpr ⟨nameLen, _, hrun₁ v t, bind_ok.mpr ⟨name, _, hrun₂ v t, bind_ok.mpr ⟨nslots, _, hrun₃ v t,
        bind_ok.mpr ⟨sub, _, hrun₄ v t, ?_⟩⟩⟩⟩
      simp only [hsub]
      have hns := hscan v t
      rw [hcur] at hns
      exact bind_ok.mpr ⟨idxN, _, hrun₅ v t, bind_ok.mpr ⟨ns, _, hns, bind_ok.mpr ⟨rest, _, hscan' v t, rfl⟩⟩⟩
    · have hrec := record_stretch hresolve.interned hn₆ (hbk ▸ hlook) hbkids hall hm' (hk'.trans hk₉) hmem
      have hboth : Stretch n (fun _ => False) ⟨s.vm, c₅, s.table⟩ s' [.mem s₆.vm.heap.length] (name :: (ns ++ rest)) :=
        Stretch.trans hresolve hrec fun _ hx => hx.elim
      exact hboth.skip

theorem decodes_tagged (hchild : Decodes n child scan) : ∀ tag, Decodes n (upTagged child tag) (namesTagged scan tag)
  | .nil => decodes_nil
  | .false => decodes_false
  | .true => decodes_true
  | .smi => decodes_smi
  | .double => decodes_double
  | .char => decodes_char
  | .symbol => decodes_symbol
  | .string => decodes_bytes Universe.stringKlass (fun m => m) rfl fun u => by simp
  | .byteArray => decodes_bytes Universe.bytearrayKlass (fun m => m) rfl fun u => by simp
  | .floatArray => decodes_bytes Universe.floatArrayKlass (fun m => m * 8) rfl fun u => by simp
  | .largeInt => decodes_largeInt
  | .array => decodes_array hchild
  | .backref => decodes_backref
  | .object => decodes_object hchild

end tags

theorem decodes_up (n : Nat) : ∀ room, Decodes n (up room) (names room) := by
  intro room
  induction room with
  | zero =>
    intro s o s' _ _ h
    cases h
  | succ room ih =>
    intro s o s' hint hn h
    unfold up at h
    rw [read_get_bind] at h
    split at h
    next => cases h
    next =>
      obtain ⟨b, s₁, hb, h⟩ := bind_ok.mp h
      obtain ⟨c, rfl, hrun⟩ := Consumes.u8.step hb
      cases htag : Tag.ofByte b with
      | none =>
        simp only [htag] at h
        cases h
      | some tag =>
        simp only [htag] at h
        obtain ⟨ns, hscan, hstretch⟩ := decodes_tagged ih tag ⟨s.vm, c, s.table⟩ o s' hint hn h
        refine ⟨ns, fun v t => ?_, hstretch.skip⟩
        unfold names
        refine bind_ok.mpr ⟨b, _, hrun v t, ?_⟩
        simp only [htag]
        exact hscan v t

theorem Kept.holds (h : Kept n s) (hint : Interned s.vm) {o : Oop} {b : Nat}
    (hholds : s.vm.Holds o b) (hown : Own n s.vm o) : Own n s.vm (.mem b) := by
  induction hholds with
  | self a => exact hown
  | @child a b o hmem _ ih =>
    apply ih
    unfold Vm.children at hmem
    split at hmem
    next m hm =>
      rcases hown a rfl with hle | ⟨bs, hbs⟩
      · exact (h.object a m hle hm).2 o hmem
      · rw [hint bs a hbs] at hm
        cases hm
        cases hmem
    next => cases hmem

theorem Kept.unforged (h : Kept n s) (hint : Interned s.vm)
    (hdis : s.vm.univ.special.Nodup) {root : Oop} (hown : Own n s.vm root) : s.vm.Unforged root := by
  intro b m hholds hm
  rcases h.holds hint hholds hown b rfl with hle | ⟨bs, hbs⟩
  · exact (h.object b m hle hm).1
  · rw [hint bs b hbs] at hm
    cases hm
    refine ⟨fun href => href.1 ?_, (Universe.tagged_special hdis mem_cons_self).1, fun _ => ⟨bs, hbs, rfl⟩⟩
    exact mem_cons_of_mem _ (mem_cons_of_mem _ mem_cons_self)

/-- An accepted message makes no refused object, heap SmallInteger or second Symbol just when no
object record in it names a class of these. -/
theorem unforged_iff {v w : Vm} {bytes : List UInt8} {root : Oop} (hv : v.WellFormed)
    (h : unpickle v bytes = .ok (root, w)) :
    w.Unforged root ↔ ∀ name ∈ recordNames v bytes, ¬ v.Forges name := by
  unfold unpickle at h
  split at h
  next => cases h
  next =>
    split at h
    next root' s' hup =>
      cases h
      have hint : Interned v := fun bs b => hv.interned.mp
      obtain ⟨ns, hscan, hstretch⟩ := decodes_up v.heap.length MAX_DEPTH _ root s' hint (Nat.le_refl _) hup
      have hnames : recordNames v bytes = ns := by
        unfold recordNames
        rw [hscan v []]
      rw [hnames]
      constructor
      · rintro hclean name hname ⟨k, hk, hbad⟩
        obtain ⟨k', hk', hmade⟩ := hstretch.made name hname
        cases (hk.symm.trans hk')
        obtain ⟨o, ho, b, m, hholds, hm, rfl, hfree⟩ := hmade s'.vm (Grows.refl _ _)
        rw [mem_singleton.mp ho] at hholds
        obtain ⟨hrefuses, hsmi, hsymbol⟩ := hclean b m hholds hm
        have hgrow := hstretch.grows
        rcases hbad with hbad | hbad | hbad
        · apply hrefuses
          unfold Vm.Refuses at hbad ⊢
          rwa [hgrow.univ, hgrow.klasses]
        · exact hsmi (by rw [hgrow.univ, hbad])
        · obtain ⟨bs, hbs, -⟩ := hsymbol (by rw [hgrow.univ, hbad])
          exact hfree bs hbs
      · intro hok
        have hstart : Kept v.heap.length ⟨v, bytes.drop MAGIC.length, []⟩ := by
          refine ⟨fun a m ha hm => ?_, fun a ha => absurd ha not_mem_nil⟩
          exact absurd (List.getElem?_eq_some_iff.mp hm).1 (Nat.not_lt.mpr ha)
        obtain ⟨hkept, hown⟩ := hstretch.kept hv.distinct hok hstart
        apply hkept.unforged hstretch.interned _ (hown root (mem_singleton.mpr rfl))
        rw [hstretch.grows.univ]
        exact hv.distinct
    next => cases h

def plainVm : Vm where
  univ := ⟨0, 1, 2, 3, 4, 5, 6, 7, 8, 9, 10, 11⟩
  klasses
    | 1 => ⟨some [68], .double, 0⟩
    | 2 => ⟨some [67], .slots, 1⟩
    | 9 => ⟨some [65], .indexableOops, 0⟩
    | 10 => ⟨some [65, 108, 105, 101, 110], .indexableBytes, 2⟩
    | 12 => ⟨some [65, 115], .slots, 2⟩
    | 0 => ⟨some [83, 109, 105], .slots, 0⟩
    | _ => ⟨some [66], .indexableBytes, 0⟩
  heap := []
  symbols := []
  globals := [([65, 108, 105, 101, 110], .klass 10), ([83, 109, 105], .klass 0), ([65, 115], .klass 12)]

theorem plainVm_wellFormed : plainVm.WellFormed where
  double := rfl
  character := ⟨rfl, rfl⟩
  bytes := by decide
  array := ⟨rfl, rfl⟩
  distinct := by decide
  fits h := by cases h
  slotCount k := by
    unfold plainVm
    dsimp only
    split <;> decide
  nameSize {k name} h := by
    unfold plainVm at h
    dsimp only at h
    split at h <;> cases h <;> decide
  interned {bs a} := by
    constructor
    · intro h
      cases h
    · intro h
      cases h

theorem unforged_iff_association : ∃ root w,
    unpickle plainVm [77, 79, 80, 1, 11, 2, 65, 115, 2, 0, 3, 2, 0] = .ok (root, w) ∧ (w.Unforged root ↔
        ∀ name ∈ recordNames plainVm [77, 79, 80, 1, 11, 2, 65, 115, 2, 0, 3, 2, 0], ¬ plainVm.Forges name) := by
  have hok : (unpickle plainVm [77, 79, 80, 1, 11, 2, 65, 115, 2, 0, 3, 2, 0]).isOk = true := by decide +kernel
  cases h : unpickle plainVm [77, 79, 80, 1, 11, 2, 65, 115, 2, 0, 3, 2, 0] with
  | error e =>
    rw [h] at hok
    cases hok
  | ok r => exact ⟨r.1, r.2, rfl, unforged_iff plainVm_wellFormed h⟩

def alienMessage : List UInt8 := [77, 79, 80, 1, 11, 5, 65, 108, 105, 101, 110, 2, 2, 8, 0, 0, 1, 2, 3, 4, 5, 6, 7, 8]

theorem alien_forged : ∃ root w, unpickle plainVm alienMessage = .ok (root, w) ∧ ¬ w.Unforged root := by
  have h : unpickle plainVm alienMessage = .ok (.mem 1, _) := rfl
  refine ⟨_, _, h, fun hclean => ?_⟩
  exact (hclean 1 _ (.self 1) rfl).1 ⟨by decide, .inl rfl⟩

end WinArmVm.Mop
