import WinArmVm.MopDelimited

namespace WinArmVm.Mop

open List Option

/-- How far an encoding reaches, and the last place its length was held against the limit. -/
structure Extent where
  size : Nat
  checked : Nat
  seen : List Nat

namespace Extent

def add (e : Extent) (n : Nat) : Extent := { e with size := e.size + n }

def check (e : Extent) : Extent := { e with checked := e.size }

def start : Extent := ⟨MAGIC.length, 0, []⟩

end Extent

def varintSize (n : Nat) : Nat := (writeVarint n).length

/-- A byte object after `header` bytes. -/
def Body.leafExtent (header : Nat) (e : Extent) : Body → Option Extent
  | .bytes _ tail => some (e.add (header + varintSize tail.length + tail.length))
  | _ => none

def Body.floatsExtent (e : Extent) : Body → Option Extent
  | .bytes _ tail =>
    if tail.length % 8 ≠ 0 then none else some (e.add (1 + varintSize (tail.length / 8) + tail.length))
  | _ => none

def eachExtent (child : Oop → Extent → Option Extent) : List Oop → Extent → Option Extent
  | [], e => some e
  | o :: os, e => (child o e).bind (eachExtent child os)

def objectExtent (child : Oop → Extent → Option Extent) (k : Klass) (body : Body) (e : Extent) : Option Extent :=
  match subkindOf k.format, k.name with
  | .ok subkind, some name =>
    let e := e.add (2 + varintSize name.length + name.length + varintSize k.nslots)
    match subkind, body with
    | .slots, .slots named => (eachExtent child named e).map Extent.check
    | .oops, .oops named elements =>
      (eachExtent child named (e.add (varintSize elements.length))).bind fun e =>
        (eachExtent child elements e).map Extent.check
    | .bytes, .bytes named tail =>
      (eachExtent child named (e.add (varintSize tail.length))).map fun e => (e.add tail.length).check
    | _, _ => none
  | _, _ => none

def tabledExtent (vm : Vm) (child : Oop → Extent → Option Extent) (m : Object) (e : Extent) : Option Extent :=
  let u := vm.univ
  if m.klass = u.symbolKlass then m.body.leafExtent 1 e
  else if m.klass = u.stringKlass then m.body.leafExtent 1 e
  else if m.klass = u.bytearrayKlass then m.body.leafExtent 1 e
  else if m.klass = u.floatArrayKlass then m.body.floatsExtent e
  else if m.klass = u.largePosIntKlass ∨ m.klass = u.largeNegIntKlass then m.body.leafExtent 2 e
  else if m.klass = u.arrayKlass then
    match m.body with
    | .oops _ elements => eachExtent child elements (e.add (1 + varintSize elements.length))
    | _ => none
  else if m.klass = u.alienKlass then none
  else if m.klass = u.objcrefKlass then none
  else objectExtent child (vm.klasses m.klass) m.body e

/-- Where an encoding reaches and was last checked, none for what is refused whatever the limit. -/
def extent (vm : Vm) (maxObjects : Nat) : Nat → Oop → Extent → Option Extent
  | 0, _, _ => none
  | room + 1, o, e =>
    let e := e.check
    match o with
    | .nilObj | .falseObj | .trueObj => some (e.add 1)
    | .smi v => some (e.add (1 + varintSize (zigzag v)))
    | .other _ => none
    | .mem a =>
      match vm.heap[a]? with
      | none => none
      | some m =>
        if m.klass = vm.univ.doubleKlass then
          match m.body with
          | .double _ => some (e.add 9)
          | _ => none
        else if m.klass = vm.univ.characterKlass then
          match m.body with
          | .slots (.smi code :: _) => some (e.add (1 + varintSize (asU64 code.value)))
          | _ => none
        else
          match e.seen.idxOf? a with
          | some idx => some (e.add (1 + varintSize (idx % 2 ^ 32)))
          | none =>
            if maxObjects ≤ e.seen.length then none
            else tabledExtent vm (fun o e => extent vm maxObjects room o e) m { e with seen := e.seen ++ [a] }

def messageExtent (vm : Vm) (root : Oop) (maxObjects : Nat) : Option Extent :=
  extent vm maxObjects MAX_DEPTH root Extent.start

structure Agrees (maxBytes : Nat) (s : PickleState) (e : Extent) : Prop where
  size : s.out.length = e.size
  seen : s.seen = e.seen
  passed : e.checked ≤ maxBytes

theorem Agrees.start (maxBytes : Nat) : Agrees maxBytes ⟨MAGIC, []⟩ Extent.start where
  size := rfl
  seen := rfl
  passed := Nat.zero_le _

structure Tracks (maxBytes : Nat) (x : PickleState → Except PickleErr PickleState) (y : Extent → Option Extent) :
    Prop where
  grows : ∀ {e e'}, y e = some e' → e.checked ≤ e.size → e.checked ≤ e'.checked ∧ e'.checked ≤ e'.size
  sound : ∀ {s s' e}, Agrees maxBytes s e → x s = .ok s' → ∃ e', y e = some e' ∧ Agrees maxBytes s' e'
  complete : ∀ {s e e'}, Agrees maxBytes s e → y e = some e' → e.checked ≤ e.size → e'.checked ≤ maxBytes →
    ∃ s', x s = .ok s'

namespace Tracks

variable {maxBytes : Nat} {x x' : PickleState → Except PickleErr PickleState} {y y' : Extent → Option Extent}

theorem fail {err : PickleErr} : Tracks maxBytes (fun _ => .error err) (fun _ => none) where
  grows h := by cases h
  sound _ h := by cases h
  complete _ h := by cases h

variable {n : Nat} {enc : List UInt8}

theorem write (hn : enc.length = n) : Tracks maxBytes (fun s => .ok (s.push enc)) (fun e => some (e.add n)) where
  grows h hle := by
    cases h
    exact ⟨Nat.le_refl _, Nat.le_add_right_of_le hle⟩
  sound ha h := by
    cases h
    refine ⟨_, rfl, ?_, ha.seen, ha.passed⟩
    simp only [PickleState.push, Extent.add, length_append, hn, ha.size]
  complete _ _ _ _ := ⟨_, rfl⟩

theorem pass : Tracks maxBytes (fun s => .ok s) some where
  grows h hle := by
    cases h
    exact ⟨Nat.le_refl _, hle⟩
  sound ha h := by
    cases h
    exact ⟨_, rfl, ha⟩
  complete _ _ _ _ := ⟨_, rfl⟩

theorem check : Tracks maxBytes (capped maxBytes) (fun e => some e.check) where
  grows h hle := by
    cases h
    exact ⟨hle, Nat.le_refl _⟩
  sound {s s' e} ha h := by
    unfold capped at h
    split at h
    next => cases h
    next hle =>
      cases h
      refine ⟨_, rfl, ha.size, ha.seen, ?_⟩
      rw [Extent.check, ← ha.size]
      exact Nat.not_lt.mp hle
  complete {s e e'} ha h hle hmax := by
    cases h
    unfold capped
    rw [if_neg]
    · exact ⟨_, rfl⟩
    · rw [ha.size]
      exact Nat.not_lt.mpr hmax

theorem comp (h : Tracks maxBytes x y) (h' : Tracks maxBytes x' y') :
    Tracks maxBytes (fun s => x s >>= x') (fun e => (y e).bind y') where
  grows he hle := by
    obtain ⟨e₁, he₁, he'⟩ := bind_eq_some_iff.mp he
    obtain ⟨hle₁, hsize₁⟩ := h.grows he₁ hle
    obtain ⟨hle₂, hsize₂⟩ := h'.grows he' hsize₁
    exact ⟨Nat.le_trans hle₁ hle₂, hsize₂⟩
  sound ha hx := by
    obtain ⟨s₁, hs₁, hx'⟩ := except_bind_ok.mp hx
    obtain ⟨e₁, he₁, ha₁⟩ := h.sound ha hs₁
    obtain ⟨e', he', ha'⟩ := h'.sound ha₁ hx'
    exact ⟨e', bind_eq_some_iff.mpr ⟨e₁, he₁, he'⟩, ha'⟩
  complete ha he hle hmax := by
    obtain ⟨e₁, he₁, he'⟩ := bind_eq_some_iff.mp he
    obtain ⟨_, hsize₁⟩ := h.grows he₁ hle
    obtain ⟨hle₂, _⟩ := h'.grows he' hsize₁
    obtain ⟨s₁, hs₁⟩ := h.complete ha he₁ hle (Nat.le_trans hle₂ hmax)
    obtain ⟨e₁', he₁', ha₁⟩ := h.sound ha hs₁
    cases (he₁.symm.trans he₁')
    obtain ⟨s', hs'⟩ := h'.complete ha₁ he' hsize₁ hmax
    exact ⟨s', except_bind_ok.mpr ⟨s₁, hs₁, hs'⟩⟩

theorem map (h : Tracks maxBytes x y) {f : Extent → Extent} (h' : Tracks maxBytes x' fun e => some (f e)) :
    Tracks maxBytes (fun s => x s >>= x') (fun e => (y e).map f) := by
  have hmap : (fun e => (y e).map f) = fun e => (y e).bind fun e => some (f e) := by
    funext e
    cases y e <;> rfl
  rw [hmap]
  exact h.comp h'

theorem ite {p : Prop} [Decidable p] (h : Tracks maxBytes x y) (h' : Tracks maxBytes x' y') :
    Tracks maxBytes (fun s => if p then x s else x' s) (fun e => if p then y e else y' e) := by
  by_cases hp : p
  · simp only [hp, if_true]
    exact h
  · simp only [hp, if_false]
    exact h'

theorem after (hn : enc.length = n) (h : Tracks maxBytes x y) :
    Tracks maxBytes (fun s => x (s.push enc)) (fun e => y (e.add n)) := (write hn).comp h

theorem behind (h : Tracks maxBytes x y) :
    Tracks maxBytes (fun s => if maxBytes < s.out.length then .error .tooBig else x s) (fun e => y e.check) := by
  have hcapped : (fun s : PickleState => if maxBytes < s.out.length then .error .tooBig else x s) =
      fun s => capped maxBytes s >>= x := by
    funext s
    unfold capped
    split <;> rfl
  rw [hcapped]
  exact check.comp h

theorem table (a : Nat) (h : Tracks maxBytes x y) :
    Tracks maxBytes (fun s => x { s with seen := s.seen ++ [a] }) (fun e => y { e with seen := e.seen ++ [a] }) where
  grows {e _} he hle := h.grows (e := { e with seen := e.seen ++ [a] }) he hle
  sound {s _ e} ha hx := by
    have ha' : Agrees maxBytes { s with seen := s.seen ++ [a] } { e with seen := e.seen ++ [a] } :=
      ⟨ha.size, congrArg (· ++ [a]) ha.seen, ha.passed⟩
    exact h.sound ha' hx
  complete {s e _} ha he hle hmax := by
    have ha' : Agrees maxBytes { s with seen := s.seen ++ [a] } { e with seen := e.seen ++ [a] } :=
      ⟨ha.size, congrArg (· ++ [a]) ha.seen, ha.passed⟩
    exact h.complete ha' he hle hmax

theorem lookup {x : List Nat → PickleState → Except PickleErr PickleState} {y : List Nat → Extent → Option Extent}
    (h : ∀ seen, Tracks maxBytes (x seen) (y seen)) :
    Tracks maxBytes (fun s => x s.seen s) (fun e => y e.seen e) where
  grows he hle := (h _).grows he hle
  sound {s _ e} ha hx := by
    simp only [ha.seen] at hx
    exact (h e.seen).sound ha hx
  complete {s e _} ha he hle hmax := by
    simp only [ha.seen]
    exact (h e.seen).complete ha he hle hmax

theorem each {child : Oop → PickleState → Except PickleErr PickleState} {child' : Oop → Extent → Option Extent}
    (h : ∀ o, Tracks maxBytes (child o) (child' o)) :
    ∀ os, Tracks maxBytes (pkEach child os) (eachExtent child' os)
  | [] => pass
  | o :: os => (h o).comp (each h os)

variable {child : Oop → PickleState → Except PickleErr PickleState} {child' : Oop → Extent → Option Extent}
  {vm : Vm} {m : Object}

theorem leaf {header : List UInt8} (hn : header.length = n) : Tracks maxBytes (fun s => do
      let bytes ← readBytesOut m
      return s.push (header ++ (writeVarint bytes.length ++ bytes))) (fun e => m.body.leafExtent n e) := by
  unfold readBytesOut Body.leafExtent
  cases hbody : m.body with
  | bytes named tail =>
    apply write
    simp only [length_append, varintSize]
    omega
  | _ => exact fail

theorem floats : Tracks maxBytes (fun s => do
    let bytes ← readBytesOut m
    if bytes.length % 8 ≠ 0 then .error (.unpicklable "ragged FloatArray")
    else return s.push (Tag.floatArray.byte :: (writeVarint (bytes.length / 8) ++ bytes)))
    (fun e => m.body.floatsExtent e) := by
  unfold readBytesOut Body.floatsExtent
  cases hbody : m.body with
  | bytes named tail =>
    apply ite fail
    apply write
    simp only [length_cons, length_append, varintSize]
    omega
  | _ => exact fail

theorem object (h : ∀ o, Tracks maxBytes (child o) (child' o)) (k : Klass) :
    Tracks maxBytes (pkObject maxBytes child k m) (objectExtent child' k m.body) := by
  unfold pkObject objectExtent
  cases hkind : subkindOf k.format with
  | error err => exact fail
  | ok subkind =>
    cases hname : k.name with
    | none => exact fail
    | some name =>
      have hheader : (Tag.object.byte :: (writeVarint name.length ++ name ++ writeVarint k.nslots ++
          [subkind.byte])).length = 2 + varintSize name.length + name.length + varintSize k.nslots := by
        simp only [length_cons, length_append, length_nil, varintSize]
        omega
      cases subkind with
      | slots =>
        cases hbody : m.body with
        | slots named => exact after hheader ((each h named).map check)
        | _ => exact fail
      | oops =>
        cases hbody : m.body with
        | oops named elements =>
          have hcount : (writeVarint elements.length).length = varintSize elements.length := rfl
          have hrest := (each h named).comp ((each h elements).map check)
          exact after hheader (after hcount hrest)
        | _ => exact fail
      | bytes =>
        cases hbody : m.body with
        | bytes named tail =>
          have hlast : Tracks maxBytes (fun s => capped maxBytes (s.push tail))
              (fun e => some (e.add tail.length).check) := after (y := fun e => some e.check) rfl check
          have hcount : (writeVarint tail.length).length = varintSize tail.length := rfl
          have hrest := (each h named).map hlast
          exact after hheader (after hcount hrest)
        | _ => exact fail

theorem character (m : Object) : Tracks maxBytes (fun s => match m.body with
    | .slots (.smi code :: _) => .ok (s.push (Tag.char.byte :: writeVarint (asU64 code.value)))
    | .slots (_ :: _) => .error (.unpicklable "Character with a non-smi code")
    | _ => .error .aborted) (fun e => match m.body with
    | .slots (.smi code :: _) => some (e.add (1 + varintSize (asU64 code.value)))
    | _ => none) := by
  cases hbody : m.body with
  | slots named =>
    cases named with
    | nil => exact fail
    | cons code rest =>
      cases code with
      | smi code =>
        apply write
        simp only [length_cons, varintSize]
        omega
      | _ => exact fail
  | _ => exact fail

theorem tabled (h : ∀ o, Tracks maxBytes (child o) (child' o)) :
    Tracks maxBytes (pkTabled vm maxBytes child m) (tabledExtent vm child' m) := by
  have hone (tag : Tag) : [tag.byte].length = 1 := rfl
  have htwo (neg : UInt8) : [Tag.largeInt.byte, neg].length = 2 := rfl
  apply ite (leaf (hone .symbol))
  apply ite (leaf (hone .string))
  apply ite (leaf (hone .byteArray))
  apply ite floats
  apply ite (leaf (htwo (if m.klass = vm.univ.largeNegIntKlass then 1 else 0)))
  apply ite
  · cases hbody : m.body with
    | oops named elements =>
      apply after _ (each h elements)
      simp only [length_cons, varintSize]
      omega
    | _ => exact fail
  apply ite fail
  apply ite fail
  exact object h (vm.klasses m.klass)

theorem back (idx : Nat) : Tracks maxBytes (fun s => .ok (s.push (Tag.backref.byte :: writeVarint (idx % 2 ^ 32))))
    (fun e => some (e.add (1 + varintSize (idx % 2 ^ 32)))) := by
  apply write
  simp only [length_cons, varintSize]
  omega

theorem reference {maxObjects : Nat} (h : ∀ o, Tracks maxBytes (child o) (child' o)) (a : Nat) :
    Tracks maxBytes (fun s => match vm.heap[a]? with
      | none => .error .aborted
      | some m =>
        if m.klass = vm.univ.doubleKlass then
          match m.body with
          | .double bits => .ok (s.push (Tag.double.byte :: toLeBytes bits))
          | _ => .error .aborted
        else if m.klass = vm.univ.characterKlass then
          match m.body with
          | .slots (.smi code :: _) => .ok (s.push (Tag.char.byte :: writeVarint (asU64 code.value)))
          | .slots (_ :: _) => .error (.unpicklable "Character with a non-smi code")
          | _ => .error .aborted
        else
          match s.seen.idxOf? a with
          | some idx => .ok (s.push (Tag.backref.byte :: writeVarint (idx % 2 ^ 32)))
          | none =>
            if maxObjects ≤ s.seen.length then .error .tooManyObjects
            else pkTabled vm maxBytes child m { s with seen := s.seen ++ [a] })
      (fun e => match vm.heap[a]? with
      | none => none
      | some m =>
        if m.klass = vm.univ.doubleKlass then
          match m.body with
          | .double _ => some (e.add 9)
          | _ => none
        else if m.klass = vm.univ.characterKlass then
          match m.body with
          | .slots (.smi code :: _) => some (e.add (1 + varintSize (asU64 code.value)))
          | _ => none
        else
          match e.seen.idxOf? a with
          | some idx => some (e.add (1 + varintSize (idx % 2 ^ 32)))
          | none =>
            if maxObjects ≤ e.seen.length then none
            else tabledExtent vm child' m { e with seen := e.seen ++ [a] }) := by
  cases hm : vm.heap[a]? with
  | none => exact fail
  | some m =>
    apply ite
    · cases hbody : m.body with
      | double bits => exact write rfl
      | _ => exact fail
    apply ite (character m)
    have hseen (seen : List Nat) : Tracks maxBytes (fun s => match seen.idxOf? a with
        | some idx => .ok (s.push (Tag.backref.byte :: writeVarint (idx % 2 ^ 32)))
        | none =>
          if maxObjects ≤ seen.length then .error .tooManyObjects
          else pkTabled vm maxBytes child m { s with seen := s.seen ++ [a] })
        (fun e => match seen.idxOf? a with
        | some idx => some (e.add (1 + varintSize (idx % 2 ^ 32)))
        | none =>
          if maxObjects ≤ seen.length then none else tabledExtent vm child' m { e with seen := e.seen ++ [a] }) := by
      cases seen.idxOf? a with
      | some idx => exact back idx
      | none => exact ite fail (table a (tabled h))
    exact lookup hseen

theorem node (maxObjects : Nat) : ∀ room o,
    Tracks maxBytes (pk vm maxBytes maxObjects room o) (extent vm maxObjects room o) := by
  intro room
  induction room with
  | zero => intro o; exact fail
  | succ room ih =>
    intro o
    cases o with
    | nilObj | falseObj | trueObj => exact behind (write rfl)
    | smi v =>
      have hlen : (Tag.smi.byte :: writeVarint (zigzag v)).length = 1 + varintSize (zigzag v) := Nat.add_comm _ _
      exact behind (write hlen)
    | other word => exact behind fail
    | mem a => exact behind (reference ih a)

end Tracks

variable {maxBytes maxObjects : Nat} {root : Oop} {vm : Vm}

theorem messageExtent_sound {bytes : List UInt8} (h : pickleWithLimits vm root maxBytes maxObjects = .ok bytes) :
    ∃ e, messageExtent vm root maxObjects = some e ∧ e.checked ≤ maxBytes ∧ bytes.length = e.size := by
  obtain ⟨s, hs, hout⟩ := except_bind_ok.mp h
  cases hout
  obtain ⟨e, he, ha⟩ := (Tracks.node maxObjects MAX_DEPTH root).sound (Agrees.start maxBytes) hs
  exact ⟨e, he, ha.passed, ha.size⟩

theorem messageExtent_complete {e : Extent}
    (he : messageExtent vm root maxObjects = some e) (hle : e.checked ≤ maxBytes) :
    ∃ bytes, pickleWithLimits vm root maxBytes maxObjects = .ok bytes := by
  obtain ⟨s, hs⟩ := (Tracks.node maxObjects MAX_DEPTH root).complete (Agrees.start maxBytes) he (Nat.zero_le _) hle
  exact ⟨s.out, except_bind_ok.mpr ⟨s, hs, rfl⟩⟩

/-- The limit is kept where it does not fall behind the last check and before the end. -/
theorem pickle_within_limit_iff (vm : Vm) (root : Oop) (maxBytes maxObjects : Nat) :
    (∀ bytes, pickleWithLimits vm root maxBytes maxObjects = .ok bytes → bytes.length ≤ maxBytes) ↔
      ∀ e, messageExtent vm root maxObjects = some e → maxBytes < e.checked ∨ e.size ≤ maxBytes := by
  constructor
  · intro h e he
    rcases Nat.lt_or_ge maxBytes e.checked with hlt | hle
    · exact .inl hlt
    · obtain ⟨bytes, hbytes⟩ := messageExtent_complete he hle
      obtain ⟨e', he', -, hlen⟩ := messageExtent_sound hbytes
      cases (he.symm.trans he')
      exact .inr (hlen ▸ h bytes hbytes)
  · intro h bytes hbytes
    obtain ⟨e, he, hchecked, hlen⟩ := messageExtent_sound hbytes
    rcases h e he with hlt | hle
    · exact absurd hchecked (Nat.not_le.mpr hlt)
    · exact hlen ▸ hle

def zeroString (n : Nat) : Vm where
  univ := ⟨0, 1, 2, 3, 4, 5, 6, 7, 8, 9, 10, 11⟩
  klasses _ := ⟨none, .indexableBytes, 0⟩
  heap := [⟨4, .bytes [] (List.replicate n 0)⟩]
  symbols := []
  globals := []

theorem zeroString_extent (n : Nat) :
    messageExtent (zeroString n) (.mem 0) MAX_OBJECTS = some ⟨4 + (1 + varintSize n + n), 4, [0]⟩ := by
  have hlen : (List.replicate n (0 : UInt8)).length = n := length_replicate
  show Body.leafExtent 1 ⟨4, 4, [0]⟩ (.bytes [] (List.replicate n 0)) = _
  simp only [Body.leafExtent, Extent.add, hlen]

/-- A String of `MAX_BYTES` bytes is sent under the default limit. -/
theorem pickle_exceeds_limit : ∃ bytes,
    pickle (zeroString MAX_BYTES) (.mem 0) = .ok bytes ∧ MAX_BYTES < bytes.length := by
  have hextent := zeroString_extent MAX_BYTES
  have hchecked : 4 ≤ MAX_BYTES := by decide
  obtain ⟨bytes, hbytes⟩ := messageExtent_complete hextent hchecked
  obtain ⟨e, he, -, hlen⟩ := messageExtent_sound hbytes
  cases (hextent.symm.trans he)
  refine ⟨bytes, hbytes, ?_⟩
  rw [hlen]
  show MAX_BYTES < 4 + (1 + varintSize MAX_BYTES + MAX_BYTES)
  omega

end WinArmVm.Mop
