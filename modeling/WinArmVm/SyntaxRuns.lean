import WinArmVm.Tiling

namespace WinArmVm.WinSyntax

open Option List

def isDigit (c : UInt8) : Bool := 48 ≤ c && c ≤ 57

def isUppercase (c : UInt8) : Bool := 65 ≤ c && c ≤ 90

def isLetter (c : UInt8) : Bool := 65 ≤ c && c ≤ 90 || 97 ≤ c && c ≤ 122

def isLetterOrDigit (c : UInt8) : Bool := isLetter c || isDigit c

def chars (s : String) : List UInt8 := s.toList.map Char.toUInt8

def isSpecialChar (c : UInt8) : Bool := (chars "^.;()[]").contains c || c == '{'.toUInt8 || c == '}'.toUInt8

def isBinaryChar (c : UInt8) : Bool := (chars "+-*/~<>=&@%,?!\\|:").contains c

def isPseudoVariable (w : List UInt8) : Bool :=
  (["self", "super", "nil", "true", "false", "thisContext"].map chars).contains w

inductive Kind where
  | comment | string | symbol | character | number | keyword | binary | special | pseudo | classname | identifier | plain
deriving DecidableEq, Repr

structure Run where
  start : Nat
  length : Nat
  kind : Kind
deriving DecidableEq, Repr

/-- `at:`, which raises outside the string. -/
def charAt (src : List UInt8) : Nat → Option UInt8
  | 0 => none
  | i + 1 => src[i]?

def test (src : List UInt8) (p : UInt8 → Bool) (i : Nat) : Option Bool := (charAt src i).map p

/-- `and:`, which asks its block only where the receiver is true. -/
def andThen (a : Bool) (b : Option Bool) : Option Bool := if a then b else some false

def orElse (a : Bool) (b : Option Bool) : Option Bool := if a then some true else b

section Scanners

variable (src : List UInt8) (n : Nat)

def scanWhile (p : UInt8 → Bool) (j : Nat) : Option Nat := do
  if j ≤ n then
    let c ← charAt src j
    if p c then scanWhile p (j + 1) else some j
  else some j
termination_by n + 1 - j

def scanDelimited (d : UInt8) (j : Nat) : Option Nat := do
  if j ≤ n then
    let c ← charAt src j
    if c = d then
      let doubled ← andThen (j < n) (test src (· = d) (j + 1))
      if doubled then scanDelimited d (j + 2) else some (j + 1)
    else scanDelimited d (j + 1)
  else some (n + 1)
termination_by n + 1 - j

def scanBinaryIn (i : Nat) : Option Nat := scanWhile src n isBinaryChar i

def scanWordIn (i : Nat) : Option Nat := scanWhile src n (fun c => isLetterOrDigit c || c = '_'.toUInt8) i

def scanSpecialIn (i : Nat) : Nat := i + 1

def scanSymbolIn (i : Nat) : Option Nat := do
  if i > n then some i
  else
    let c ← charAt src i
    if c = '\''.toUInt8 then scanDelimited src n '\''.toUInt8 (i + 1)
    else if isBinaryChar c then scanBinaryIn src n i
    else scanWhile src n (fun c => isLetterOrDigit c || (c = '_'.toUInt8 || c = ':'.toUInt8)) i

def scanRadix (j : Nat) : Option Nat := do
  let r ← andThen (j ≤ n) (test src (· = 'r'.toUInt8) j)
  if r then scanWhile src n isLetterOrDigit (j + 1) else some j

def scanFraction (j : Nat) : Option Nat := do
  let point ← andThen (j < n) do
    let p ← test src (· = '.'.toUInt8) j
    andThen p (test src isDigit (j + 1))
  if point then scanWhile src n isDigit (j + 1) else some j

def exponentFollows (j : Nat) : Option Bool := do
  let digit ← andThen (j < n) (test src isDigit (j + 1))
  orElse digit (andThen (j + 1 < n) do
    let minus ← test src (· = '-'.toUInt8) (j + 1)
    andThen minus (test src isDigit (j + 2)))

def scanExponent (j : Nat) : Option Nat := do
  let e ← andThen (j ≤ n) (test src (fun c => c = 'e'.toUInt8 || c = 'd'.toUInt8) j)
  if e then
    let exponent ← exponentFollows src n j
    if exponent then scanWhile src n isDigit (j + 2) else some j
  else some j

def scanNumberIn (i : Nat) : Option Nat := do
  let j ← scanWhile src n isDigit i
  let j ← scanRadix src n j
  let j ← scanFraction src n j
  scanExponent src n j

def kindOfWord (w : List UInt8) (j : Nat) : Option Kind := do
  let keyword ← andThen (j ≤ n) do
    let colon ← test src (· = ':'.toUInt8) j
    andThen colon (orElse (j = n) (test src (· ≠ '='.toUInt8) (j + 1)))
  if keyword then some .keyword
  else if isPseudoVariable w then some .pseudo
  else
    let first ← w.head?
    some (if isUppercase first then .classname else .identifier)

/-- The end of the run that begins with the character at `i`, and its kind. -/
def runAt (c : UInt8) (i : Nat) : Option (Nat × Kind) :=
  if c = '"'.toUInt8 then (scanDelimited src n '"'.toUInt8 (i + 1)).map (·, .comment)
  else if c = '\''.toUInt8 then (scanDelimited src n '\''.toUInt8 (i + 1)).map (·, .string)
  else if c = '$'.toUInt8 then some (min (i + 2) (n + 1), .character)
  else if c = '#'.toUInt8 then (scanSymbolIn src n (i + 1)).map (·, .symbol)
  else if isDigit c then (scanNumberIn src n i).map (·, .number)
  else if isLetter c then do
    let j ← scanWordIn src n i
    let kind ← kindOfWord src n ((src.drop (i - 1)).take (j - i)) j
    some (j, kind)
  else if isSpecialChar c then some (scanSpecialIn i, .special)
  else if isBinaryChar c then (scanBinaryIn src n i).map (·, .binary)
  else some (i + 1, .plain)

/-- The loop, in so many turns. -/
def runsFrom : Nat → Nat → Option (List Run)
  | 0, _ => none
  | turns + 1, i => do
    if i ≤ n then
      let c ← charAt src i
      let (j, kind) ← runAt src n c i
      let rest ← runsFrom turns j
      some (⟨i, j - i, kind⟩ :: rest)
    else some []

end Scanners

/-- The runs of a string; none where something raises or the turns run out. -/
def runsFor (src : List UInt8) : Option (List Run) := runsFrom src src.length (src.length + 1) 1

section Ends

variable {src : List UInt8}

def Ends (src : List UInt8) (j : Nat) (x : Option Nat) : Prop := ∃ k, x = some k ∧ j ≤ k ∧ k ≤ src.length + 1

/-- The test answers, and only says yes where the proposition holds. -/
def Decides (P : Prop) (x : Option Bool) : Prop := ∃ b, x = some b ∧ (b = true → P)

variable {P : Prop} {j : Nat} {a : Bool} {i : Nat}

theorem charAt_some (hpos : 0 < i) (hi : i ≤ src.length) : ∃ c, charAt src i = some c := by
  cases i with
  | zero => omega
  | succ i => exact ⟨src[i], getElem?_eq_getElem (by omega)⟩

theorem Ends.here (hj : j ≤ src.length + 1) : Ends src j (some j) := ⟨j, rfl, Nat.le_refl _, hj⟩

theorem Ends.mono {i j : Nat} {x : Option Nat} (h : Ends src j x) (hi : i ≤ j) : Ends src i x := by
  obtain ⟨k, hx, hk, hn⟩ := h
  exact ⟨k, hx, by omega, hn⟩

theorem Ends.bind {x : Option Nat} {f : Nat → Option Nat} (h : Ends src j x)
    (hf : ∀ k, j ≤ k → k ≤ src.length + 1 → Ends src k (f k)) : Ends src j (x >>= f) := by
  obtain ⟨k, rfl, hk, hn⟩ := h
  exact (hf k hk hn).mono hk

variable {b : Option Bool}

theorem Ends.cond {x y : Option Nat} (hb : Decides P b) (hx : P → Ends src j x)
    (hy : Ends src j y) : Ends src j (b >>= fun b => if b then x else y) := by
  obtain ⟨b, rfl, hP⟩ := hb
  cases b with
  | true => exact hx (hP rfl)
  | false => exact hy

theorem Decides.test {p : UInt8 → Bool} (hpos : 0 < i) (hi : i ≤ src.length) : Decides True (test src p i) := by
  obtain ⟨c, hc⟩ := charAt_some hpos hi
  exact ⟨p c, by rw [WinSyntax.test, hc, map_some], fun _ => trivial⟩

theorem Decides.andThen (ha : a = true → P) (hb : P → Decides True b) : Decides P (andThen a b) := by
  cases a with
  | true =>
    obtain ⟨b, hb, -⟩ := hb (ha rfl)
    exact ⟨b, hb, fun _ => ha rfl⟩
  | false => exact ⟨false, rfl, fun h => nomatch h⟩

theorem Decides.orElse (ha : a = true → P) (hb : a = false → Decides P b) : Decides P (orElse a b) := by
  cases a with
  | true => exact ⟨true, rfl, ha⟩
  | false => exact hb rfl

theorem Decides.bind {P Q : Prop} {a : Option Bool} {f : Bool → Option Bool} (ha : Decides P a)
    (hf : ∀ b, (b = true → P) → Decides Q (f b)) : Decides Q (a >>= f) := by
  obtain ⟨b, rfl, hP⟩ := ha
  exact hf b hP

theorem Decides.both {p q : UInt8 → Bool} {i j : Nat} (hi : 0 < i) (hj : 0 < j) (hin : i ≤ src.length) (hjn : j ≤ src.length) :
    Decides True (WinSyntax.test src p i >>= fun b => WinSyntax.andThen b (WinSyntax.test src q j)) :=
  (Decides.test hi hin).bind fun _ _ => Decides.andThen (fun _ => trivial) fun _ => Decides.test hj hjn

end Ends

section Scans

variable {src : List UInt8} {p : UInt8 → Bool} {d : UInt8} {j : Nat}

section

variable (hpos : 0 < j) (hj : j ≤ src.length + 1)

include hpos hj

theorem scanWhile_ends : Ends src j (scanWhile src src.length p j) := by
  fun_induction scanWhile src src.length p j with
  | case1 j hle ih =>
    obtain ⟨c, hc⟩ := charAt_some hpos hle
    rw [hc]
    simp only [bind_eq_bind, bind_some]
    split
    next => exact (ih (by omega) (by omega)).mono (by omega)
    next => exact Ends.here hj
  | case2 j hle => exact Ends.here hj

omit hpos hj in
theorem scanWhile_moves {c : UInt8} (hc : charAt src j = some c) (hp : p c = true) (hpos : 0 < j) (hj : j ≤ src.length) :
    Ends src (j + 1) (scanWhile src src.length p j) := by
  rw [scanWhile, if_pos hj, hc]
  simp only [bind_eq_bind, bind_some, if_pos hp]
  exact scanWhile_ends (by omega) (by omega)

theorem scanDelimited_ends : Ends src j (scanDelimited src src.length d j) := by
  fun_induction scanDelimited src src.length d j with
  | case1 j hle ih ih' =>
    obtain ⟨c, hc⟩ := charAt_some hpos hle
    rw [hc]
    simp only [bind_eq_bind, bind_some]
    split
    next =>
      have hb : Decides (j < src.length) (andThen (j < src.length) (test src (· = d) (j + 1))) :=
        Decides.andThen of_decide_eq_true fun h => Decides.test (by omega) h
      apply Ends.cond hb
      · intro h
        exact (ih (by omega) (by omega)).mono (by omega)
      · exact ⟨j + 1, rfl, by omega, by omega⟩
    next => exact (ih' (by omega) (by omega)).mono (by omega)
  | case2 j hle => exact ⟨src.length + 1, rfl, hj, Nat.le_refl _⟩

theorem scanSymbolIn_ends : Ends src j (scanSymbolIn src src.length j) := by
  unfold scanSymbolIn
  split
  next => exact Ends.here hj
  next hle =>
    obtain ⟨c, hc⟩ := charAt_some hpos (by omega : j ≤ src.length)
    rw [hc]
    simp only [bind_eq_bind, bind_some]
    split
    next => exact (scanDelimited_ends (by omega) (by omega)).mono (by omega)
    next =>
      split
      next => exact scanWhile_ends hpos hj
      next => exact scanWhile_ends hpos hj

theorem scanRadix_ends : Ends src j (scanRadix src src.length j) := by
  apply Ends.cond (Decides.andThen of_decide_eq_true (Decides.test hpos))
  · intro h
    exact (scanWhile_ends (by omega) (by omega)).mono (by omega)
  · exact Ends.here hj

theorem scanFraction_ends : Ends src j (scanFraction src src.length j) := by
  apply Ends.cond (Decides.andThen of_decide_eq_true fun h => Decides.both hpos (Nat.succ_pos j) (Nat.le_of_lt h) h)
  · intro h
    exact (scanWhile_ends (by omega) (by omega)).mono (by omega)
  · exact Ends.here hj

omit hpos hj in
theorem exponentFollows_decides : Decides (j < src.length) (exponentFollows src src.length j) := by
  have hdigit : Decides (j < src.length) (andThen (j < src.length) (test src isDigit (j + 1))) :=
    Decides.andThen of_decide_eq_true fun h => Decides.test (Nat.succ_pos j) h
  refine hdigit.bind fun digit h => Decides.orElse h fun _ => ?_
  have hminus : Decides (j + 1 < src.length) (andThen (j + 1 < src.length) (test src (· = '-'.toUInt8) (j + 1) >>= fun minus =>
      andThen minus (test src isDigit (j + 2)))) :=
    Decides.andThen of_decide_eq_true fun h => Decides.both (Nat.succ_pos j) (Nat.succ_pos _) (Nat.le_of_lt h) h
  obtain ⟨b, hb, hlt⟩ := hminus
  exact ⟨b, hb, fun h => Nat.lt_of_succ_lt (hlt h)⟩

theorem scanExponent_ends : Ends src j (scanExponent src src.length j) := by
  apply Ends.cond (Decides.andThen of_decide_eq_true (Decides.test hpos))
  · intro _
    apply Ends.cond exponentFollows_decides
    · intro h
      exact (scanWhile_ends (by omega) (by omega)).mono (by omega)
    · exact Ends.here hj
  · exact Ends.here hj

end

theorem scanNumberIn_moves {c : UInt8} (hc : charAt src j = some c) (hp : isDigit c = true) (hpos : 0 < j)
    (hj : j ≤ src.length) : Ends src (j + 1) (scanNumberIn src src.length j) := by
  apply (scanWhile_moves hc hp hpos hj).bind
  intro j₁ hle hj₁
  apply (scanRadix_ends (by omega) hj₁).bind
  intro j₂ hle₂ hj₂
  apply (scanFraction_ends (by omega) hj₂).bind
  intro j₃ hle₃ hj₃
  exact scanExponent_ends (by omega) hj₃

theorem kindOfWord_some {w : List UInt8} (hw : w ≠ []) (hpos : 0 < j) : ∃ kind, kindOfWord src src.length w j = some kind := by
  have hb : Decides (j ≤ src.length) (andThen (j ≤ src.length) (test src (· = ':'.toUInt8) j >>= fun colon =>
      andThen colon (orElse (j = src.length) (test src (· ≠ '='.toUInt8) (j + 1))))) := by
    refine Decides.andThen of_decide_eq_true fun h => (Decides.test hpos h).bind fun _ _ => ?_
    refine Decides.andThen (fun _ => trivial) fun _ => Decides.orElse (fun _ => trivial) fun hne => ?_
    have hne := of_decide_eq_false hne
    exact Decides.test (by omega) (by omega)
  obtain ⟨b, hb, -⟩ := hb
  unfold kindOfWord
  rw [hb]
  cases w with
  | nil => exact absurd rfl hw
  | cons first rest =>
    cases b with
    | true => exact ⟨_, rfl⟩
    | false =>
      split
      next => exact ⟨_, rfl⟩
      next => exact ⟨_, rfl⟩

theorem runAt_moves {c : UInt8} (hc : charAt src j = some c) (hpos : 0 < j) (hj : j ≤ src.length) :
    ∃ k kind, runAt src src.length c j = some (k, kind) ∧ j < k ∧ k ≤ src.length + 1 := by
  have hmap : ∀ {x : Option Nat} (kind : Kind), Ends src (j + 1) x →
      ∃ k kind', x.map (·, kind) = some (k, kind') ∧ j < k ∧ k ≤ src.length + 1 := by
    intro x kind h
    obtain ⟨k, rfl, hk, hn⟩ := h
    exact ⟨k, kind, rfl, hk, hn⟩
  unfold runAt
  split
  next => exact hmap _ (scanDelimited_ends (by omega) (by omega))
  split
  next => exact hmap _ (scanDelimited_ends (by omega) (by omega))
  split
  next => exact ⟨_, _, rfl, by omega, by omega⟩
  split
  next => exact hmap _ (scanSymbolIn_ends (by omega) (by omega))
  split
  next hp => exact hmap _ (scanNumberIn_moves hc hp hpos hj)
  split
  next hp =>
    obtain ⟨k, hk, hle, hn⟩ := scanWhile_moves (p := fun c => isLetterOrDigit c || c = '_'.toUInt8) hc
      (by simp [isLetterOrDigit, hp]) hpos hj
    have hw : (src.drop (j - 1)).take (k - j) ≠ [] := by
      rw [← length_pos_iff, length_take, length_drop]
      omega
    obtain ⟨kind, hkind⟩ := @kindOfWord_some src _ _ hw (by omega : 0 < k)
    refine ⟨k, kind, ?_, hle, hn⟩
    rw [scanWordIn, hk]
    simp only [bind_eq_bind, bind_some, hkind]
  split
  next => exact ⟨_, _, rfl, by unfold scanSpecialIn; omega, by unfold scanSpecialIn; omega⟩
  split
  next hp => exact hmap _ (scanWhile_moves hc hp hpos hj)
  next => exact ⟨_, _, rfl, by omega, by omega⟩

end Scans

open Tiling

variable {src : List UInt8}

theorem runsFrom_tiles (turns : Nat) : ∀ i, 0 < i → i ≤ src.length + 1 → src.length + 1 < turns + i →
    ∃ runs, runsFrom src src.length turns i = some runs ∧ Tiles Run.start Run.length i runs (src.length + 1) := by
  induction turns with
  | zero =>
    intro i _ hi ht
    omega
  | succ turns ih =>
    intro i hpos hi ht
    unfold runsFrom
    split
    next hle =>
      obtain ⟨c, hc⟩ := charAt_some hpos hle
      obtain ⟨k, kind, hrun, hk, hn⟩ := runAt_moves hc hpos hle
      obtain ⟨runs, hruns, htiles⟩ := ih k (by omega) hn (by omega)
      rw [hc]
      simp only [bind_eq_bind, bind_some, hrun, hruns]
      refine ⟨_, rfl, Tiles.cons rfl (Nat.sub_pos_of_lt hk) ?_⟩
      rwa [Nat.add_sub_cancel' (Nat.le_of_lt hk)]
    next hgt =>
      have hend : i = src.length + 1 := by omega
      rw [hend]
      exact ⟨[], rfl, Tiles.nil _⟩

theorem tiles_reassemble {i stop : Nat} {runs : List Run} (h : Tiles Run.start Run.length i runs stop)
    (hpos : 0 < i) : (runs.flatMap fun r => (src.drop (r.start - 1)).take r.length) = (src.drop (i - 1)).take (stop - i) := by
  induction h with
  | nil i => simp
  | @cons i stop r rest hs _ ht ih =>
    have hle := ht.le
    have hstop : stop - i = r.length + (stop - (i + r.length)) := by omega
    have hnext : i + r.length - 1 = i - 1 + r.length := by omega
    rw [flatMap_cons, ih (by omega), hs, hstop, take_add, drop_drop, hnext]

/-- The runs are the source cut into pieces, in order and without a gap. -/
theorem runsFor_tiles (src : List UInt8) : ∃ runs, runsFor src = some runs ∧
    Tiles Run.start Run.length 1 runs (src.length + 1) ∧
    (runs.flatMap fun r => (src.drop (r.start - 1)).take r.length) = src := by
  obtain ⟨runs, hruns, htiles⟩ := @runsFrom_tiles src (src.length + 1) 1 Nat.one_pos (by omega) (by omega)
  refine ⟨runs, hruns, htiles, ?_⟩
  rw [tiles_reassemble htiles Nat.one_pos]
  simp

end WinArmVm.WinSyntax
