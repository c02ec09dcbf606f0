import Mathlib.Data.List.Induction
import WinArmVm.StateRun

namespace WinArmVm

open List Option
open Triple (bind_ok)

inductive CollectionError /-- An Array index the primitive refuses. -/
  | subscript
  | collectionIsEmpty
  | indexOutOfRange
  | indexOutOfBounds
  | objectNotFound
deriving DecidableEq, Repr

/-- The elements stand at `firstIndex..lastIndex` of the array, whose slots count from 1. -/
structure OrderedCollection (α : Type) where
  array : List α
  firstIndex : Int
  lastIndex : Int
deriving DecidableEq, Repr

namespace OrderedCollection

variable {α β : Type}

/-- What a method does to the collection it runs on; a raised error leaves the collection as it
is by then. -/
abbrev Act (α β : Type) : Type := EStateM CollectionError (OrderedCollection α) β

def slotAt (a : List α) (i : Int) : Option α := if 1 ≤ i then a[(i - 1).toNat]? else none

def slotPut (a : List α) (i : Int) (v : α) : Option (List α) :=
  if 1 ≤ i ∧ i ≤ a.length then some (a.set (i - 1).toNat v) else none

def checked (r : Option β) : Act α β :=
  match r with
  | none => throw .subscript
  | some b => pure b

def arrayAt (i : Int) : Act α α := do checked (slotAt (← get).array i)

def arrayPut (i : Int) (v : α) : Act α Unit := do
  let a ← checked (slotPut (← get).array i v)
  modify fun c => { c with array := a }

/-- The body of `i to: stop do:` for a number of turns. -/
def upFrom (body : Int → Act α Unit) : Nat → Int → Act α Unit
  | 0, _ => pure ()
  | n + 1, i => do
    body i
    upFrom body n (i + 1)

/-- The body of `i to: stop by: -1 do:` for a number of turns. -/
def downFrom (body : Int → Act α Unit) : Nat → Int → Act α Unit
  | 0, _ => pure ()
  | n + 1, i => do
    body i
    downFrom body n (i - 1)

-- the default object is `nil`
variable [Inhabited α]

def new : OrderedCollection α := ⟨List.replicate 8 default, 1, 0⟩

def size (c : OrderedCollection α) : Int := c.lastIndex - c.firstIndex + 1

def isEmpty (c : OrderedCollection α) : Bool := c.lastIndex < c.firstIndex

/-- Elements `i`, `i + 1`, … go into the new array, `extra` slots further on. -/
def copyElements (extra : Int) : Nat → Int → List α → Act α (List α)
  | 0, _, newArray => pure newArray
  | n + 1, i, newArray => do
    let v ← arrayAt ((← get).firstIndex + i - 1)
    copyElements extra n (i + 1) (← checked (slotPut newArray (extra + i) v))

def makeRoomAtEnd : Act α Unit := do
  let c ← get
  let n := c.size
  let newArray ← copyElements 0 n.toNat 1 (List.replicate (max c.array.length 1 * 2) default)
  set (⟨newArray, 1, n⟩ : OrderedCollection α)

def makeRoomAtFront : Act α Unit := do
  let c ← get
  let n := c.size
  let cap : Nat := max c.array.length 1 * 2
  let extra := cap - n
  let newArray ← copyElements extra n.toNat 1 (List.replicate cap default)
  set (⟨newArray, extra + 1, cap⟩ : OrderedCollection α)

def putLast (v : α) : Act α α := do
  modify fun c => { c with lastIndex := c.lastIndex + 1 }
  arrayPut (← get).lastIndex v
  pure v

def addLast (v : α) : Act α α := do
  if (← get).lastIndex = (← get).array.length then makeRoomAtEnd
  putLast v

def putFirst (v : α) : Act α α := do
  modify fun c => { c with firstIndex := c.firstIndex - 1 }
  arrayPut (← get).firstIndex v
  pure v

def addFirst (v : α) : Act α α := do
  if (← get).firstIndex = 1 then makeRoomAtFront
  putFirst v

def removeFirst : Act α α := do
  if (← get).isEmpty then throw .collectionIsEmpty
  let v ← arrayAt (← get).firstIndex
  arrayPut (← get).firstIndex default
  modify fun c => { c with firstIndex := c.firstIndex + 1 }
  pure v

def dropLastSlot : Act α Unit := do
  arrayPut (← get).lastIndex default
  modify fun c => { c with lastIndex := c.lastIndex - 1 }

def removeLast : Act α α := do
  if (← get).isEmpty then throw .collectionIsEmpty
  let v ← arrayAt (← get).lastIndex
  dropLastSlot
  pure v

def «at» (i : Int) : Act α α := do
  if ¬ (1 ≤ i ∧ i ≤ (← get).size) then throw .indexOutOfRange
  arrayAt ((← get).firstIndex + i - 1)

def atPut (i : Int) (v : α) : Act α α := do
  if ¬ (1 ≤ i ∧ i ≤ (← get).size) then throw .indexOutOfRange
  arrayPut ((← get).firstIndex + i - 1) v
  pure v

/-- The element after index `j` moves down to it. -/
def shiftDown (j : Int) : Act α Unit := do
  let v ← arrayAt ((← get).firstIndex + j)
  arrayPut ((← get).firstIndex + j - 1) v

def removeAtIndex (i : Int) : Act α α := do
  if ¬ (1 ≤ i ∧ i ≤ (← get).size) then throw .indexOutOfRange
  let v ← «at» i
  upFrom shiftDown ((← get).size - i).toNat i
  dropLastSlot
  pure v

/-- The first index, from `i` on, whose element is equal to the object. -/
def indexOf (eq : α → α → Bool) (anObject : α) : Nat → Int → Act α (Option Int)
  | 0, _ => pure none
  | n + 1, i => do
    if eq (← «at» i) anObject then pure (some i) else indexOf eq anObject n (i + 1)

/-- `none` where the block for an absent object answers. -/
def removeIfAbsent (eq : α → α → Bool) (oldObject : α) : Act α (Option α) := do
  match ← indexOf eq oldObject (← get).size.toNat 1 with
  | none => pure none
  | some i => some <$> removeAtIndex i

/-- The elements at `i`, `i + 1`, … as `do:` hands them to its block. -/
def elementsFrom : Nat → Int → Act α (List α)
  | 0, _ => pure []
  | n + 1, i => do
    let v ← arrayAt i
    pure (v :: (← elementsFrom n (i + 1)))

def elements : Act α (List α) := do elementsFrom (← get).size.toNat (← get).firstIndex

def within (c : OrderedCollection α) (act : Act α β) : Act α (β × OrderedCollection α) := fun s =>
  match act c with
  | .ok b c => .ok (b, c) s
  | .error e _ => .error e s

def addEach : List α → Act α Unit
  | [] => pure ()
  | v :: vs => do
    let _ ← addLast v
    addEach vs

def removeAllSuchThat (aBlock : α → Bool) : Act α Unit := do
  let each ← elements
  let (_, keep) ← within new (addEach (each.filter fun v => !aBlock v))
  let (kept, _) ← within keep elements
  set (⟨kept, 1, keep.size⟩ : OrderedCollection α)

/-- The element before index `i` moves up to it. -/
def shiftUp (i : Int) : Act α Unit := do
  let v ← «at» (i - 1)
  let _ ← atPut i v

def addBeforeIndex (newObject : α) (index : Int) : Act α α := do
  let n := (← get).size
  if ¬ (1 ≤ index ∧ index ≤ n + 1) then throw .indexOutOfBounds
  if index = n + 1 then addLast newObject
  else
    let last ← «at» n
    let _ ← addLast last
    downFrom shiftUp (n - index).toNat n
    let _ ← atPut index newObject
    pure newObject

def addEachFirst : List α → Act α Unit
  | [] => pure ()
  | v :: vs => do
    let _ ← addFirst v
    addEachFirst vs

def addAllFirst (aCollection : List α) : Act α (List α) := do
  addEachFirst aCollection.reverse
  pure aCollection

/-- The elements `xs` between the slack on either side. -/
def window (front xs back : List α) : OrderedCollection α :=
  ⟨front ++ xs ++ back, front.length + 1, front.length + xs.length⟩

def Holds (c : OrderedCollection α) (xs : List α) : Prop := ∃ front back, c = window front xs back

variable {front back xs pre post : List α} {v x : α}

section Window

omit [Inhabited α]

theorem size_window : (window front xs back).size = xs.length := by
  unfold size window
  dsimp only
  omega

theorem length_window : (window front xs back).array.length = front.length + xs.length + back.length := by
  unfold window
  rw [length_append, length_append]

theorem isEmpty_window : (window front xs back).isEmpty = true ↔ xs = [] := by
  rw [← length_eq_zero_iff]
  unfold isEmpty window
  dsimp only
  rw [decide_eq_true_eq]
  omega

variable {i : Int} {p : α → Bool} {a : List α}

theorem slotAt_append (hi : i = a.length + 1) : slotAt (a ++ x :: post) i = some x := by
  have hn : (i - 1).toNat = a.length := by omega
  unfold slotAt
  rw [if_pos (by omega), hn, getElem?_append_right (Nat.le_refl _), Nat.sub_self]
  rfl

theorem slotPut_append (hi : i = a.length + 1) : slotPut (a ++ x :: post) i v = some (a ++ v :: post) := by
  have hn : (i - 1).toNat = a.length := by omega
  unfold slotPut
  rw [if_pos ⟨by omega, by rw [length_append, length_cons]; omega⟩, hn,
    set_append_right _ _ (Nat.le_refl _), Nat.sub_self]
  rfl

theorem arrayAt_ok {c : OrderedCollection α} {a : List α} {i : Int} (hc : c.array = a ++ x :: post)
    (hi : i = a.length + 1) : arrayAt i c = .ok x c := by
  have h : arrayAt i c = checked (slotAt c.array i) c := rfl
  rw [h, hc, slotAt_append hi]
  rfl

theorem arrayPut_ok {c : OrderedCollection α} {a : List α} {i : Int} (hc : c.array = a ++ x :: post)
    (hi : i = a.length + 1) : arrayPut i v c = .ok () { c with array := a ++ v :: post } := by
  have h : arrayPut i v c = (checked (slotPut c.array i v) >>= fun a =>
    modify fun c => { c with array := a }) c := rfl
  rw [h, hc, slotPut_append hi]
  rfl

theorem arrayAt_window {i : Int} (hi : i = front.length + pre.length + 1) :
    arrayAt i (window front (pre ++ x :: post) back) = .ok x (window front (pre ++ x :: post) back) :=
  @arrayAt_ok _ (post ++ back) _ _ (front ++ pre) _ (by simp [window]) (by rw [length_append]; omega)

theorem arrayPut_window {i : Int} (hi : i = front.length + pre.length + 1) :
    arrayPut i v (window front (pre ++ x :: post) back) = .ok () (window front (pre ++ v :: post) back) := by
  rw [@arrayPut_ok _ (post ++ back) v x _ (front ++ pre) _ (by simp [window]) (by rw [length_append]; omega)]
  simp [window]

theorem copyElements_ok {a gap rest : List α} {extra i : Int} (hi : i = pre.length + 1)
    (ha : a.length = extra + pre.length) (hgap : gap.length = post.length) :
    copyElements extra post.length i (a ++ gap ++ rest) (window front (pre ++ post) back) =
      .ok (a ++ post ++ rest) (window front (pre ++ post) back) := by
  induction post generalizing pre a gap i with
  | nil =>
    rw [length_nil, length_eq_zero_iff] at hgap
    rw [hgap]
    rfl
  | cons x post ih =>
    obtain ⟨g, gap, rfl⟩ := exists_cons_of_length_eq_add_one (hgap.trans length_cons)
    have hread : arrayAt ((window front (pre ++ x :: post) back).firstIndex + i - 1)
        (window front (pre ++ x :: post) back) = .ok x (window front (pre ++ x :: post) back) :=
      arrayAt_window (by simp only [window]; omega)
    have hput : slotPut (a ++ (g :: gap) ++ rest) (extra + i) x = some ((a ++ [x]) ++ gap ++ rest) := by
      rw [append_assoc, cons_append, slotPut_append (by omega)]
      simp
    have hnext := @ih (pre ++ [x]) (a ++ [x]) gap (i + 1) (by rw [length_append, length_singleton]; omega)
      (by rw [length_append, length_append, length_singleton]; omega)
      (by rw [length_cons, length_cons] at hgap; omega)
    rw [append_assoc pre, singleton_append] at hnext
    have hstep : copyElements extra (x :: post).length i (a ++ (g :: gap) ++ rest)
        (window front (pre ++ x :: post) back) = copyElements extra post.length (i + 1) ((a ++ [x]) ++ gap ++ rest)
            (window front (pre ++ x :: post) back) := by
      have h : copyElements extra (x :: post).length i (a ++ (g :: gap) ++ rest) =
          (do
            let v ← arrayAt ((← get).firstIndex + i - 1)
            copyElements extra post.length (i + 1) (← checked (slotPut (a ++ (g :: gap) ++ rest) (extra + i) v))) := rfl
      rw [h]
      rw [Triple.get_bind]
      refine (bind_ok hread).trans ?_
      rw [hput]
      rfl
    rw [hstep, hnext]
    simp

theorem putLast_ok : putLast v (window front xs (x :: back)) = .ok v (window front (xs ++ [v]) back) := by
  have h := (@arrayPut_ok _ back v x ⟨front ++ xs ++ x :: back, front.length + 1, front.length + xs.length + 1⟩
    (front ++ xs)) rfl (i := front.length + xs.length + 1)
    (by rw [length_append]; omega)
  have hrun : putLast v (window front xs (x :: back)) =
      (arrayPut (front.length + xs.length + 1) v >>= fun _ => (pure v : Act α α))
        ⟨front ++ xs ++ x :: back, front.length + 1, front.length + xs.length + 1⟩ := rfl
  rw [hrun, bind_ok h]
  simp [window, pure, EStateM.pure]
  omega

theorem putFirst_ok : putFirst v (window (front ++ [x]) xs back) = .ok v (window front (v :: xs) back) := by
  have hlen : ((front ++ [x]).length : Int) = front.length + 1 := by simp
  have h := (@arrayPut_ok _ (xs ++ back) v x ⟨front ++ [x] ++ xs ++ back, (front ++ [x]).length + 1 - 1,
    (front ++ [x]).length + xs.length⟩ front) (by simp) (i := (front ++ [x]).length + 1 - 1) (by omega)
  have hrun : putFirst v (window (front ++ [x]) xs back) =
      (arrayPut ((front ++ [x]).length + 1 - 1) v >>= fun _ => (pure v : Act α α))
        ⟨front ++ [x] ++ xs ++ back, (front ++ [x]).length + 1 - 1, (front ++ [x]).length + xs.length⟩ := rfl
  rw [hrun, bind_ok h]
  simp [window, pure, EStateM.pure]
  omega

theorem at_ok {i : Int} (hi : i = pre.length + 1) :
    «at» i (window front (pre ++ x :: post) back) = .ok x (window front (pre ++ x :: post) back) := by
  have hin : ¬ ¬ (1 ≤ i ∧ i ≤ (window front (pre ++ x :: post) back).size) := by
    rw [size_window, length_append, length_cons]
    omega
  unfold «at»
  rw [Triple.get_bind, if_neg hin]
  exact arrayAt_window (by simp only [window]; omega)

theorem at_error (hi : ¬ (1 ≤ i ∧ i ≤ xs.length)) :
    «at» i (window front xs back) = .error .indexOutOfRange (window front xs back) := by
  unfold «at»
  rw [Triple.get_bind, size_window, if_pos hi]
  rfl

theorem atPut_ok {i : Int} (hi : i = pre.length + 1) :
    atPut i v (window front (pre ++ x :: post) back) = .ok v (window front (pre ++ v :: post) back) := by
  have hin : ¬ ¬ (1 ≤ i ∧ i ≤ (window front (pre ++ x :: post) back).size) := by
    rw [size_window, length_append, length_cons]
    omega
  unfold atPut
  rw [Triple.get_bind, if_neg hin]
  refine (Triple.get_bind _ _).trans ?_
  exact bind_ok (arrayPut_window (by simp only [window]; omega))

theorem atPut_error (hi : ¬ (1 ≤ i ∧ i ≤ xs.length)) :
    atPut i v (window front xs back) = .error .indexOutOfRange (window front xs back) := by
  unfold atPut
  rw [Triple.get_bind, size_window, if_pos hi]
  rfl

theorem shiftDown_ok {y : α} {j : Int} (hj : j = pre.length + 1) :
    shiftDown j (window front (pre ++ x :: y :: post) back) =
      .ok () (window front (pre ++ y :: y :: post) back) := by
  have hread := @arrayAt_window _ front back (pre ++ [x]) post y (front.length + 1 + j)
    (by rw [length_append, length_singleton]; omega)
  rw [append_assoc pre, singleton_append] at hread
  unfold shiftDown
  rw [Triple.get_bind]
  refine (bind_ok hread).trans ?_
  rw [Triple.get_bind]
  exact arrayPut_window (by simp only [window]; omega)

theorem upFrom_shiftDown {i : Int} (hi : i = pre.length + 1) :
    ∃ z, upFrom shiftDown post.length i (window front (pre ++ x :: post) back) =
      .ok () (window front (pre ++ post ++ [z]) back) := by
  induction post generalizing pre x i with
  | nil => exact ⟨x, by rw [append_nil]; rfl⟩
  | cons y post ih =>
    obtain ⟨z, hz⟩ := @ih (pre ++ [y]) y (i + 1) (by rw [length_append, length_singleton]; omega)
    have hstep := @shiftDown_ok _ front back _ post x y _ hi
    refine ⟨z, ?_⟩
    rw [append_assoc pre, singleton_append, append_assoc pre, singleton_append] at hz
    exact (bind_ok hstep).trans hz

theorem indexOf_ok {eq : α → α → Bool} {anObject : α} {i : Int} (hi : i = pre.length + 1) :
    indexOf eq anObject post.length i (window front (pre ++ post) back) =
      .ok ((post.findIdx? (eq · anObject)).map fun k : Nat => i + (k : Int)) (window front (pre ++ post) back) := by
  induction post generalizing pre i with
  | nil => rfl
  | cons x post ih =>
    have hnext := @ih (pre ++ [x]) (i + 1) (by rw [length_append, length_singleton]; omega)
    rw [append_assoc pre, singleton_append] at hnext
    have h : indexOf eq anObject (x :: post).length i = (do
        if eq (← «at» i) anObject then pure (some i) else indexOf eq anObject post.length (i + 1)) := rfl
    rw [h]
    refine (bind_ok (at_ok hi)).trans ?_
    rw [findIdx?_cons]
    by_cases hx : eq x anObject = true
    · rw [if_pos hx, if_pos hx, map_some, Int.natCast_zero, Int.add_zero]
      rfl
    · rw [if_neg hx, if_neg hx, hnext, Option.map_map]
      congr 2
      funext k
      simp only [Function.comp_apply]
      push_cast
      omega

theorem findIdx?_eq_none (h : xs.findIdx? p = none) : xs.find? p = none := by
  rw [findIdx?_eq_none_iff] at h
  exact find?_eq_none.mpr fun x hx => by rw [h x hx]; decide

theorem findIdx?_eq_some {k : Nat} (h : xs.findIdx? p = some k) :
    ∃ pre x post, xs = pre ++ x :: post ∧ pre.length = k ∧ xs.find? p = some x ∧ xs.eraseP p = pre ++ post := by
  induction xs generalizing k with
  | nil => cases h
  | cons x xs ih =>
    rw [findIdx?_cons] at h
    split at h
    next hx =>
      cases h
      exact ⟨[], x, xs, rfl, rfl, find?_cons_of_pos hx, eraseP_cons_of_pos hx⟩
    next hx =>
      obtain ⟨k, hk, rfl⟩ := map_eq_some_iff.mp h
      obtain ⟨pre, y, post, rfl, rfl, hfind, herase⟩ := ih hk
      refine ⟨x :: pre, y, post, rfl, rfl, ?_, ?_⟩
      · rw [find?_cons_of_neg hx, hfind]
      · rw [eraseP_cons_of_neg hx, herase]
        rfl

theorem elementsFrom_ok {i : Int} (hi : i = front.length + pre.length + 1) :
    elementsFrom post.length i (window front (pre ++ post) back) = .ok post (window front (pre ++ post) back) := by
  induction post generalizing pre i with
  | nil => rfl
  | cons x post ih =>
    have hnext := @ih (pre ++ [x]) (i + 1) (by rw [length_append, length_singleton]; omega)
    rw [append_assoc pre, singleton_append] at hnext
    exact (bind_ok (arrayAt_window hi)).trans ((bind_ok hnext).trans rfl)

theorem elements_ok : elements (window front xs back) = .ok xs (window front xs back) := by
  have hsize : (window front xs back).size.toNat = xs.length := by
    rw [size_window]
    omega
  have h := @elementsFrom_ok _ front back [] xs (front.length + 1) (by rw [length_nil]; omega)
  unfold elements
  rw [Triple.get_bind, Triple.get_bind, hsize]
  exact h

theorem within_ok {c c' s : OrderedCollection α} {act : Act α β} {b : β} (h : act c = .ok b c') :
    within c act s = .ok (b, c') s := by
  unfold within
  rw [h]

theorem shiftUp_ok {y : α} {i : Int} (hi : i = pre.length + 2) : shiftUp i (window front (pre ++ x :: y :: post) back) =
      .ok () (window front (pre ++ x :: x :: post) back) := by
  have hread := @at_ok _ front back pre (y :: post) x (i - 1) (by omega)
  have hwrite := @atPut_ok _ front back (pre ++ [x]) post x y i (by rw [length_append, length_singleton]; omega)
  rw [append_assoc pre, singleton_append, append_assoc pre, singleton_append] at hwrite
  unfold shiftUp
  refine (bind_ok hread).trans ?_
  exact (bind_ok hwrite).trans rfl

theorem downFrom_shiftUp {mid : List α} {i : Int} (hi : i = pre.length + 1 + mid.length) :
    downFrom shiftUp mid.length i (window front (pre ++ x :: mid ++ post) back) =
      .ok () (window front (pre ++ x :: (x :: mid).dropLast ++ post) back) := by
  induction mid using List.reverseRecOn generalizing post i with
  | nil => rfl
  | append_singleton mid y ih =>
    rw [length_append, length_singleton] at hi ⊢
    obtain ⟨rest, z, hlast⟩ : ∃ rest z, x :: mid = rest ++ [z] :=
      ⟨_, _, (dropLast_append_getLast (cons_ne_nil x mid)).symm⟩
    have hlen : rest.length = mid.length := by
      have := congrArg List.length hlast
      rw [length_cons, length_append, length_singleton] at this
      omega
    have hstep := @shiftUp_ok _ front back (pre ++ rest) post z y i (by rw [length_append]; omega)
    have hfrom : pre ++ x :: (mid ++ [y]) ++ post = (pre ++ rest) ++ z :: y :: post := by
      rw [← cons_append, hlast]
      simp
    have hinto : (pre ++ rest) ++ z :: z :: post = pre ++ x :: mid ++ z :: post := by
      rw [hlast]
      simp
    have hnext := @ih (z :: post) (i - 1) (by omega)
    have hdone : pre ++ x :: (x :: mid).dropLast ++ z :: post =
        pre ++ x :: (x :: (mid ++ [y])).dropLast ++ post := by
      have hdrop : (x :: (mid ++ [y])).dropLast = x :: mid := by
        rw [← cons_append, dropLast_concat]
      rw [hdrop, hlast, dropLast_concat]
      simp
    rw [← hdone, hfrom]
    rw [hinto] at hstep
    exact (bind_ok hstep).trans hnext

end Window

theorem makeRoomAtEnd_ok : ∃ m, makeRoomAtEnd (window front xs back) = .ok () (window [] xs (List.replicate m default)) ∧
    xs.length + m = max (front.length + xs.length + back.length) 1 * 2 := by
  have hlen := @length_window _ front back xs
  have hn : (window front xs back).size.toNat = xs.length := by
    rw [size_window]
    omega
  refine ⟨max (front.length + xs.length + back.length) 1 * 2 - xs.length, ?_, by omega⟩
  have hcopy := @copyElements_ok _ front back [] xs [] (List.replicate xs.length default)
    (List.replicate (max (front.length + xs.length + back.length) 1 * 2 - xs.length) default) 0 1 rfl rfl (length_replicate ..)
  rw [nil_append, nil_append, replicate_append_replicate, Nat.add_sub_cancel' (by omega)] at hcopy
  have h : makeRoomAtEnd (window front xs back) = (copyElements 0 (window front xs back).size.toNat 1
        (List.replicate (max (window front xs back).array.length 1 * 2) default) >>= fun newArray =>
          set (⟨newArray, 1, (window front xs back).size⟩ : OrderedCollection α)) (window front xs back) := rfl
  rw [h, hn, hlen, bind_ok hcopy, size_window]
  simp [window, Triple.set_apply]

theorem makeRoomAtFront_ok : ∃ m, makeRoomAtFront (window front xs back) = .ok () (window (List.replicate m default) xs []) ∧
    xs.length + m = max (front.length + xs.length + back.length) 1 * 2 := by
  have hlen := @length_window _ front back xs
  have hn : (window front xs back).size.toNat = xs.length := by
    rw [size_window]
    omega
  refine ⟨max (front.length + xs.length + back.length) 1 * 2 - xs.length, ?_, by omega⟩
  generalize hcap : max (front.length + xs.length + back.length) 1 * 2 = cap
  have hcopy := @copyElements_ok _ front back [] xs (List.replicate (cap - xs.length) default)
    (List.replicate xs.length default) [] (cap - (xs.length : Int)) 1 rfl
    (by rw [length_replicate, length_nil]; omega) (length_replicate ..)
  rw [nil_append, append_nil, append_nil, replicate_append_replicate, Nat.sub_add_cancel (by omega)] at hcopy
  have h : makeRoomAtFront (window front xs back) =
      (copyElements ((max (window front xs back).array.length 1 * 2 : Nat) - (window front xs back).size)
        (window front xs back).size.toNat 1
        (List.replicate (max (window front xs back).array.length 1 * 2) default) >>= fun newArray =>
          set (⟨newArray, (max (window front xs back).array.length 1 * 2 : Nat) - (window front xs back).size + 1,
            (max (window front xs back).array.length 1 * 2 : Nat)⟩ : OrderedCollection α)) (window front xs back) := rfl
  have hfirst : (cap : Int) - xs.length = (cap - xs.length : Nat) := by omega
  have hlast : (cap : Int) = (cap - xs.length : Nat) + xs.length := by omega
  rw [h, hn, hlen, hcap, size_window, bind_ok hcopy]
  simp only [window, Triple.set_apply, length_replicate, append_nil, hfirst]
  rw [hlast]

theorem addLast_ok : ∃ front' back', addLast v (window front xs back) = .ok v (window front' (xs ++ [v]) back') ∧
    (window front' (xs ++ [v]) back').array.length =
      if back = [] then max (front.length + xs.length) 1 * 2 else (window front xs back).array.length := by
  cases back with
  | nil =>
    obtain ⟨m, hroom, hm⟩ := @makeRoomAtEnd_ok _ _ front [] xs
    rw [length_nil, Nat.add_zero] at hm
    obtain ⟨m, rfl⟩ : ∃ k, m = k + 1 := ⟨m - 1, by omega⟩
    have hfull : (window front xs []).lastIndex = (window front xs []).array.length := by
      rw [length_window]
      simp [window]
    have hrun : addLast v (window front xs []) = (makeRoomAtEnd >>= fun _ => putLast v) (window front xs []) := by
      unfold addLast
      rw [Triple.get_bind, Triple.get_bind, if_pos hfull]
    refine ⟨[], List.replicate m default, ?_, ?_⟩
    · rw [hrun, bind_ok hroom, replicate_succ, putLast_ok]
    · rw [if_pos rfl, length_window]
      simp
      omega
  | cons b back =>
    have hroom : (window front xs (b :: back)).lastIndex ≠ (window front xs (b :: back)).array.length := by
      rw [length_window]
      simp only [window, length_cons]
      omega
    have hrun : addLast v (window front xs (b :: back)) = putLast v (window front xs (b :: back)) := by
      unfold addLast
      rw [Triple.get_bind, Triple.get_bind, if_neg hroom]
    refine ⟨front, back, ?_, ?_⟩
    · rw [hrun, putLast_ok]
    · rw [if_neg (cons_ne_nil _ _), length_window, length_window, length_append, length_cons, length_cons, length_nil]
      omega

theorem addFirst_ok : ∃ front' back', addFirst v (window front xs back) = .ok v (window front' (v :: xs) back') ∧
    (window front' (v :: xs) back').array.length =
      (if front = [] then max (xs.length + back.length) 1 * 2 else (window front xs back).array.length) ∧
    front'.length = (if front = [] then max (xs.length + back.length) 1 * 2 - xs.length - 1 else front.length - 1) ∧
    back' = if front = [] then [] else back := by
  rcases eq_nil_or_concat front with rfl | ⟨front, b, rfl⟩
  · obtain ⟨m, hroom, hm⟩ := @makeRoomAtFront_ok _ _ [] back xs
    rw [length_nil, Nat.zero_add] at hm
    obtain ⟨m, rfl⟩ : ∃ k, m = k + 1 := ⟨m - 1, by omega⟩
    have hrun : addFirst v (window [] xs back) = (makeRoomAtFront >>= fun _ => putFirst v) (window [] xs back) := by
      unfold addFirst
      rw [Triple.get_bind]
      have hone : (window [] xs back).firstIndex = 1 := rfl
      rw [if_pos hone]
    refine ⟨List.replicate m default, [], ?_, ?_, ?_, rfl⟩
    · rw [hrun, bind_ok hroom, replicate_succ', putFirst_ok]
    · rw [if_pos rfl, length_window]
      simp
      omega
    · rw [if_pos rfl, length_replicate]
      omega
  · rw [concat_eq_append]
    have hne : front ++ [b] ≠ [] := by simp
    have hroom : (window (front ++ [b]) xs back).firstIndex ≠ 1 := by
      simp only [window, length_append, length_singleton]
      omega
    have hrun : addFirst v (window (front ++ [b]) xs back) = putFirst v (window (front ++ [b]) xs back) := by
      unfold addFirst
      rw [Triple.get_bind, if_neg hroom]
    refine ⟨front, back, ?_, ?_, ?_, ?_⟩
    · rw [hrun, putFirst_ok]
    · rw [if_neg hne, length_window, length_window, length_append, length_cons, length_cons, length_nil]
      omega
    · rw [if_neg hne]
      simp
    · rw [if_neg hne]

theorem removeFirst_ok : removeFirst (window front (x :: xs) back) = .ok x (window (front ++ [default]) xs back) := by
  have hsome : ¬ (window front (x :: xs) back).isEmpty = true := by
    rw [isEmpty_window]
    exact cons_ne_nil _ _
  have hread := @arrayAt_window _ front back [] xs x (front.length + 1) (by simp)
  have hwrite := @arrayPut_window _ front back [] xs default x (front.length + 1) (by simp)
  unfold removeFirst
  rw [Triple.get_bind, if_neg hsome]
  refine (Triple.get_bind _ _).trans ?_
  refine (bind_ok hread).trans ?_
  rw [Triple.get_bind]
  refine (bind_ok hwrite).trans ?_
  refine (bind_ok (Triple.modify_apply _ _)).trans ?_
  simp [window, pure, EStateM.pure]
  omega

theorem dropLastSlot_ok : dropLastSlot (window front (xs ++ [x]) back) = .ok () (window front xs (default :: back)) := by
  have hwrite := @arrayPut_window _ front back xs [] default x (window front (xs ++ [x]) back).lastIndex
    (by simp only [window, length_append, length_singleton]; omega)
  unfold dropLastSlot
  rw [Triple.get_bind]
  refine (bind_ok hwrite).trans ?_
  simp [window, Triple.modify_apply]
  omega

theorem removeLast_ok : removeLast (window front (xs ++ [x]) back) = .ok x (window front xs (default :: back)) := by
  have hsome : ¬ (window front (xs ++ [x]) back).isEmpty = true := by
    rw [isEmpty_window]
    exact concat_ne_nil _ _
  have hread := @arrayAt_window _ front back xs [] x (window front (xs ++ [x]) back).lastIndex
    (by simp only [window, length_append, length_singleton]; omega)
  unfold removeLast
  rw [Triple.get_bind, if_neg hsome]
  refine (Triple.get_bind _ _).trans ?_
  refine (bind_ok hread).trans ?_
  refine (bind_ok dropLastSlot_ok).trans ?_
  rfl

theorem removeFirst_error : removeFirst (window front [] back) = .error .collectionIsEmpty (window front [] back) := by
  have hnone : (window front [] back).isEmpty = true := isEmpty_window.mpr rfl
  unfold removeFirst
  rw [Triple.get_bind, if_pos hnone]
  rfl

theorem removeLast_error : removeLast (window front [] back) = .error .collectionIsEmpty (window front [] back) := by
  have hnone : (window front [] back).isEmpty = true := isEmpty_window.mpr rfl
  unfold removeLast
  rw [Triple.get_bind, if_pos hnone]
  rfl

theorem removeAtIndex_ok {i : Int} (hi : i = pre.length + 1) : removeAtIndex i (window front (pre ++ x :: post) back) =
      .ok x (window front (pre ++ post) (default :: back)) := by
  have hsize : (window front (pre ++ x :: post) back).size = pre.length + 1 + post.length := by
    rw [size_window, length_append, length_cons]
    omega
  have hin : ¬ ¬ (1 ≤ i ∧ i ≤ (window front (pre ++ x :: post) back).size) := by omega
  have hturns : ((window front (pre ++ x :: post) back).size - i).toNat = post.length := by omega
  obtain ⟨z, hz⟩ := @upFrom_shiftDown _ front back _ post x _ hi
  unfold removeAtIndex
  rw [Triple.get_bind, if_neg hin]
  refine (bind_ok (at_ok hi)).trans ?_
  rw [Triple.get_bind, hturns]
  refine (bind_ok hz).trans ?_
  refine (bind_ok dropLastSlot_ok).trans ?_
  rfl

theorem removeAtIndex_error {i : Int} (hi : ¬ (1 ≤ i ∧ i ≤ xs.length)) :
    removeAtIndex i (window front xs back) = .error .indexOutOfRange (window front xs back) := by
  unfold removeAtIndex
  rw [Triple.get_bind, size_window, if_pos hi]
  rfl

theorem removeIfAbsent_ok {eq : α → α → Bool} {oldObject : α} :
    removeIfAbsent eq oldObject (window front xs back) = match xs.find? (eq · oldObject) with
      | none => .ok none (window front xs back)
      | some x => .ok (some x) (window front (xs.eraseP (eq · oldObject)) (default :: back)) := by
  have hsize : (window front xs back).size.toNat = xs.length := by
    rw [size_window]
    omega
  have hindex := @indexOf_ok _ front back [] xs eq oldObject 1 rfl
  unfold removeIfAbsent
  rw [Triple.get_bind, hsize]
  refine (bind_ok hindex).trans ?_
  cases hfind : xs.findIdx? (eq · oldObject) with
  | none =>
    rw [findIdx?_eq_none hfind]
    rfl
  | some k =>
    obtain ⟨pre, x, post, rfl, rfl, hx, herase⟩ := findIdx?_eq_some hfind
    rw [hx, herase]
    have hremove := @removeAtIndex_ok _ _ front back pre post x (1 + pre.length) (by omega)
    refine (bind_ok hremove).trans ?_
    rfl

theorem addEach_ok {vs : List α} : ∃ front' back',
    addEach vs (window front xs back) = .ok () (window front' (xs ++ vs) back') := by
  induction vs generalizing front xs back with
  | nil => exact ⟨front, back, by rw [append_nil]; rfl⟩
  | cons v vs ih =>
    obtain ⟨front₁, back₁, hadd, -⟩ := @addLast_ok _ _ front back xs v
    obtain ⟨front₂, back₂, hrest⟩ := @ih front₁ back₁ (xs ++ [v])
    rw [append_assoc, singleton_append] at hrest
    exact ⟨front₂, back₂, (bind_ok hadd).trans hrest⟩

theorem new_window : (new : OrderedCollection α) = window [] [] (List.replicate 8 default) := rfl

theorem removeAllSuchThat_ok {aBlock : α → Bool} : removeAllSuchThat aBlock (window front xs back) =
    .ok () (window [] (xs.filter fun v => !aBlock v) []) := by
  obtain ⟨front', back', hkeep⟩ := @addEach_ok _ _ [] (List.replicate 8 (default : α)) [] (xs.filter fun v => !aBlock v)
  rw [nil_append, ← new_window] at hkeep
  unfold removeAllSuchThat
  refine (bind_ok elements_ok).trans ?_
  refine (bind_ok (within_ok hkeep)).trans ?_
  refine (bind_ok (within_ok elements_ok)).trans ?_
  rw [size_window]
  simp [window, Triple.set_apply]

theorem addBeforeIndex_last {index : Int} (hi : index = xs.length + 1) :
    addBeforeIndex v index (window front xs back) = addLast v (window front xs back) := by
  have hin : ¬ ¬ (1 ≤ index ∧ index ≤ (window front xs back).size + 1) := by
    rw [size_window]
    omega
  have hlast : index = (window front xs back).size + 1 := by
    rw [size_window]
    omega
  unfold addBeforeIndex
  rw [Triple.get_bind, if_neg hin, if_pos hlast]

theorem addBeforeIndex_ok {index : Int} (hi : index = pre.length + 1) : ∃ front' back' ys,
    (∃ z, addLast z (window front (pre ++ x :: post) back) = .ok z (window front' ys back')) ∧
      addBeforeIndex v index (window front (pre ++ x :: post) back) =
        .ok v (window front' (pre ++ v :: x :: post) back') := by
  obtain ⟨rest, z, hlast⟩ : ∃ rest z, x :: post = rest ++ [z] :=
    ⟨_, _, (dropLast_append_getLast (cons_ne_nil x post)).symm⟩
  have hlen : rest.length = post.length := by
    have := congrArg List.length hlast
    rw [length_cons, length_append, length_singleton] at this
    omega
  have hsize : (window front (pre ++ x :: post) back).size = pre.length + 1 + post.length := by
    rw [size_window, length_append, length_cons]
    omega
  have hin : ¬ ¬ (1 ≤ index ∧ index ≤ (window front (pre ++ x :: post) back).size + 1) := by omega
  have hnot : index ≠ (window front (pre ++ x :: post) back).size + 1 := by omega
  have hread : «at» (pre.length + 1 + post.length) (window front (pre ++ x :: post) back) =
      .ok z (window front (pre ++ x :: post) back) := by
    rw [hlast, ← append_assoc]
    exact at_ok (by rw [length_append]; omega)
  obtain ⟨front', back', hadd, -⟩ := @addLast_ok _ _ front back (pre ++ x :: post) z
  have hshift := @downFrom_shiftUp _ front' back' pre [z] x post (pre.length + 1 + post.length) rfl
  have hdrop : x :: (x :: post).dropLast ++ [z] = x :: x :: post := by
    rw [hlast, dropLast_concat]
    rfl
  rw [append_assoc pre (x :: (x :: post).dropLast), hdrop] at hshift
  have hput := @atPut_ok _ front' back' pre (x :: post) v x _ hi
  have hturns : (pre.length + 1 + post.length - index).toNat = post.length := by omega
  refine ⟨front', back', _, ⟨z, hadd⟩, ?_⟩
  unfold addBeforeIndex
  rw [Triple.get_bind, if_neg hin, if_neg hnot, hsize]
  refine (bind_ok hread).trans ?_
  refine (bind_ok hadd).trans ?_
  rw [hturns]
  refine (bind_ok hshift).trans ?_
  exact (bind_ok hput).trans rfl

theorem addBeforeIndex_error {index : Int} (hi : ¬ (1 ≤ index ∧ index ≤ xs.length + 1)) :
    addBeforeIndex v index (window front xs back) = .error .indexOutOfBounds (window front xs back) := by
  unfold addBeforeIndex
  rw [Triple.get_bind, size_window, if_pos hi]
  rfl

end OrderedCollection

end WinArmVm
