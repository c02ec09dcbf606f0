import WinArmVm.OrderedCollection

namespace WinArmVm.OrderedCollection

open List

variable {α : Type}

inductive Op (α : Type)
  | addLast (v : α)
  | addFirst (v : α)
  | addBeforeIndex (v : α) (index : Int)
  | addAllFirst (vs : List α)
  | removeFirst
  | removeLast
  | removeAtIndex (i : Int)
  | removeIfAbsent (oldObject : α)
  | removeAllSuchThat (aBlock : α → Bool)
  | «at» (i : Int)
  | atPut (i : Int) (v : α)

inductive Answer (α : Type)
  | object (v : α)
  | collection (vs : List α)
  /-- What the block for an absent object answers. -/
  | absent
  | self
deriving DecidableEq, Repr

/-- What an operation answers or raises, and the collection or list that it leaves. -/
structure Outcome (α σ : Type) where
  answer : Except CollectionError (Answer α)
  left : σ

def Op.onList (eq : α → α → Bool) (xs : List α) : Op α → Outcome α (List α)
  | .addLast v => ⟨.ok (.object v), xs ++ [v]⟩
  | .addFirst v => ⟨.ok (.object v), v :: xs⟩
  | .addBeforeIndex v index =>
    if 1 ≤ index ∧ index ≤ xs.length + 1 then ⟨.ok (.object v), xs.insertIdx (index - 1).toNat v⟩
    else ⟨.error .indexOutOfBounds, xs⟩
  | .addAllFirst vs => ⟨.ok (.collection vs), vs ++ xs⟩
  | .removeFirst =>
    match xs with
    | [] => ⟨.error .collectionIsEmpty, []⟩
    | x :: xs => ⟨.ok (.object x), xs⟩
  | .removeLast =>
    match xs.getLast? with
    | none => ⟨.error .collectionIsEmpty, xs⟩
    | some x => ⟨.ok (.object x), xs.dropLast⟩
  | .removeAtIndex i =>
    match slotAt xs i with
    | none => ⟨.error .indexOutOfRange, xs⟩
    | some x => ⟨.ok (.object x), xs.eraseIdx (i - 1).toNat⟩
  | .removeIfAbsent oldObject =>
    match xs.find? (eq · oldObject) with
    | none => ⟨.ok .absent, xs⟩
    | some x => ⟨.ok (.object x), xs.eraseP (eq · oldObject)⟩
  | .removeAllSuchThat aBlock => ⟨.ok .self, xs.filter fun v => !aBlock v⟩
  | .at i =>
    match slotAt xs i with
    | none => ⟨.error .indexOutOfRange, xs⟩
    | some x => ⟨.ok (.object x), xs⟩
  | .atPut i v =>
    match slotPut xs i v with
    | none => ⟨.error .indexOutOfRange, xs⟩
    | some xs => ⟨.ok (.object v), xs⟩

variable [Inhabited α]

def Op.act (eq : α → α → Bool) : Op α → Act α (Answer α)
  | .addLast v => Answer.object <$> OrderedCollection.addLast v
  | .addFirst v => Answer.object <$> OrderedCollection.addFirst v
  | .addBeforeIndex v index => Answer.object <$> OrderedCollection.addBeforeIndex v index
  | .addAllFirst vs => Answer.collection <$> OrderedCollection.addAllFirst vs
  | .removeFirst => Answer.object <$> OrderedCollection.removeFirst
  | .removeLast => Answer.object <$> OrderedCollection.removeLast
  | .removeAtIndex i => Answer.object <$> OrderedCollection.removeAtIndex i
  | .removeIfAbsent oldObject => (fun r : Option α => match r with
      | none => Answer.absent
      | some x => .object x) <$> OrderedCollection.removeIfAbsent eq oldObject
  | .removeAllSuchThat aBlock => (fun _ => Answer.self) <$> OrderedCollection.removeAllSuchThat aBlock
  | .at i => Answer.object <$> OrderedCollection.at i
  | .atPut i v => Answer.object <$> OrderedCollection.atPut i v

def outcome : EStateM.Result CollectionError (OrderedCollection α) (Answer α) → Outcome α (OrderedCollection α)
  | .ok a c => ⟨.ok a, c⟩
  | .error e c => ⟨.error e, c⟩

def Op.run (eq : α → α → Bool) (c : OrderedCollection α) (op : Op α) : Outcome α (OrderedCollection α) :=
  outcome (op.act eq c)

structure History (α : Type) where
  collection : OrderedCollection α
  largest : Nat

def History.start : History α := ⟨new, 0⟩

def History.step (eq : α → α → Bool) (h : History α) (op : Op α) : History α :=
  let c := (op.run eq h.collection).left
  ⟨c, max h.largest c.size.toNat⟩

def History.after (eq : α → α → Bool) (ops : List (Op α)) : History α := ops.foldl (History.step eq) .start

def Op.Thrifty (c : OrderedCollection α) : Op α → Prop
  | .addLast _ => c.lastIndex = c.array.length → c.firstIndex = 1
  | .addBeforeIndex _ index =>
    1 ≤ index ∧ index ≤ c.size + 1 → c.lastIndex = c.array.length → c.firstIndex = 1
  | .addFirst _ => c.firstIndex = 1 → c.lastIndex = c.array.length
  | .addAllFirst vs => c.firstIndex ≤ vs.length → c.lastIndex = c.array.length
  | _ => True

variable {eq : α → α → Bool} {front back xs pre post : List α} {v x : α}

omit [Inhabited α] in
theorem run_ok {c c' : OrderedCollection α} {β : Type} {act : Act α β} {b : β} (f : β → Answer α) (h : act c = .ok b c') :
    outcome ((f <$> act) c) = ⟨.ok (f b), c'⟩ := by
  have hmap : (f <$> act) c = .ok (f b) c' := by
    show EStateM.map f act c = _
    unfold EStateM.map
    rw [h]
  rw [hmap]
  rfl

omit [Inhabited α] in
theorem run_error {c c' : OrderedCollection α} {β : Type} {act : Act α β} {e : CollectionError} (f : β → Answer α)
    (h : act c = .error e c') : outcome ((f <$> act) c) = ⟨.error e, c'⟩ := by
  have hmap : (f <$> act) c = .error e c' := by
    show EStateM.map f act c = _
    unfold EStateM.map
    rw [h]
  rw [hmap]
  rfl

omit [Inhabited α] in
theorem slotAt_split {i : Int} (h : slotAt xs i = some x) : ∃ pre post, xs = pre ++ x :: post ∧ i = pre.length + 1 := by
  obtain ⟨hi, h⟩ := Option.ite_none_right_eq_some.mp h
  obtain ⟨hlt, hx⟩ := List.getElem?_eq_some_iff.mp h
  refine ⟨xs.take (i - 1).toNat, xs.drop ((i - 1).toNat + 1), ?_, ?_⟩
  · rw [← hx, ← drop_eq_getElem_cons hlt, take_append_drop]
  · rw [length_take]
    omega

omit [Inhabited α] in
theorem slotAt_none {i : Int} (h : slotAt xs i = none) : ¬ (1 ≤ i ∧ i ≤ xs.length) := by
  intro ⟨hlow, hhigh⟩
  unfold slotAt at h
  rw [if_pos hlow, getElem?_eq_none_iff] at h
  omega

omit [Inhabited α] in
theorem exists_split {i : Int} (h : 1 ≤ i ∧ i ≤ xs.length) : ∃ pre x post, xs = pre ++ x :: post ∧ i = pre.length + 1 := by
  cases hs : slotAt xs i with
  | none => exact absurd h (slotAt_none hs)
  | some x =>
    obtain ⟨pre, post, hx, hi⟩ := slotAt_split hs
    exact ⟨pre, x, post, hx, hi⟩

theorem addEachFirst_ok {vs : List α} : ∃ front' back',
    addEachFirst vs (window front xs back) = .ok () (window front' (vs.reverse ++ xs) back') ∧
      ((front.length < vs.length → back = []) → (window front' (vs.reverse ++ xs) back').array.length ≤
        max (window front xs back).array.length (2 * (vs.length + xs.length))) := by
  induction vs generalizing front xs back with
  | nil =>
    refine ⟨front, back, rfl, fun _ => ?_⟩
    rw [reverse_nil, nil_append]
    exact Nat.le_max_left _ _
  | cons v vs ih =>
    obtain ⟨front₁, back₁, hadd, hcap, hfront, rfl⟩ := @addFirst_ok _ _ front back xs v
    obtain ⟨front₂, back₂, hrest, hgrow⟩ := @ih front₁ _ (v :: xs)
    rw [reverse_cons, append_assoc, singleton_append, length_cons]
    refine ⟨front₂, back₂, (Triple.bind_ok hadd).trans hrest, fun hroom => ?_⟩
    rw [length_cons] at hgrow
    have hlen := @length_window _ front back xs
    by_cases hnil : front = []
    · rw [if_pos hnil] at hcap hgrow
      have hback : back = [] := hroom (by rw [hnil]; exact Nat.succ_pos _)
      have hbound := hgrow fun _ => rfl
      rw [hnil, hback] at hlen
      rw [hback, if_pos hnil] at hcap
      simp only [length_nil] at hcap hlen
      rw [hnil, hback]
      omega
    · rw [if_neg hnil] at hcap hfront hgrow
      have hbound := hgrow fun hlt => hroom (by
        have := length_pos_of_ne_nil hnil
        omega)
      rw [if_neg hnil] at hcap
      omega

/-- What a step does to the elements, that it changes nothing where it raises, and how far a
thrifty one lets the array grow. -/
def Refines (eq : α → α → Bool) (op : Op α) (front xs back : List α) : Prop := ∃ front' back',
  op.run eq (window front xs back) = ⟨(op.onList eq xs).answer, window front' (op.onList eq xs).left back'⟩ ∧
    (∀ e, (op.onList eq xs).answer = .error e → window front' (op.onList eq xs).left back' = window front xs back) ∧
    (op.Thrifty (window front xs back) → (window front' (op.onList eq xs).left back').array.length ≤
      max (window front xs back).array.length (2 * (op.onList eq xs).left.length))

variable {i : Int} {op : Op α}

theorem refines_kept {a : Answer α} {ys front' back' : List α}
    (hlist : op.onList eq xs = ⟨.ok a, ys⟩) (hrun : op.run eq (window front xs back) = ⟨.ok a, window front' ys back'⟩)
    (hlen : front'.length + ys.length + back'.length ≤ front.length + xs.length + back.length) :
    Refines eq op front xs back := by
  unfold Refines
  rw [hlist]
  refine ⟨front', back', hrun, fun _ h => (nomatch h), fun _ => ?_⟩
  rw [length_window, length_window]
  exact Nat.le_trans hlen (Nat.le_max_left _ _)

theorem refines_raised {e : CollectionError} (hlist : op.onList eq xs = ⟨.error e, xs⟩)
    (hrun : op.run eq (window front xs back) = ⟨.error e, window front xs back⟩) : Refines eq op front xs back := by
  unfold Refines
  rw [hlist]
  exact ⟨front, back, hrun, fun _ _ => rfl, fun _ => Nat.le_max_left _ _⟩

theorem refines_addLast : Refines eq (.addLast v) front xs back := by
  obtain ⟨front', back', hadd, hcap⟩ := @addLast_ok _ _ front back xs v
  refine ⟨front', back', run_ok Answer.object hadd, fun _ h => (nomatch h), fun hthrifty => ?_⟩
  have hlen := @length_window _ front back xs
  have hfull : back = [] → front = [] := by
    intro hback
    have hone := hthrifty (by
      rw [hlen, hback]
      simp [window])
    have : ((window front xs back).firstIndex : Int) = front.length + 1 := rfl
    exact length_eq_zero_iff.mp (by omega)
  show (window front' (xs ++ [v]) back').array.length ≤ max _ (2 * (xs ++ [v]).length)
  rw [hcap, length_append, length_singleton]
  split
  next hback =>
    rw [hfull hback]
    simp only [length_nil]
    omega
  next => exact Nat.le_max_left _ _

theorem refines_addFirst : Refines eq (.addFirst v) front xs back := by
  obtain ⟨front', back', hadd, hcap, -, -⟩ := @addFirst_ok _ _ front back xs v
  refine ⟨front', back', run_ok Answer.object hadd, fun _ h => (nomatch h), fun hthrifty => ?_⟩
  have hlen := @length_window _ front back xs
  have hfull : front = [] → back = [] := by
    intro hfront
    have hone := hthrifty (by rw [hfront]; rfl)
    rw [hlen] at hone
    have : ((window front xs back).lastIndex : Int) = front.length + xs.length := rfl
    exact length_eq_zero_iff.mp (by omega)
  show (window front' (v :: xs) back').array.length ≤ max _ (2 * (v :: xs).length)
  rw [hcap, length_cons]
  split
  next hfront =>
    rw [hfull hfront]
    simp only [length_nil]
    omega
  next => exact Nat.le_max_left _ _

omit [Inhabited α] in
theorem insertIdx_split : (pre ++ post).insertIdx pre.length v = pre ++ v :: post := by
  induction pre with
  | nil => rfl
  | cons p pre ih =>
    rw [cons_append, length_cons, insertIdx_succ_cons, ih]
    rfl

theorem refines_addBeforeIndex {index : Int} : Refines eq (.addBeforeIndex v index) front xs back := by
  have hsize := @size_window _ front back xs
  by_cases hin : 1 ≤ index ∧ index ≤ xs.length + 1
  · have hlist : (Op.addBeforeIndex v index).onList eq xs =
        ⟨.ok (.object v), xs.insertIdx (index - 1).toNat v⟩ := if_pos hin
    have hthrift : (Op.addBeforeIndex v index).Thrifty (window front xs back) →
        (Op.addLast v).Thrifty (window front xs back) := fun h => h ⟨hin.1, by rw [hsize]; exact hin.2⟩
    by_cases hlast : index = xs.length + 1
    · obtain ⟨front', back', hadd, -, hcap⟩ := @refines_addLast _ _ eq front back xs v
      have hrun : (Op.addBeforeIndex v index).run eq (window front xs back) =
          (Op.addLast v).run eq (window front xs back) := by
        unfold Op.run Op.act
        show outcome (EStateM.map ..) = outcome (EStateM.map ..)
        unfold EStateM.map
        rw [addBeforeIndex_last hlast]
      have hsame : (Op.addLast v).onList eq xs = (Op.addBeforeIndex v index).onList eq xs := by
        have hat : (index - 1).toNat = xs.length := by omega
        rw [hlist, hat, insertIdx_length_self]
        rfl
      unfold Refines
      rw [hrun, ← hsame]
      exact ⟨front', back', hadd, fun _ h => (nomatch h), fun h => hcap (hthrift h)⟩
    · obtain ⟨pre, x, post, rfl, hi⟩ := @exists_split _ xs index ⟨hin.1, by omega⟩
      obtain ⟨front', back', ys, ⟨z, hadd⟩, hput⟩ := @addBeforeIndex_ok _ _ front back _ post v x _ hi
      have hat : (index - 1).toNat = pre.length := by omega
      have hleft : (pre ++ x :: post).insertIdx (index - 1).toNat v = pre ++ v :: x :: post := by
        rw [hat, insertIdx_split]
      obtain ⟨front₁, back₁, hadd₁, -, hcap⟩ := @refines_addLast _ _ eq front back (pre ++ x :: post) z
      have hone := (run_ok Answer.object hadd).symm.trans hadd₁
      have hsame : window front' ys back' = window front₁ (pre ++ x :: post ++ [z]) back₁ := congrArg Outcome.left hone
      unfold Refines
      rw [hlist, hleft]
      refine ⟨front', back', run_ok Answer.object hput, fun _ h => (nomatch h), fun h => ?_⟩
      have hbound := hcap fun hfull => hthrift h hfull
      have hlength : (window front' (pre ++ v :: x :: post) back').array.length =
          (window front₁ (pre ++ x :: post ++ [z]) back₁).array.length := by
        have hys : ys.length = (pre ++ x :: post).length + 1 := by
          have hs := congrArg OrderedCollection.size hsame
          rw [size_window, size_window, length_append, length_singleton] at hs
          omega
        rw [← hsame, length_window, length_window, hys]
        simp only [length_append, length_cons]
        omega
      have htwo : ((Op.addLast z).onList eq (pre ++ x :: post)).left.length = (pre ++ v :: x :: post).length := by
        show (pre ++ x :: post ++ [z]).length = _
        simp only [length_append, length_cons, length_nil]
        omega
      rw [htwo] at hbound
      rw [hlength]
      exact hbound
  · have hlist : (Op.addBeforeIndex v index).onList eq xs = ⟨.error .indexOutOfBounds, xs⟩ := if_neg hin
    exact refines_raised hlist (run_error Answer.object (addBeforeIndex_error hin))

theorem refines_addAllFirst {vs : List α} : Refines eq (.addAllFirst vs) front xs back := by
  obtain ⟨front', back', hadd, hcap⟩ := @addEachFirst_ok _ _ front back xs vs.reverse
  rw [reverse_reverse, length_reverse] at *
  have hall : addAllFirst vs (window front xs back) = .ok vs (window front' (vs ++ xs) back') :=
    (Triple.bind_ok hadd).trans rfl
  refine ⟨front', back', run_ok Answer.collection hall, fun _ h => (nomatch h), fun hthrifty => ?_⟩
  have hfull : front.length < vs.length → back = [] := by
    intro hlt
    have hone := hthrifty (by
      have : ((window front xs back).firstIndex : Int) = front.length + 1 := rfl
      omega)
    rw [length_window] at hone
    have : ((window front xs back).lastIndex : Int) = front.length + xs.length := rfl
    exact length_eq_zero_iff.mp (by omega)
  show (window front' (vs ++ xs) back').array.length ≤ max _ (2 * (vs ++ xs).length)
  rw [length_append]
  exact hcap hfull

theorem refines_removeFirst : Refines eq .removeFirst front xs back := by
  cases xs with
  | nil => exact refines_raised rfl (run_error Answer.object removeFirst_error)
  | cons x xs =>
    have hlist : (Op.removeFirst).onList eq (x :: xs) = ⟨.ok (.object x), xs⟩ := rfl
    apply refines_kept hlist (run_ok Answer.object removeFirst_ok)
    rw [length_append, length_singleton, length_cons]
    omega

theorem refines_removeLast : Refines eq .removeLast front xs back := by
  rcases eq_nil_or_concat xs with rfl | ⟨xs, x, rfl⟩
  · exact refines_raised rfl (run_error Answer.object removeLast_error)
  · rw [concat_eq_append]
    have hlist : (Op.removeLast).onList eq (xs ++ [x]) = ⟨.ok (.object x), xs⟩ := by
      simp only [Op.onList, getLast?_concat, dropLast_concat]
    apply refines_kept hlist (run_ok Answer.object removeLast_ok)
    rw [length_append, length_singleton, length_cons]
    omega

theorem refines_removeAtIndex : Refines eq (.removeAtIndex i) front xs back := by
  cases hs : slotAt xs i with
  | none =>
    have hlist : (Op.removeAtIndex i).onList eq xs = ⟨.error .indexOutOfRange, xs⟩ := by
      simp only [Op.onList, hs]
    exact refines_raised hlist (run_error Answer.object (removeAtIndex_error (slotAt_none hs)))
  | some x =>
    obtain ⟨pre, post, rfl, hi⟩ := slotAt_split hs
    have hat : (i - 1).toNat = pre.length := by omega
    have hlist : (Op.removeAtIndex i).onList eq (pre ++ x :: post) = ⟨.ok (.object x), pre ++ post⟩ := by
      simp [Op.onList, hs, hat, eraseIdx_append_of_length_le]
    apply refines_kept hlist (run_ok Answer.object (removeAtIndex_ok hi))
    simp only [length_append, length_cons]
    omega

theorem refines_removeIfAbsent {oldObject : α} : Refines eq (.removeIfAbsent oldObject) front xs back := by
  have hremove := @removeIfAbsent_ok _ _ front back xs eq oldObject
  cases hfind : xs.find? (eq · oldObject) with
  | none =>
    rw [hfind] at hremove
    have hlist : (Op.removeIfAbsent oldObject).onList eq xs = ⟨.ok .absent, xs⟩ := by
      simp only [Op.onList, hfind]
    exact refines_kept hlist (run_ok _ hremove) (Nat.le_refl _)
  | some x =>
    rw [hfind] at hremove
    have hlist : (Op.removeIfAbsent oldObject).onList eq xs =
        ⟨.ok (.object x), xs.eraseP (eq · oldObject)⟩ := by
      simp only [Op.onList, hfind]
    have hlen := length_eraseP_of_mem (mem_of_find?_eq_some hfind) (find?_some hfind)
    have hpos := length_pos_of_mem (mem_of_find?_eq_some hfind)
    apply refines_kept hlist (run_ok _ hremove)
    rw [length_cons]
    omega

theorem refines_removeAllSuchThat {aBlock : α → Bool} : Refines eq (.removeAllSuchThat aBlock) front xs back := by
  have hlist : (Op.removeAllSuchThat aBlock).onList eq xs = ⟨.ok .self, xs.filter fun v => !aBlock v⟩ := rfl
  apply refines_kept hlist (run_ok _ removeAllSuchThat_ok)
  have := length_filter_le (fun v => !aBlock v) xs
  rw [length_nil]
  omega

theorem refines_at : Refines eq (.at i) front xs back := by
  cases hs : slotAt xs i with
  | none =>
    have hlist : (Op.at i).onList eq xs = ⟨.error .indexOutOfRange, xs⟩ := by
      simp only [Op.onList, hs]
    exact refines_raised hlist (run_error Answer.object (at_error (slotAt_none hs)))
  | some x =>
    obtain ⟨pre, post, rfl, hi⟩ := slotAt_split hs
    have hlist : (Op.at i).onList eq (pre ++ x :: post) = ⟨.ok (.object x), pre ++ x :: post⟩ := by
      simp only [Op.onList, hs]
    exact refines_kept hlist (run_ok Answer.object (at_ok hi)) (Nat.le_refl _)

theorem refines_atPut : Refines eq (.atPut i v) front xs back := by
  by_cases hin : 1 ≤ i ∧ i ≤ xs.length
  · obtain ⟨pre, x, post, rfl, hi⟩ := exists_split hin
    have hlist : (Op.atPut i v).onList eq (pre ++ x :: post) = ⟨.ok (.object v), pre ++ v :: post⟩ := by
      simp only [Op.onList, slotPut_append hi]
    apply refines_kept hlist (run_ok Answer.object (atPut_ok hi))
    simp only [length_append, length_cons]
    omega
  · have hlist : (Op.atPut i v).onList eq xs = ⟨.error .indexOutOfRange, xs⟩ := by
      simp only [Op.onList, slotPut, if_neg hin]
    exact refines_raised hlist (run_error Answer.object (atPut_error hin))

theorem refines (op : Op α) : Refines eq op front xs back := by
  cases op with
  | addLast v => exact refines_addLast
  | addFirst v => exact refines_addFirst
  | addBeforeIndex v index => exact refines_addBeforeIndex
  | addAllFirst vs => exact refines_addAllFirst
  | removeFirst => exact refines_removeFirst
  | removeLast => exact refines_removeLast
  | removeAtIndex i => exact refines_removeAtIndex
  | removeIfAbsent oldObject => exact refines_removeIfAbsent
  | removeAllSuchThat aBlock => exact refines_removeAllSuchThat
  | «at» i => exact refines_at
  | atPut i v => exact refines_atPut

def listAfter (eq : α → α → Bool) (ops : List (Op α)) : List α := ops.foldl (fun xs op => (op.onList eq xs).left) []

def Inside (c : OrderedCollection α) : Prop :=
  1 ≤ c.firstIndex ∧ c.firstIndex ≤ c.lastIndex + 1 ∧ c.lastIndex ≤ c.array.length

omit [Inhabited α] in
theorem Holds.inside {c : OrderedCollection α} (h : Holds c xs) : Inside c := by
  obtain ⟨front, back, rfl⟩ := h
  have hlen := @length_window _ front back xs
  have hfirst : (window front xs back).firstIndex = front.length + 1 := rfl
  have hlast : (window front xs back).lastIndex = front.length + xs.length := rfl
  refine ⟨?_, ?_, ?_⟩
  all_goals omega

def ThriftyRun (eq : α → α → Bool) : OrderedCollection α → List (Op α) → Prop
  | _, [] => True
  | c, op :: ops => op.Thrifty c ∧ ThriftyRun eq (op.run eq c).left ops

theorem foldl_refines {h : History α} (ops : List (Op α)) (hc : Holds h.collection xs)
    (hlarge : xs.length ≤ h.largest) :
    Holds (ops.foldl (History.step eq) h).collection (ops.foldl (fun xs op => (op.onList eq xs).left) xs) ∧
      (h.collection.array.length ≤ max 8 (2 * h.largest) → ThriftyRun eq h.collection ops →
        (ops.foldl (History.step eq) h).collection.array.length ≤
          max 8 (2 * (ops.foldl (History.step eq) h).largest)) := by
  induction ops generalizing h xs with
  | nil => exact ⟨hc, fun hbound _ => hbound⟩
  | cons op ops ih =>
    obtain ⟨front, back, he⟩ := hc
    obtain ⟨front', back', hrun, -, hcap⟩ := @refines _ _ eq front back xs op
    rw [← he] at hrun hcap
    have hleft : (History.step eq h op).collection = window front' (op.onList eq xs).left back' :=
      congrArg Outcome.left hrun
    have hsize : (History.step eq h op).largest = max h.largest (op.onList eq xs).left.length := by
      show max h.largest (op.run eq h.collection).left.size.toNat = _
      rw [hrun, size_window]
      rfl
    obtain ⟨hholds, hthrifty⟩ := ih (h := History.step eq h op) ⟨front', back', hleft⟩
      (by rw [hsize]; exact Nat.le_max_right _ _)
    refine ⟨hholds, fun hbound ⟨hop, hops⟩ => hthrifty ?_ ?_⟩
    · have := hcap hop
      rw [hleft, hsize]
      omega
    · exact hops

theorem after_holds (eq : α → α → Bool) (ops : List (Op α)) :
    Holds (History.after eq ops).collection (listAfter eq ops) :=
  (@foldl_refines _ _ _ [] .start ops ⟨[], List.replicate 8 default, rfl⟩ (Nat.le_refl 0)).1

/-- After any operations the next one answers or raises as on the list and leaves what it leaves
of the list, inside the array, and a raised error changes nothing; with thrifty steps only, the
array is at most eight times as long as the largest size. -/
theorem refines_list (eq : α → α → Bool) (ops : List (Op α)) (op : Op α) :
    (op.run eq (History.after eq ops).collection).answer = (op.onList eq (listAfter eq ops)).answer ∧
      Holds (op.run eq (History.after eq ops).collection).left (op.onList eq (listAfter eq ops)).left ∧
      Inside (op.run eq (History.after eq ops).collection).left ∧
      (∀ e, (op.run eq (History.after eq ops).collection).answer = .error e →
        (op.run eq (History.after eq ops).collection).left = (History.after eq ops).collection ∧
          (op.onList eq (listAfter eq ops)).left = listAfter eq ops) ∧
      (ThriftyRun eq new ops →
        (History.after eq ops).collection.array.length ≤ 8 * max 1 (History.after eq ops).largest) := by
  obtain ⟨front, back, hc⟩ := after_holds eq ops
  obtain ⟨front', back', hrun, hraised, -⟩ := @refines _ _ eq front back (listAfter eq ops) op
  rw [← hc] at hrun hraised
  have hholds : Holds (op.run eq (History.after eq ops).collection).left (op.onList eq (listAfter eq ops)).left :=
    ⟨front', back', congrArg Outcome.left hrun⟩
  have hanswer : (op.run eq (History.after eq ops).collection).answer = (op.onList eq (listAfter eq ops)).answer :=
    congrArg Outcome.answer hrun
  refine ⟨hanswer, hholds, hholds.inside, fun e he => ?_, fun hthrifty => ?_⟩
  · have hsame := hraised e (hanswer.symm.trans he)
    have hleft : (op.run eq (History.after eq ops).collection).left = (History.after eq ops).collection :=
      (congrArg Outcome.left hrun).trans hsame
    refine ⟨hleft, ?_⟩
    rw [hc] at hsame
    have hlists := congrArg OrderedCollection.array hsame
    have hfirst := congrArg OrderedCollection.firstIndex hsame
    have hsizes := congrArg OrderedCollection.size hsame
    rw [size_window, size_window] at hsizes
    have hfront : front'.length = front.length := by
      have : (front'.length : Int) + 1 = front.length + 1 := hfirst
      omega
    have harray : front' ++ (op.onList eq (listAfter eq ops)).left ++ back' = front ++ listAfter eq ops ++ back := hlists
    rw [append_assoc, append_assoc] at harray
    exact (append_inj (append_inj harray hfront).2 (by omega)).1
  · have hbound := (@foldl_refines _ _ eq [] .start ops ⟨[], List.replicate 8 default, rfl⟩
      (Nat.le_refl 0)).2 (Nat.le_refl 8) hthrifty
    have : (History.after eq ops).collection.array.length ≤ max 8 (2 * (History.after eq ops).largest) := hbound
    omega

theorem refines_list_queue :
    (Op.removeFirst.run (· == ·) (History.after (· == ·) [Op.addLast 5, .addLast 6]).collection).answer =
        .ok (.object (5 : Nat)) ∧
      (History.after (· == ·) [Op.addLast 5, .addLast (6 : Nat)]).collection.array.length ≤ 8 * max 1 2 := by
  obtain ⟨hanswer, -, -, -, hbound⟩ := refines_list (· == ·) [Op.addLast 5, .addLast (6 : Nat)] .removeFirst
  refine ⟨hanswer, hbound ⟨fun h => (nomatch h), fun h => (nomatch h), trivial⟩⟩

theorem queue_round {front back : List Nat} {l : Nat} (hl : l ≤ 1) : ∃ (front' back' : List Nat) (l' : Nat),
    [Op.addLast 0, .removeFirst].foldl (History.step (· == ·)) ⟨window front [] back, l⟩ =
        ⟨window front' [] back', l'⟩ ∧ l' ≤ 1 ∧
      front'.length + back'.length = (if back = [] then max front.length 1 * 2 else front.length + back.length) ∧
      (back ≠ [] → back'.length < back.length) := by
  obtain ⟨front', back', hadd, hlen⟩ := @addLast_ok _ _ front back [] 0
  have hone : (Op.addLast 0).run (· == ·) (window front [] back) = ⟨_, _⟩ := run_ok Answer.object hadd
  have htwo : (Op.removeFirst).run (· == ·) (window front' [0] back') = ⟨_, _⟩ := run_ok Answer.object removeFirst_ok
  refine ⟨front' ++ [default], back', max (max l 1) 0, ?_, by omega, ?_, ?_⟩
  · simp only [foldl_cons, foldl_nil, History.step, hone, htwo, size_window, nil_append, length_nil, length_singleton]
    rfl
  · rw [length_window, length_window] at hlen
    simp only [nil_append, length_singleton, length_nil, Nat.add_zero] at hlen
    rw [length_append, length_singleton]
    omega
  · intro hback
    rw [if_neg hback, length_window, length_window] at hlen
    simp only [nil_append, length_singleton, length_nil, Nat.add_zero] at hlen
    have hfirst : (window front' [0] back').firstIndex = (window front [] back).firstIndex := by
      cases back with
      | nil => exact absurd rfl hback
      | cons b back =>
        have hroom : ¬ (window front [] (b :: back)).lastIndex = (window front [] (b :: back)).array.length := by
          rw [length_window]
          simp only [window, length_cons, length_nil]
          omega
        have hput : addLast 0 (window front [] (b :: back)) = .ok 0 (window front [0] back) := by
          unfold addLast
          refine (Triple.bind_ok (s := window front [] (b :: back)) rfl).trans ?_
          refine (Triple.bind_ok (s := window front [] (b :: back)) rfl).trans ?_
          rw [if_neg hroom]
          exact putLast_ok
        have hsame : window front' ([] ++ [0]) back' = window front [0] back :=
          (EStateM.Result.ok.inj (hadd.symm.trans hput)).2
        have hfirst := congrArg OrderedCollection.firstIndex hsame
        exact hfirst
    have : (front'.length : Int) + 1 = front.length + 1 := hfirst
    omega

theorem queue_rounds (n : Nat) : ∀ (front back : List Nat) (l : Nat), back.length ≤ n → l ≤ 1 →
    ∃ (ops : List (Op Nat)) (front' back' : List Nat) (l' : Nat),
      ops.foldl (History.step (· == ·)) ⟨window front [] back, l⟩ = ⟨window front' [] back', l'⟩ ∧ l' ≤ 1 ∧
        front'.length + back'.length = max (front.length + back.length) 1 * 2 := by
  induction n with
  | zero =>
    intro front back l hback hl
    have hnil : back = [] := length_eq_zero_iff.mp (by omega)
    obtain ⟨front', back', l', hrun, hl', hlen, -⟩ := @queue_round front back _ hl
    rw [if_pos hnil] at hlen
    exact ⟨_, front', back', l', hrun, hl', by rw [hlen, hnil]; rfl⟩
  | succ n ih =>
    intro front back l hback hl
    obtain ⟨front', back', l', hrun, hl', hlen, hless⟩ := @queue_round front back _ hl
    by_cases hnil : back = []
    · rw [if_pos hnil] at hlen
      exact ⟨_, front', back', l', hrun, hl', by rw [hlen, hnil]; rfl⟩
    · rw [if_neg hnil] at hlen
      obtain ⟨ops, front₂, back₂, l₂, hrest, hl₂, hlen₂⟩ := ih front' back' l' (by have := hless hnil; omega) hl'
      refine ⟨[Op.addLast 0, .removeFirst] ++ ops, front₂, back₂, l₂, ?_, hl₂, by rw [hlen₂, hlen]⟩
      rw [foldl_append, hrun, hrest]

/-- Used as a queue of one element at a time, the collection outgrows every multiple of its
largest size. -/
theorem queue_outgrows : ¬ ∃ C : Nat, ∀ ops : List (Op Nat),
    (History.after (· == ·) ops).collection.array.length ≤ C * max 1 (History.after (· == ·) ops).largest := by
  rintro ⟨C, hC⟩
  have hgrow : ∀ k : Nat, ∃ (ops : List (Op Nat)) (front back : List Nat) (l : Nat),
      History.after (· == ·) ops = ⟨window front [] back, l⟩ ∧ l ≤ 1 ∧ k < front.length + back.length := by
    intro k
    induction k with
    | zero => exact ⟨[], [], List.replicate 8 0, 0, rfl, Nat.zero_le _, by decide⟩
    | succ k ih =>
      obtain ⟨ops, front, back, l, hafter, hl, hlen⟩ := ih
      obtain ⟨more, front', back', l', hrun, hl', hlen'⟩ := queue_rounds back.length front back l (Nat.le_refl _) hl
      refine ⟨ops ++ more, front', back', l', ?_, hl', by omega⟩
      rw [History.after, foldl_append]
      exact (congrArg (List.foldl _ · more) hafter).trans hrun
  obtain ⟨ops, front, back, l, hafter, hl, hlen⟩ := hgrow C
  have := hC ops
  rw [hafter] at this
  have harray := @length_window _ front back []
  have hmax : max 1 l = 1 := by omega
  rw [hmax, Nat.mul_one, harray, length_nil] at this
  omega

end WinArmVm.OrderedCollection
