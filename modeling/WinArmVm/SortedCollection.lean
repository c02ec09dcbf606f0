import Mathlib.Algebra.Order.Group.Multiset
import WinArmVm.OrderedRuns

namespace WinArmVm.SortedCollection

open List OrderedCollection
open Triple (bind_ok)

variable {α : Type} [Inhabited α]

/-- The added element goes down from index `k + 1` past the elements it may stand before. -/
def bubble (sortBlock : α → α → Bool) (newObject : α) : Nat → Act α Unit
  | 0 => pure ()
  | k + 1 => do
    if sortBlock newObject (← «at» (k + 1)) then
      let prior ← «at» (k + 1)
      let _ ← atPut (k + 1) newObject
      let _ ← atPut (k + 2) prior
      bubble sortBlock newObject k

def add (sortBlock : α → α → Bool) (newObject : α) : Act α α := do
  let _ ← addLast newObject
  bubble sortBlock newObject ((← get).size - 1).toNat
  pure newObject

def addFirst (sortBlock : α → α → Bool) (v : α) : Act α α := add sortBlock v

def remove (eq : α → α → Bool) (oldObject : α) : Act α α := do
  match ← removeIfAbsent eq oldObject with
  | none => throw .objectNotFound
  | some x => pure x

def addEach (sortBlock : α → α → Bool) : List α → Act α Unit
  | [] => pure ()
  | v :: vs => do
    let _ ← add sortBlock v
    addEach sortBlock vs

/-- `sorted:`, and `sorted` with the default block: the elements of a SortedCollection of those
of the receiver. -/
def sorted (sortBlock : α → α → Bool) (receiver : List α) : Act α (List α) := do
  let (_, s) ← within new (addEach sortBlock receiver)
  let (ordered, _) ← within s elements
  pure ordered

/-- `sort:` and `sort` put the sorted elements back one by one. -/
def sort (sortBlock : α → α → Bool) : Act α Unit := do
  let ordered ← sorted sortBlock (← elements)
  upFrom (fun i => do
    let v ← checked (slotAt ordered i)
    let _ ← atPut i v) (← get).size.toNat 1

/-- The messages that change the collection by themselves. -/
inductive Step (α : Type)
  | add (v : α)
  | addFirst (v : α)
  | addLast (v : α)
  | addBeforeIndex (v : α) (index : Int)
  | removeFirst
  | removeLast
  | removeAtIndex (i : Int)
  | removeIfAbsent (oldObject : α)
  | remove (oldObject : α)
  | removeAllSuchThat (aBlock : α → Bool)

def Step.act (sortBlock eq : α → α → Bool) : Step α → Act α (OrderedCollection.Answer α)
  | .add v => OrderedCollection.Answer.object <$> SortedCollection.add sortBlock v
  | .addFirst v => OrderedCollection.Answer.object <$> SortedCollection.addFirst sortBlock v
  | .addLast v => (Op.addLast v).act eq
  | .addBeforeIndex v index => (Op.addBeforeIndex v index).act eq
  | .removeFirst => (Op.removeFirst).act eq
  | .removeLast => (Op.removeLast).act eq
  | .removeAtIndex i => (Op.removeAtIndex i).act eq
  | .removeIfAbsent oldObject => (Op.removeIfAbsent oldObject).act eq
  | .remove oldObject => OrderedCollection.Answer.object <$> SortedCollection.remove eq oldObject
  | .removeAllSuchThat aBlock => (Op.removeAllSuchThat aBlock).act eq

/-- A mutator, and the messages it sends to the collection one after the other; an error in one
of them ends it. -/
inductive Message (α : Type)
  | one (step : Step α)
  | addAll (vs : List α)
  | addAllFirst (vs : List α)
  | addAllLast (vs : List α)
  | removeAll (vs : List α)
  | removeFirstN (n : Nat)
  | removeLastN (n : Nat)

omit [Inhabited α] in
def Message.steps : Message α → List (Step α)
  | .one step => [step]
  | .addAll vs => vs.map .add
  | .addAllFirst vs => vs.reverse.map .addFirst
  | .addAllLast vs => vs.map .addLast
  | .removeAll vs => vs.map .remove
  | .removeFirstN n => List.replicate n .removeFirst
  | .removeLastN n => List.replicate n .removeLast

structure Ledger (α : Type) where
  collection : OrderedCollection α
  added : Multiset α
  removed : Multiset α

omit [Inhabited α] in
def Step.adds : Step α → Multiset α
  | .add v | .addFirst v | .addLast v | .addBeforeIndex v _ => {v}
  | _ => 0

omit [Inhabited α] in
/-- The elements that a step takes when it does not raise: the one it answers, or those its
block answers true for. -/
def Step.removes (xs : List α) (answer : OrderedCollection.Answer α) : Step α → Multiset α
  | .removeFirst | .removeLast | .removeAtIndex _ | .removeIfAbsent _ | .remove _ =>
    match answer with
    | .object x => {x}
    | _ => 0
  | .removeAllSuchThat aBlock => (xs.filter aBlock : List α)
  | _ => 0

omit [Inhabited α] in
def contents (c : OrderedCollection α) : List α := (c.array.drop (c.firstIndex - 1).toNat).take c.size.toNat

def Ledger.start : Ledger α := ⟨new, 0, 0⟩

def Ledger.step (sortBlock eq : α → α → Bool) (l : Ledger α) (s : Step α) : Ledger α × Bool :=
  let o := outcome (s.act sortBlock eq l.collection)
  match o.answer with
  | .error _ => (⟨o.left, l.added, l.removed⟩, false)
  | .ok a => (⟨o.left, l.added + s.adds, l.removed + s.removes (contents l.collection) a⟩, true)

def Ledger.sends (sortBlock eq : α → α → Bool) : Ledger α → List (Step α) → Ledger α
  | l, [] => l
  | l, s :: ss =>
    match l.step sortBlock eq s with
    | (l, true) => sends sortBlock eq l ss
    | (l, false) => l

def Ledger.after (sortBlock eq : α → α → Bool) (messages : List (Message α)) : Ledger α :=
  messages.foldl (fun l m => l.sends sortBlock eq m.steps) .start

omit [Inhabited α] in
def Step.InOrder (sortBlock : α → α → Bool) (xs : List α) : Step α → Prop
  | .addLast v => ∀ x, xs.getLast? = some x → sortBlock x v
  | .addBeforeIndex v index => 1 ≤ index ∧ index ≤ xs.length + 1 →
    (∀ x, slotAt xs (index - 1) = some x → sortBlock x v) ∧ ∀ x, slotAt xs index = some x → sortBlock v x
  | _ => True

def StepsInOrder (sortBlock eq : α → α → Bool) : Ledger α → List (Step α) → Prop
  | _, [] => True
  | l, s :: ss => s.InOrder sortBlock (contents l.collection) ∧
    ((l.step sortBlock eq s).2 = true → StepsInOrder sortBlock eq (l.step sortBlock eq s).1 ss)

def InOrderRun (sortBlock eq : α → α → Bool) : Ledger α → List (Message α) → Prop
  | _, [] => True
  | l, m :: ms => StepsInOrder sortBlock eq l m.steps ∧ InOrderRun sortBlock eq (l.sends sortBlock eq m.steps) ms

omit [Inhabited α] in
def Sorted (sortBlock : α → α → Bool) (xs : List α) : Prop := xs.Pairwise fun a b => sortBlock a b

variable {sortBlock eq : α → α → Bool} {front back xs pre post : List α} {v x : α}

omit [Inhabited α] in
theorem contents_window : contents (window front xs back) = xs := by
  have hdrop : ((window front xs back).firstIndex - 1).toNat = front.length := by
    show ((front.length : Int) + 1 - 1).toNat = _
    omega
  have hsize : (window front xs back).size.toNat = xs.length := by
    rw [size_window]
    omega
  unfold contents
  rw [hdrop, hsize]
  simp [window]

omit [Inhabited α] in
theorem contents_eq {c : OrderedCollection α} (h : Holds c xs) : contents c = xs := by
  obtain ⟨front, back, rfl⟩ := h
  exact contents_window

omit [Inhabited α] in
def bubbled (sortBlock : α → α → Bool) (v : α) : List α → List α → List α
  | [], post => v :: post
  | y :: pre, post => if sortBlock v y then bubbled sortBlock v pre (y :: post) else (y :: pre).reverse ++ v :: post

omit [Inhabited α] in
theorem bubble_ok : bubble sortBlock v pre.length (window front (pre.reverse ++ v :: post) back) =
    .ok () (window front (bubbled sortBlock v pre post) back) := by
  induction pre generalizing post with
  | nil => rfl
  | cons y pre ih =>
    have hlen : ((pre.length : Nat) : Int) = pre.reverse.length := by rw [length_reverse]
    have hread := @at_ok _ front back pre.reverse (v :: post) y (pre.length + 1) (by omega)
    have hdown := @atPut_ok _ front back pre.reverse (v :: post) v y (pre.length + 1) (by omega)
    have hup := @atPut_ok _ front back (pre.reverse ++ [v]) post y v (pre.length + 2)
      (by rw [length_append, length_singleton]; omega)
    rw [append_assoc pre.reverse, singleton_append, append_assoc pre.reverse, singleton_append] at hup
    rw [reverse_cons, append_assoc, singleton_append, length_cons]
    unfold bubble bubbled
    refine (bind_ok hread).trans ?_
    by_cases hy : sortBlock v y = true
    · rw [if_pos hy, if_pos hy]
      refine (bind_ok hread).trans ?_
      refine (bind_ok hdown).trans ?_
      exact (bind_ok hup).trans ih
    · rw [if_neg hy, if_neg hy, reverse_cons, append_assoc, singleton_append]
      rfl

theorem add_ok : ∃ front' back', add sortBlock v (window front xs back) =
    .ok v (window front' (bubbled sortBlock v xs.reverse []) back') := by
  obtain ⟨front', back', hadd, -⟩ := @addLast_ok _ _ front back xs v
  have hbubble := @bubble_ok _ sortBlock front' back' xs.reverse [] v
  have hsize : ((window front' (xs ++ [v]) back').size - 1).toNat = xs.reverse.length := by
    rw [size_window, length_append, length_singleton, length_reverse]
    omega
  rw [reverse_reverse] at hbubble
  refine ⟨front', back', ?_⟩
  unfold add
  refine (bind_ok hadd).trans ?_
  refine (bind_ok (s := window front' (xs ++ [v]) back') rfl).trans ?_
  rw [hsize]
  exact (bind_ok hbubble).trans rfl

omit [Inhabited α] in
def Step.onList (sortBlock eq : α → α → Bool) (xs : List α) : Step α → Outcome α (List α)
  | .add v => ⟨.ok (.object v), bubbled sortBlock v xs.reverse []⟩
  | .addFirst v => ⟨.ok (.object v), bubbled sortBlock v xs.reverse []⟩
  | .addLast v => (Op.addLast v).onList eq xs
  | .addBeforeIndex v index => (Op.addBeforeIndex v index).onList eq xs
  | .removeFirst => (Op.removeFirst).onList eq xs
  | .removeLast => (Op.removeLast).onList eq xs
  | .removeAtIndex i => (Op.removeAtIndex i).onList eq xs
  | .removeIfAbsent oldObject => (Op.removeIfAbsent oldObject).onList eq xs
  | .remove oldObject =>
    match xs.find? (eq · oldObject) with
    | none => ⟨.error .objectNotFound, xs⟩
    | some x => ⟨.ok (.object x), xs.eraseP (eq · oldObject)⟩
  | .removeAllSuchThat aBlock => (Op.removeAllSuchThat aBlock).onList eq xs

def Follows (sortBlock eq : α → α → Bool) (s : Step α) (front xs back : List α) : Prop := ∃ front' back',
  outcome (s.act sortBlock eq (window front xs back)) =
    ⟨(s.onList sortBlock eq xs).answer, window front' (s.onList sortBlock eq xs).left back'⟩

theorem follows_remove {oldObject : α} : Follows sortBlock eq (.remove oldObject) front xs back := by
  have hremove := @removeIfAbsent_ok _ _ front back xs eq oldObject
  cases hfind : xs.find? (eq · oldObject) with
  | none =>
    rw [hfind] at hremove
    have hlist : (Step.remove oldObject).onList sortBlock eq xs = ⟨.error .objectNotFound, xs⟩ := by
      simp only [Step.onList, hfind]
    have hrun : remove eq oldObject (window front xs back) = .error .objectNotFound (window front xs back) := by
      unfold remove
      exact (bind_ok hremove).trans rfl
    unfold Follows
    rw [hlist]
    exact ⟨front, back, run_error OrderedCollection.Answer.object hrun⟩
  | some x =>
    rw [hfind] at hremove
    have hlist : (Step.remove oldObject).onList sortBlock eq xs =
        ⟨.ok (.object x), xs.eraseP (eq · oldObject)⟩ := by
      simp only [Step.onList, hfind]
    have hrun : remove eq oldObject (window front xs back) =
        .ok x (window front (xs.eraseP (eq · oldObject)) (default :: back)) := by
      unfold remove
      exact (bind_ok hremove).trans rfl
    unfold Follows
    rw [hlist]
    exact ⟨front, default :: back, run_ok OrderedCollection.Answer.object hrun⟩

theorem follows_add : Follows sortBlock eq (.add v) front xs back := by
  obtain ⟨front', back', hadd⟩ := @add_ok _ _ sortBlock front back xs v
  exact ⟨front', back', run_ok OrderedCollection.Answer.object hadd⟩

theorem follows_inherited {s : Step α} (op : Op α) (hact : s.act sortBlock eq = op.act eq)
    (hlist : s.onList sortBlock eq xs = op.onList eq xs) : Follows sortBlock eq s front xs back := by
  obtain ⟨front', back', hrun, -, -⟩ := @refines _ _ eq front back xs op
  unfold Follows
  rw [hact, hlist]
  exact ⟨front', back', hrun⟩

theorem follows (s : Step α) : Follows sortBlock eq s front xs back := by
  cases s with
  | add v => exact follows_add
  | addFirst v => exact @follows_add _ _ sortBlock eq front back xs v
  | addLast v => exact follows_inherited (.addLast v) rfl rfl
  | addBeforeIndex v index => exact follows_inherited (.addBeforeIndex v index) rfl rfl
  | removeFirst => exact follows_inherited .removeFirst rfl rfl
  | removeLast => exact follows_inherited .removeLast rfl rfl
  | removeAtIndex i => exact follows_inherited (.removeAtIndex i) rfl rfl
  | removeIfAbsent oldObject => exact follows_inherited (.removeIfAbsent oldObject) rfl rfl
  | remove oldObject => exact follows_remove
  | removeAllSuchThat aBlock => exact follows_inherited (.removeAllSuchThat aBlock) rfl rfl

omit [Inhabited α] in
theorem bubbled_perm : (bubbled sortBlock v pre post).Perm (v :: (pre ++ post)) := by
  induction pre generalizing post with
  | nil => exact List.Perm.refl _
  | cons y pre ih =>
    unfold bubbled
    split
    next =>
      apply ih.trans
      exact List.Perm.cons v perm_middle
    next =>
      apply perm_middle.trans
      exact List.Perm.cons v ((reverse_perm _).append_right post)

omit [Inhabited α] in
theorem slotAt_perm {i : Int} (h : slotAt xs i = some x) : xs.Perm (x :: xs.eraseIdx (i - 1).toNat) := by
  obtain ⟨pre, post, rfl, hi⟩ := slotAt_split h
  have hat : (i - 1).toNat = pre.length := by omega
  have herase : (pre ++ x :: post).eraseIdx pre.length = pre ++ post := by
    rw [eraseIdx_append_of_length_le (Nat.le_refl _), Nat.sub_self]
    rfl
  rw [hat, herase]
  exact perm_middle

omit [Inhabited α] in
theorem find?_perm {p : α → Bool} (h : xs.find? p = some x) : xs.Perm (x :: xs.eraseP p) := by
  induction xs with
  | nil => cases h
  | cons y xs ih =>
    by_cases hy : p y = true
    · rw [find?_cons_of_pos hy] at h
      rw [eraseP_cons_of_pos hy, Option.some.inj h]
    · rw [find?_cons_of_neg hy] at h
      rw [eraseP_cons_of_neg hy]
      exact ((ih h).cons y).trans (List.Perm.swap x y _)

omit [Inhabited α] in
theorem dropLast_perm (h : xs.getLast? = some x) : xs.Perm (x :: xs.dropLast) := by
  obtain ⟨ys, rfl⟩ := getLast?_eq_some_iff.mp h
  rw [dropLast_concat]
  exact perm_append_singleton x ys

omit [Inhabited α] in
/-- What a step does to the elements: none when it raises, and otherwise what it says. -/
def Balanced (sortBlock eq : α → α → Bool) (s : Step α) (xs : List α) : Prop :=
  (∃ e, s.onList sortBlock eq xs = ⟨.error e, xs⟩) ∨
    ∃ a ys, s.onList sortBlock eq xs = ⟨.ok a, ys⟩ ∧ (ys : Multiset α) + s.removes xs a = (xs : Multiset α) + s.adds

omit [Inhabited α] in
theorem balanced_added {s : Step α} {a : OrderedCollection.Answer α} {ys : List α} (hlist : s.onList sortBlock eq xs = ⟨.ok a, ys⟩)
    (hadds : s.adds = {v}) (hremoves : s.removes xs a = 0) (hperm : ys.Perm (v :: xs)) :
    Balanced sortBlock eq s xs := by
  refine .inr ⟨a, ys, hlist, ?_⟩
  rw [hadds, hremoves, add_zero, add_comm, Multiset.singleton_add, Multiset.cons_coe, Multiset.coe_eq_coe]
  exact hperm

omit [Inhabited α] in
theorem balanced_removed {s : Step α} {a : OrderedCollection.Answer α} {ys : List α} (hlist : s.onList sortBlock eq xs = ⟨.ok a, ys⟩)
    (hadds : s.adds = 0) (hremoves : s.removes xs a = {x}) (hperm : xs.Perm (x :: ys)) :
    Balanced sortBlock eq s xs := by
  refine .inr ⟨a, ys, hlist, ?_⟩
  rw [hadds, hremoves, add_zero, add_comm, Multiset.singleton_add, Multiset.cons_coe, Multiset.coe_eq_coe]
  exact hperm.symm

omit [Inhabited α] in
theorem balanced (s : Step α) : Balanced sortBlock eq s xs := by
  cases s with
  | add v =>
    apply balanced_added rfl rfl rfl
    apply bubbled_perm.trans
    rw [append_nil]
    exact List.Perm.cons v (reverse_perm _)
  | addFirst v =>
    apply balanced_added rfl rfl rfl
    apply bubbled_perm.trans
    rw [append_nil]
    exact List.Perm.cons v (reverse_perm _)
  | addLast v =>
    have hlist : (Step.addLast v).onList sortBlock eq xs = ⟨.ok (.object v), xs ++ [v]⟩ := rfl
    exact balanced_added hlist rfl rfl (perm_append_singleton v xs)
  | addBeforeIndex v index =>
    by_cases hin : 1 ≤ index ∧ index ≤ xs.length + 1
    · have hlist : (Step.addBeforeIndex v index).onList sortBlock eq xs =
          ⟨.ok (.object v), xs.insertIdx (index - 1).toNat v⟩ := if_pos hin
      exact balanced_added hlist rfl rfl (perm_insertIdx v xs (by omega))
    · exact .inl ⟨_, if_neg hin⟩
  | removeFirst =>
    cases xs with
    | nil => exact .inl ⟨_, rfl⟩
    | cons x xs => exact balanced_removed rfl rfl rfl (List.Perm.refl _)
  | removeLast =>
    cases hlast : xs.getLast? with
    | none => exact .inl ⟨.collectionIsEmpty, by simp only [Step.onList, Op.onList, hlast]⟩
    | some x =>
      have hlist : (Step.removeLast).onList sortBlock eq xs = ⟨.ok (.object x), xs.dropLast⟩ := by
        simp only [Step.onList, Op.onList, hlast]
      exact balanced_removed hlist rfl rfl (dropLast_perm hlast)
  | removeAtIndex i =>
    cases hs : slotAt xs i with
    | none => exact .inl ⟨.indexOutOfRange, by simp only [Step.onList, Op.onList, hs]⟩
    | some x =>
      have hlist : (Step.removeAtIndex i).onList sortBlock eq xs = ⟨.ok (.object x), xs.eraseIdx (i - 1).toNat⟩ := by
        simp only [Step.onList, Op.onList, hs]
      exact balanced_removed hlist rfl rfl (slotAt_perm hs)
  | removeIfAbsent oldObject =>
    cases hfind : xs.find? (eq · oldObject) with
    | none =>
      have hlist : (Step.removeIfAbsent oldObject).onList sortBlock eq xs = ⟨.ok .absent, xs⟩ := by
        simp only [Step.onList, Op.onList, hfind]
      exact .inr ⟨_, _, hlist, rfl⟩
    | some x =>
      have hlist : (Step.removeIfAbsent oldObject).onList sortBlock eq xs =
          ⟨.ok (.object x), xs.eraseP (eq · oldObject)⟩ := by
        simp only [Step.onList, Op.onList, hfind]
      exact balanced_removed hlist rfl rfl (find?_perm hfind)
  | remove oldObject =>
    cases hfind : xs.find? (eq · oldObject) with
    | none => exact .inl ⟨.objectNotFound, by simp only [Step.onList, hfind]⟩
    | some x =>
      have hlist : (Step.remove oldObject).onList sortBlock eq xs =
          ⟨.ok (.object x), xs.eraseP (eq · oldObject)⟩ := by
        simp only [Step.onList, hfind]
      exact balanced_removed hlist rfl rfl (find?_perm hfind)
  | removeAllSuchThat aBlock =>
    refine .inr ⟨.self, xs.filter fun v => !aBlock v, rfl, ?_⟩
    show ((xs.filter fun v => !aBlock v : List α) : Multiset α) + (xs.filter aBlock : List α) = xs + 0
    rw [add_zero, Multiset.coe_add, Multiset.coe_eq_coe, perm_append_comm.congr_left]
    exact filter_append_perm aBlock xs

structure TotalPreorder (sortBlock : α → α → Bool) : Prop where
  total : ∀ a b, sortBlock a b ∨ sortBlock b a
  trans : ∀ a b c, sortBlock a b → sortBlock b c → sortBlock a c

omit [Inhabited α] in
theorem bubbled_sorted (hle : TotalPreorder sortBlock) (hs : Sorted sortBlock (pre.reverse ++ post))
    (hpost : ∀ p ∈ post, sortBlock v p) : Sorted sortBlock (bubbled sortBlock v pre post) := by
  induction pre generalizing post with
  | nil => exact pairwise_cons.mpr ⟨hpost, hs⟩
  | cons y pre ih =>
    rw [reverse_cons, append_assoc, singleton_append] at hs
    unfold bubbled
    by_cases hy : sortBlock v y = true
    · rw [if_pos hy]
      apply ih hs
      intro p hp
      rcases mem_cons.mp hp with rfl | hp
      · exact hy
      · exact hpost p hp
    · rw [if_neg hy, reverse_cons, append_assoc, singleton_append]
      obtain ⟨hpre, htail, hacross⟩ := pairwise_append.mp hs
      have hyv : sortBlock y v = true := (hle.total v y).resolve_left hy
      refine pairwise_append.mpr ⟨hpre, ?_, ?_⟩
      · obtain ⟨hyp, hp⟩ := pairwise_cons.mp htail
        refine pairwise_cons.mpr ⟨fun p hp => ?_, pairwise_cons.mpr ⟨hpost, hp⟩⟩
        rcases mem_cons.mp hp with rfl | hp
        · exact hyv
        · exact hyp p hp
      · intro a ha p hp
        have hay := hacross a ha y mem_cons_self
        rcases mem_cons.mp hp with rfl | hp
        · exact hay
        · rcases mem_cons.mp hp with rfl | hp
          · exact hle.trans a y _ hay hyv
          · exact hacross a ha p (mem_cons_of_mem y hp)

omit [Inhabited α] in
theorem sorted_insert (hle : TotalPreorder sortBlock) (hs : Sorted sortBlock (pre ++ post)) :
    Sorted sortBlock (pre ++ v :: post) ↔
      (∀ x, pre.getLast? = some x → sortBlock x v) ∧ ∀ x, post.head? = some x → sortBlock v x := by
  obtain ⟨hpre, hpost, hacross⟩ := pairwise_append.mp hs
  constructor
  · intro h
    obtain ⟨-, hv, hacross'⟩ := pairwise_append.mp h
    refine ⟨fun x hx => hacross' x (mem_of_getLast? hx) v mem_cons_self, fun x hx => ?_⟩
    exact (pairwise_cons.mp hv).1 x (mem_of_head? hx)
  · intro ⟨hlast, hhead⟩
    have hbefore : ∀ a ∈ pre, sortBlock a v = true := by
      intro a ha
      rcases eq_nil_or_concat pre with rfl | ⟨rest, y, rfl⟩
      · cases ha
      · rw [concat_eq_append] at ha hlast hpre
        have hyv := hlast y getLast?_concat
        rcases mem_append.mp ha with ha | ha
        · have hay := (pairwise_append.mp hpre).2.2 a ha y (mem_singleton_self y)
          exact hle.trans a y v hay hyv
        · rw [mem_singleton.mp ha]
          exact hyv
    have hafter : ∀ p ∈ post, sortBlock v p = true := by
      intro p hp
      cases post with
      | nil => cases hp
      | cons y rest =>
        have hvy := hhead y rfl
        rcases mem_cons.mp hp with rfl | hp
        · exact hvy
        · exact hle.trans v y p hvy ((pairwise_cons.mp hpost).1 p hp)
    refine pairwise_append.mpr ⟨hpre, pairwise_cons.mpr ⟨hafter, hpost⟩, fun a ha p hp => ?_⟩
    rcases mem_cons.mp hp with rfl | hp
    · exact hbefore a ha
    · exact hacross a ha p hp

omit [Inhabited α] in
theorem neighbours {index : Int} (hin : 1 ≤ index ∧ index ≤ xs.length + 1) : ∃ pre post, xs = pre ++ post ∧
    (index - 1).toNat = pre.length ∧ slotAt xs (index - 1) = pre.getLast? ∧ slotAt xs index = post.head? := by
  refine ⟨xs.take (index - 1).toNat, xs.drop (index - 1).toNat, (take_append_drop _ _).symm, ?_, ?_, ?_⟩
  · rw [length_take]
    omega
  · unfold slotAt
    split
    next h =>
      have hat : (index - 1 - 1).toNat = (index - 1).toNat - 1 := by omega
      rw [getLast?_eq_getElem?, length_take, Nat.min_eq_left (by omega), getElem?_take_of_lt (by omega), hat]
    next h =>
      have hzero : (index - 1).toNat = 0 := by omega
      rw [hzero]
      rfl
  · unfold slotAt
    rw [if_pos hin.1, head?_drop]

omit [Inhabited α] in
theorem sorted_step (hle : TotalPreorder sortBlock) (hs : Sorted sortBlock xs) (s : Step α) :
    Sorted sortBlock (s.onList sortBlock eq xs).left ↔ s.InOrder sortBlock xs := by
  have hsub : ∀ {ys : List α}, ys.Sublist xs → (Sorted sortBlock ys ↔ True) := fun h => iff_true_intro (hs.sublist h)
  cases s with
  | add v =>
    refine iff_true_intro (bubbled_sorted hle ?_ fun p hp => (nomatch hp))
    rw [reverse_reverse, append_nil]
    exact hs
  | addFirst v =>
    refine iff_true_intro (bubbled_sorted hle ?_ fun p hp => (nomatch hp))
    rw [reverse_reverse, append_nil]
    exact hs
  | addLast v =>
    have h := @sorted_insert _ _ xs [] v hle (by rw [append_nil]; exact hs)
    exact h.trans ⟨fun h => h.1, fun h => ⟨h, fun x hx => (nomatch hx)⟩⟩
  | addBeforeIndex v index =>
    by_cases hin : 1 ≤ index ∧ index ≤ xs.length + 1
    · obtain ⟨pre, post, hxs, hat, hbefore, hafter⟩ := neighbours hin
      have hlist : (Step.addBeforeIndex v index).onList sortBlock eq xs =
          ⟨.ok (.object v), xs.insertIdx (index - 1).toNat v⟩ := if_pos hin
      have hput : xs.insertIdx (index - 1).toNat v = pre ++ v :: post := by
        rw [hxs, hat, insertIdx_split]
      have hiff := @sorted_insert _ _ pre post v hle (by rw [← hxs]; exact hs)
      rw [hlist]
      show Sorted sortBlock (xs.insertIdx (index - 1).toNat v) ↔ (1 ≤ index ∧ index ≤ xs.length + 1 → _)
      rw [hput, hbefore, hafter, hiff]
      exact ⟨fun h _ => h, fun h => h hin⟩
    · have hlist : (Step.addBeforeIndex v index).onList sortBlock eq xs = ⟨.error .indexOutOfBounds, xs⟩ := if_neg hin
      rw [hlist]
      exact ⟨fun _ h => absurd h hin, fun _ => hs⟩
  | removeFirst =>
    cases xs with
    | nil => exact iff_true_intro hs
    | cons x xs => exact hsub (sublist_cons_self x xs)
  | removeLast =>
    cases hlast : xs.getLast? with
    | none =>
      simp only [Step.onList, Op.onList, hlast]
      exact iff_true_intro hs
    | some x =>
      simp only [Step.onList, Op.onList, hlast]
      exact hsub (dropLast_sublist xs)
  | removeAtIndex i =>
    cases hat : slotAt xs i with
    | none =>
      simp only [Step.onList, Op.onList, hat]
      exact iff_true_intro hs
    | some x =>
      simp only [Step.onList, Op.onList, hat]
      exact hsub (eraseIdx_sublist xs _)
  | removeIfAbsent oldObject =>
    cases hfind : xs.find? (eq · oldObject) with
    | none =>
      simp only [Step.onList, Op.onList, hfind]
      exact iff_true_intro hs
    | some x =>
      simp only [Step.onList, Op.onList, hfind]
      exact hsub eraseP_sublist
  | remove oldObject =>
    cases hfind : xs.find? (eq · oldObject) with
    | none =>
      simp only [Step.onList, hfind]
      exact iff_true_intro hs
    | some x =>
      simp only [Step.onList, hfind]
      exact hsub eraseP_sublist
  | removeAllSuchThat aBlock => exact hsub filter_sublist

omit [Inhabited α] in
def insertedAll (sortBlock : α → α → Bool) (xs : List α) (vs : List α) : List α :=
  vs.foldl (fun xs v => bubbled sortBlock v xs.reverse []) xs

theorem addEach_ok {vs : List α} : ∃ front' back', addEach sortBlock vs (window front xs back) =
    .ok () (window front' (insertedAll sortBlock xs vs) back') := by
  induction vs generalizing front xs back with
  | nil => exact ⟨front, back, rfl⟩
  | cons v vs ih =>
    obtain ⟨front₁, back₁, hadd⟩ := @add_ok _ _ sortBlock front back xs v
    obtain ⟨front₂, back₂, hrest⟩ := @ih front₁ back₁ (bubbled sortBlock v xs.reverse [])
    exact ⟨front₂, back₂, (bind_ok hadd).trans hrest⟩

omit [Inhabited α] in
theorem insertedAll_sorted (hle : TotalPreorder sortBlock) (hs : Sorted sortBlock xs) (vs : List α) :
    Sorted sortBlock (insertedAll sortBlock xs vs) := by
  induction vs generalizing xs with
  | nil => exact hs
  | cons v vs ih =>
    apply ih
    apply bubbled_sorted hle
    · rw [reverse_reverse, append_nil]
      exact hs
    · exact fun p hp => (nomatch hp)

omit [Inhabited α] in
theorem insertedAll_perm (vs : List α) : (insertedAll sortBlock xs vs).Perm (xs ++ vs) := by
  induction vs generalizing xs with
  | nil =>
    rw [append_nil]
    exact List.Perm.refl _
  | cons v vs ih =>
    apply ih.trans
    have hone : (bubbled sortBlock v xs.reverse []).Perm (v :: xs) := by
      apply bubbled_perm.trans
      rw [append_nil]
      exact List.Perm.cons v (reverse_perm _)
    apply (hone.append_right vs).trans
    exact perm_middle.symm

theorem sorted_ok (receiver : List α) (c : OrderedCollection α) :
    sorted sortBlock receiver c = .ok (insertedAll sortBlock [] receiver) c := by
  obtain ⟨front', back', hadd⟩ := @addEach_ok _ _ sortBlock [] (List.replicate 8 (default : α)) [] receiver
  rw [← new_window] at hadd
  unfold sorted
  refine (bind_ok (within_ok hadd)).trans ?_
  exact (bind_ok (within_ok elements_ok)).trans rfl

omit [Inhabited α] in
theorem putBack_ok {done todo left : List α} {i : Int} (hi : i = done.length + 1) (hlen : todo.length = left.length) :
    upFrom (fun i => do
        let v ← checked (slotAt (done ++ todo) i)
        let _ ← atPut i v) left.length i (window front (done ++ left) back) =
      .ok () (window front (done ++ todo) back) := by
  induction left generalizing done todo i with
  | nil =>
    rw [length_eq_zero_iff.mp hlen]
    rfl
  | cons x left ih =>
    obtain ⟨v, todo, rfl⟩ := exists_cons_of_length_eq_add_one (hlen.trans length_cons)
    have hput := @atPut_ok _ front back done left v x _ hi
    have hnext := @ih (done ++ [v]) todo (i + 1) (by rw [length_append, length_singleton]; omega)
      (by rw [length_cons, length_cons] at hlen; omega)
    rw [append_assoc done, singleton_append, append_assoc done, singleton_append] at hnext
    have hstep : (do
        let w ← checked (slotAt (done ++ v :: todo) i)
        let _ ← atPut i w : Act α Unit) (window front (done ++ x :: left) back) =
          .ok () (window front (done ++ v :: left) back) := by
      rw [slotAt_append hi]
      exact (bind_ok hput).trans rfl
    exact (bind_ok hstep).trans hnext

theorem sort_ok : sort sortBlock (window front xs back) = .ok () (window front (insertedAll sortBlock [] xs) back) := by
  have hperm := @insertedAll_perm _ sortBlock [] xs
  have hsize : (window front xs back).size.toNat = xs.length := by
    rw [size_window]
    omega
  have hback := @putBack_ok _ front back [] (insertedAll sortBlock [] xs) xs 1 rfl hperm.length_eq
  unfold sort
  refine (bind_ok elements_ok).trans ?_
  refine (bind_ok (sorted_ok xs _)).trans ?_
  refine (bind_ok (s := window front xs back) rfl).trans ?_
  rw [hsize]
  exact hback

def Kept (l : Ledger α) (xs : List α) : Prop := Holds l.collection xs ∧ l.added = l.removed + (xs : Multiset α)

theorem Kept.step {l : Ledger α} (h : Kept l xs) (s : Step α) :
    Kept (l.step sortBlock eq s).1 (s.onList sortBlock eq xs).left := by
  obtain ⟨hc, hadded⟩ := h
  have hcontents := contents_eq hc
  obtain ⟨front, back, he⟩ := hc
  obtain ⟨front', back', hrun⟩ := @follows _ _ sortBlock eq front back xs s
  rw [← he] at hrun
  unfold Ledger.step
  rcases @balanced _ sortBlock eq xs s with ⟨e, hlist⟩ | ⟨a, ys, hlist, hbalance⟩
  · rw [hlist] at hrun ⊢
    rw [hrun]
    exact ⟨⟨front', back', rfl⟩, hadded⟩
  · rw [hlist] at hrun ⊢
    rw [hrun, hcontents]
    refine ⟨⟨front', back', rfl⟩, ?_⟩
    show l.added + s.adds = l.removed + s.removes xs a + (ys : Multiset α)
    rw [hadded, add_assoc, ← hbalance, add_assoc, add_comm (ys : Multiset α)]

theorem Kept.sends {l : Ledger α} (h : Kept l xs) (ss : List (Step α)) : ∃ ys, Kept (l.sends sortBlock eq ss) ys ∧
      (TotalPreorder sortBlock → Sorted sortBlock xs → StepsInOrder sortBlock eq l ss → Sorted sortBlock ys) := by
  induction ss generalizing l xs with
  | nil => exact ⟨xs, h, fun _ hs _ => hs⟩
  | cons s ss ih =>
    have hstep := @Kept.step _ _ sortBlock eq _ _ h s
    have hsorted : TotalPreorder sortBlock → Sorted sortBlock xs → StepsInOrder sortBlock eq l (s :: ss) →
        Sorted sortBlock (s.onList sortBlock eq xs).left := by
      intro hle hs hin
      have hhead := hin.1
      rw [contents_eq h.1] at hhead
      exact (sorted_step hle hs s).mpr hhead
    unfold Ledger.sends
    split
    next l' hok =>
      rw [hok] at hstep
      obtain ⟨ys, hkept, hys⟩ := ih hstep
      refine ⟨ys, hkept, fun hle hs hin => hys hle (hsorted hle hs hin) ?_⟩
      have hrest := hin.2 (by rw [hok])
      rw [hok] at hrest
      exact hrest
    next l' hraised =>
      rw [hraised] at hstep
      exact ⟨_, hstep, hsorted⟩

theorem foldl_kept {l : Ledger α} (h : Kept l xs) (messages : List (Message α)) :
    ∃ ys, Kept (messages.foldl (fun l m => l.sends sortBlock eq m.steps) l) ys ∧
      (TotalPreorder sortBlock → Sorted sortBlock xs → InOrderRun sortBlock eq l messages → Sorted sortBlock ys) := by
  induction messages generalizing l xs with
  | nil => exact ⟨xs, h, fun _ hs _ => hs⟩
  | cons m ms ih =>
    obtain ⟨ys, hkept, hys⟩ := @Kept.sends _ _ sortBlock eq _ _ h m.steps
    obtain ⟨zs, hkept', hzs⟩ := ih hkept
    exact ⟨zs, hkept', fun hle hs hin => hzs hle (hys hle hs hin.1) hin.2⟩

/-- After any messages the collection holds what was added and not removed. The elements stand in
their order after messages that put none out of it; a step from sorted elements leaves them sorted
exactly when it puts none out of order; and sorting answers a sorted permutation. -/
theorem stays_sorted {sortBlock : α → α → Bool} (hle : TotalPreorder sortBlock) (eq : α → α → Bool)
    (messages : List (Message α)) : ∃ xs, Holds (Ledger.after sortBlock eq messages).collection xs ∧
      (Ledger.after sortBlock eq messages).added = (Ledger.after sortBlock eq messages).removed + (xs : Multiset α) ∧
      (InOrderRun sortBlock eq .start messages → Sorted sortBlock xs) ∧
      (Sorted sortBlock xs → ∀ s : Step α,
        Sorted sortBlock (contents ((Ledger.after sortBlock eq messages).step sortBlock eq s).1.collection) ↔
          s.InOrder sortBlock xs) ∧
      (∀ receiver : List α, ∃ ys, (∀ c, sorted sortBlock receiver c = .ok ys c) ∧ Sorted sortBlock ys ∧ ys.Perm receiver) ∧
      ∃ c ys, sort sortBlock (Ledger.after sortBlock eq messages).collection = .ok () c ∧ Holds c ys ∧
        Sorted sortBlock ys ∧ ys.Perm xs := by
  have hstart : Kept (Ledger.start : Ledger α) [] := ⟨⟨[], List.replicate 8 default, rfl⟩, rfl⟩
  obtain ⟨xs, hkept, hsorted⟩ := @foldl_kept _ _ sortBlock eq _ _ hstart messages
  have hnil : Sorted sortBlock ([] : List α) := List.Pairwise.nil
  have hnew : ∀ receiver : List α, Sorted sortBlock (insertedAll sortBlock [] receiver) ∧
      (insertedAll sortBlock [] receiver).Perm receiver :=
    fun receiver => ⟨insertedAll_sorted hle hnil receiver, insertedAll_perm receiver⟩
  refine ⟨xs, hkept.1, hkept.2, hsorted hle hnil, fun hs s => ?_, fun receiver => ?_, ?_⟩
  · have hstep := @Kept.step _ _ sortBlock eq _ _ hkept s
    have hcontents : contents ((Ledger.after sortBlock eq messages).step sortBlock eq s).1.collection =
        (s.onList sortBlock eq xs).left := contents_eq hstep.1
    rw [hcontents]
    exact sorted_step hle hs s
  · exact ⟨_, sorted_ok receiver, (hnew receiver).1, (hnew receiver).2⟩
  · obtain ⟨front, back, he⟩ := hkept.1
    have hc : (Ledger.after sortBlock eq messages).collection = window front xs back := he
    rw [hc, sort_ok]
    exact ⟨_, _, rfl, ⟨front, back, rfl⟩, (hnew xs).1, (hnew xs).2⟩

theorem stays_sorted_four : ∃ xs, Holds (Ledger.after (· ≤ ·) (· == ·)
      [.addAll [3, 1, 2], .one (.addLast (4 : Nat))]).collection xs ∧ Sorted (· ≤ ·) xs ∧ xs = [1, 2, 3, 4] := by
  have hle : TotalPreorder fun a b : Nat => decide (a ≤ b) :=
    ⟨fun a b => by simpa using Nat.le_total a b, fun a b c => by simpa using Nat.le_trans⟩
  obtain ⟨xs, hholds, -, hsorted, -⟩ := stays_sorted hle (· == ·) [.addAll [3, 1, 2], .one (.addLast (4 : Nat))]
  have hin : InOrderRun (fun a b : Nat => decide (a ≤ b)) (· == ·) .start
      [.addAll [3, 1, 2], .one (.addLast (4 : Nat))] := by
    refine ⟨⟨trivial, fun _ => ⟨trivial, fun _ => ⟨trivial, fun _ => trivial⟩⟩⟩, ⟨fun x hx => ?_, fun _ => trivial⟩, trivial⟩
    have hlast : some 3 = some x := hx
    cases hlast
    rfl
  have hcontents : contents (Ledger.after (fun a b : Nat => decide (a ≤ b)) (· == ·)
      [.addAll [3, 1, 2], .one (.addLast (4 : Nat))]).collection = [1, 2, 3, 4] := rfl
  exact ⟨xs, hholds, hsorted hin, (contents_eq hholds).symm.trans hcontents⟩

/-- An element added at the end by the inherited message stands out of order. -/
theorem addLast_unsorted : ¬ ∀ messages : List (Message Nat),
    Sorted (· ≤ ·) (contents (Ledger.after (· ≤ ·) (· == ·) messages).collection) := by
  intro h
  have hsorted := h [.one (.addLast 2), .one (.addLast 1)]
  have hcontents : contents (Ledger.after (fun a b : Nat => decide (a ≤ b)) (· == ·)
      [.one (.addLast 2), .one (.addLast (1 : Nat))]).collection = [2, 1] := rfl
  rw [hcontents] at hsorted
  have := (pairwise_cons.mp hsorted).1 1 (mem_singleton_self 1)
  revert this
  decide

end WinArmVm.SortedCollection
