import WinArmVm.Supervisor
import WinArmVm.StateRun

namespace WinArmVm.Supervision

open Triple List

structure Consistent (T : Tree) (s : State) : Prop where
  routed : ∀ p c w, c ∈ (T.supervisor p).children → s.worker c = some w →
    s.names (T.spec c).name = some w ∧ s.owners w.id = some (p, c)
  known : ∀ id p c, s.owners id = some (p, c) → c ∈ (T.supervisor p).children ∧ ∃ w, s.worker c = some w ∧ w.id = id
  held : ∀ w ∈ s.spawned, ∃ c, s.worker c = some w
  bound : ∀ p c w, c ∈ (T.supervisor p).children → (T.spec c).supervisorChild = none →
    s.names (T.spec c).name = some w → s.worker c = some w
  leaf : ∀ c w, s.worker c = some w → (T.spec c).supervisorChild = none ∧ ∃ p, c ∈ (T.supervisor p).children

structure Sound (T : Tree) (s : State) : Prop extends Consistent T s where
  clean : ∀ a ∈ s.answers, a.id.isSome ∧ a.hookRaises = false
  freed : s.answers ≠ [] → ∀ id, s.alive id = false → s.owners id = none

def Tree.NamesDistinct (T : Tree) : Prop :=
  ∀ p q c d, c ∈ (T.supervisor p).children → d ∈ (T.supervisor q).children → (T.spec c).supervisorChild = none →
    (T.spec d).supervisorChild = none → (T.spec c).name = (T.spec d).name → c = d

/-- Computations that may run out of fuel, but not into an error. -/
abbrev Fine {α : Type} (P : α → State → Prop) (r : EStateM.Result Halt State α) : Prop := Ends (· = .stuck) P r

variable {T : Tree} {s t : State} {p c : Nat}

theorem Sound.of_same (h : Sound T s) (hw : t.worker = s.worker) (hn : t.names = s.names) (ho : t.owners = s.owners)
    (hs : t.spawned = s.spawned) (ha : t.answers = s.answers) (hl : t.alive = s.alive) : Sound T t := by
  refine ⟨⟨?_, ?_, ?_, ?_, ?_⟩, ?_, ?_⟩
  · rw [hw, hn, ho]; exact h.routed
  · rw [hw, ho]; exact h.known
  · rw [hw, hs]; exact h.held
  · rw [hw, hn]; exact h.bound
  · rw [hw]; exact h.leaf
  · rw [ha]; exact h.clean
  · rw [ha, hl, ho]; exact h.freed

def State.retire (T : Tree) (s : State) (c : Nat) (w : Worker) : State :=
  { s with
    owners := fun n => if n = w.id then none else s.owners n
    names := fun n => if n = (T.spec c).name then none else s.names n
    alive := fun n => if n = w.id then false else s.alive n
    spawned := s.spawned.filter fun x => x.id ≠ w.id
    worker := fun n => if n = c then none else s.worker n }

theorem Consistent.retire (h : Consistent T s) (hnames : T.NamesDistinct) {w : Worker} (hc : c ∈ (T.supervisor p).children)
    (hw : s.worker c = some w) : Consistent T (s.retire T c w) := by
  obtain ⟨hname, howner⟩ := h.routed p c w hc hw
  have hleaf := (h.leaf c w hw).1
  have hid : ∀ q d x, d ∈ (T.supervisor q).children → s.worker d = some x → d ≠ c → x.id ≠ w.id := by
    intro q d x hd hx hne heq
    have howner' := (h.routed q d x hd hx).2
    rw [heq, howner] at howner'
    cases howner'
    exact hne rfl
  refine ⟨?_, ?_, ?_, ?_, ?_⟩
  · intro q d x hd hx
    simp only [State.retire] at hx ⊢
    split at hx
    next => cases hx
    next hne =>
      have hleafd := (h.leaf d x hx).1
      have hnamed : (T.spec d).name ≠ (T.spec c).name := fun heq => hne (hnames q p d c hd hc hleafd hleaf heq)
      rw [if_neg hnamed, if_neg (hid q d x hd hx hne)]
      exact h.routed q d x hd hx
  · intro id q d hd
    simp only [State.retire] at hd ⊢
    obtain ⟨hne, hd⟩ := Option.ite_none_left_eq_some.mp hd
    obtain ⟨hmem, x, hx, hxid⟩ := h.known id q d hd
    have hdc : d ≠ c := by
      rintro rfl
      rw [hw] at hx
      cases hx
      exact hne hxid.symm
    exact ⟨hmem, x, by rw [if_neg hdc]; exact hx, hxid⟩
  · intro x hx
    obtain ⟨hx, hne⟩ := mem_filter.mp hx
    have hne : x.id ≠ w.id := by simpa using hne
    obtain ⟨d, hd⟩ := h.held x hx
    refine ⟨d, ?_⟩
    simp only [State.retire]
    rw [if_neg]
    · exact hd
    · rintro rfl
      rw [hw] at hd
      cases hd
      exact hne rfl
  · intro q d x hd hdleaf hx
    simp only [State.retire] at hx ⊢
    split at hx
    next => cases hx
    next hne =>
      have hdc : d ≠ c := fun heq => hne (by rw [heq])
      rw [if_neg hdc]
      exact h.bound q d x hd hdleaf hx
  · intro d x hx
    simp only [State.retire] at hx
    split at hx
    next => cases hx
    next => exact h.leaf d x hx

theorem Sound.retire (h : Sound T s) (hnames : T.NamesDistinct) {w : Worker} (hc : c ∈ (T.supervisor p).children)
    (hw : s.worker c = some w) : Sound T (s.retire T c w) := by
  refine ⟨h.toConsistent.retire hnames hc hw, h.clean, ?_⟩
  intro ha id hid
  simp only [State.retire] at hid ⊢
  split
  next => rfl
  next hne =>
    rw [if_neg hne] at hid
    exact h.freed ha id hid

/-- A fresh worker of a child that had none. -/
def State.adopt (T : Tree) (s : State) (p c id : Nat) (answers : List Answer) : State :=
  { s with
    worker := fun n => if n = c then some ⟨s.serial, id⟩ else s.worker n
    startedAt := fun n => if n = c then some (s.clock 0) else s.startedAt n
    names := fun n => if n = (T.spec c).name then some ⟨s.serial, id⟩ else s.names n
    owners := fun n => if n = id then some (p, c) else s.owners n
    alive := fun n => if n = id then true else s.alive n
    clock := fun n => s.clock (n + 1)
    answers := answers
    serial := s.serial + 1
    spawned := ⟨s.serial, id⟩ :: s.spawned }

variable {answers : List Answer}

theorem Sound.adopt (h : Sound T s) (hnames : T.NamesDistinct) (hc : c ∈ (T.supervisor p).children)
    (hleaf : (T.spec c).supervisorChild = none) (hnone : s.worker c = none) {id : Nat} {b : Bool}
    (ha : s.answers = ⟨some id, b⟩ :: answers) (hfree : s.alive id = false) : Sound T (s.adopt T p c id answers) := by
  have hunowned : s.owners id = none := h.freed (by rw [ha]; simp) id hfree
  have hothers : ∀ q d x, d ∈ (T.supervisor q).children → s.worker d = some x → x.id ≠ id := by
    intro q d x hd hx heq
    have howner := (h.routed q d x hd hx).2
    rw [heq, hunowned] at howner
    cases howner
  refine ⟨⟨?_, ?_, ?_, ?_, ?_⟩, ?_, ?_⟩
  · intro q d x hd hx
    simp only [State.adopt] at hx ⊢
    split at hx
    next heq =>
      cases hx
      subst heq
      cases T.owner p q d hc hd
      simp
    next hne =>
      have hleafd := (h.leaf d x hx).1
      have hnamed : (T.spec d).name ≠ (T.spec c).name := fun heq => hne (hnames q p d c hd hc hleafd hleaf heq)
      rw [if_neg hnamed, if_neg (hothers q d x hd hx)]
      exact h.routed q d x hd hx
  · intro i q d hd
    simp only [State.adopt] at hd ⊢
    split at hd
    next heq =>
      cases hd
      exact ⟨hc, ⟨s.serial, id⟩, by simp, heq.symm⟩
    next hne =>
      obtain ⟨hmem, x, hx, hxid⟩ := h.known i q d hd
      have hdc : d ≠ c := by
        rintro rfl
        rw [hnone] at hx
        cases hx
      exact ⟨hmem, x, by rw [if_neg hdc]; exact hx, hxid⟩
  · intro x hx
    simp only [State.adopt] at hx ⊢
    rcases mem_cons.mp hx with rfl | hx
    · exact ⟨c, by simp⟩
    · obtain ⟨d, hd⟩ := h.held x hx
      have hdc : d ≠ c := by
        rintro rfl
        rw [hnone] at hd
        cases hd
      exact ⟨d, by rw [if_neg hdc]; exact hd⟩
  · intro q d x hd hdleaf hx
    simp only [State.adopt] at hx ⊢
    split at hx
    next heq =>
      have hdc := hnames q p d c hd hc hdleaf hleaf heq
      rw [if_pos hdc]
      exact hx
    next hne =>
      have hdc : d ≠ c := fun heq => hne (by rw [heq])
      rw [if_neg hdc]
      exact h.bound q d x hd hdleaf hx
  · intro d x hx
    simp only [State.adopt] at hx
    split at hx
    next heq => exact ⟨heq ▸ hleaf, p, heq ▸ hc⟩
    next => exact h.leaf d x hx
  · intro a hin
    exact h.clean a (ha ▸ mem_cons_of_mem _ hin)
  · intro hne i hi
    simp only [State.adopt] at hi ⊢
    split at hi
    next => cases hi
    next hid =>
      rw [if_neg hid]
      exact h.freed (by rw [ha]; simp) i hi

theorem spawnWorker_ok {id : Nat} {b : Bool} (ha : s.answers = ⟨some id, b⟩ :: answers)
    (hfree : s.alive id = false) : spawnWorker s = .ok ⟨s.serial, id⟩
      { s.setAlive id true with serial := s.serial + 1, spawned := ⟨s.serial, id⟩ :: s.spawned } := by
  unfold spawnWorker
  rw [get_bind, ha]
  show (if s.alive id = true then _ else _ : Guest Worker) s = _
  rw [if_neg (by simp [hfree])]
  rfl

theorem bind_free {name : Nat} {w : Worker} (h : s.names name = none) :
    WorkerNames.bind name w s = .ok () (s.setName name (some w)) := by
  unfold WorkerNames.bind
  rw [get_bind, h]
  rfl

theorem runHook_ok {hook : Bool} {a : Answer} (ha : s.answers = a :: answers)
    (hok : a.hookRaises = false) : runHook hook s = .ok () { s with answers := answers } := by
  unfold runHook
  rw [get_bind, ha]
  show (if hook = true ∧ a.hookRaises = true then _ else _ : Guest Unit) _ = _
  rw [if_neg (by simp [hok])]
  rfl

namespace WorkerSupervisor

variable {start stop : Nat → Guest Unit}

section

variable (hleaf : (T.spec c).supervisorChild = none)

include hleaf

theorem startChild_worker {id : Nat} {answers : List Answer}
    (ha : s.answers = ⟨some id, false⟩ :: answers) (hfree : s.alive id = false)
    (hname : s.names (T.spec c).name = none) : startChild T start p c s = .ok () (s.adopt T p c id answers) := by
  unfold startChild
  rw [hleaf]
  show (spawnWorker >>= _ : Guest Unit) s = _
  rw [bind_ok (spawnWorker_ok ha hfree)]
  refine (bind_ok (bind_free ?_)).trans ?_
  · exact hname
  · exact runHook_ok ha rfl

theorem stopChild_none (hw : s.worker c = none) : stopChild T stop c s = .ok () s := by
  unfold stopChild
  rw [hleaf]
  dsimp only
  rw [get_bind, hw]
  rfl

theorem stopChild_some {w : Worker} (hw : s.worker c = some w) : stopChild T stop c s = .ok () (s.retire T c w) := by
  unfold stopChild
  rw [hleaf]
  dsimp only
  rw [get_bind, hw]
  rfl

end

end WorkerSupervisor

end WinArmVm.Supervision
