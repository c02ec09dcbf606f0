import WinArmVm.ImageStore
import Mathlib.Order.Defs.LinearOrder

namespace WinArmVm.ImageStore

open List Option

open VersionTable (Row Ordered rowsOf nextId edit descending Doomed)

structure Edited (α : Type) where
  editedAt : Int
  version : α

structure EditHistory where
  methodVersions : List (Row (Edited MethodVersion))
  classVersions : List (Row (Edited ClassVersion))
  editBaseline : Option Int

/-- A method or a class, by its key. -/
inductive Item
  | Method (methodId : Nat)
  | Class (classId : Nat)
deriving DecidableEq

structure UndoTarget where
  item : Item
  editedAt : Int
deriving DecidableEq

inductive EditOp
  | saveMethod (methodId : Nat) (v : MethodVersion)
  | saveClass (classId : Nat) (v : ClassVersion)
  | undoMethod (methodId : Nat)
  | undoClass (classId : Nat)
  | pruneHistory (keep : Int)

section

variable {α : Type}

def previousVersion (t : List (Row (Edited α))) (o : Nat) : Option α :=
  (descending t o)[1]?.map fun r => r.content.version

def Undoable (t : List (Row (Edited α))) (baseline : Int) (r : Row (Edited α)) : Prop :=
  baseline < r.content.editedAt ∧ 2 ≤ (rowsOf t r.owner).length

instance (t : List (Row (Edited α))) (baseline : Int) (r : Row (Edited α)) : Decidable (Undoable t baseline r) :=
  inferInstanceAs (Decidable (_ ∧ _))

def newestUndoable (t : List (Row (Edited α))) (baseline : Int) : Option (Row (Edited α)) :=
  ((t.filter fun r => Undoable t baseline r).insertionSort fun r v =>
    v.content.editedAt < r.content.editedAt ∨ v.content.editedAt = r.content.editedAt ∧ v.id ≤ r.id).head?

def pruneTable (keep : Int) (t : List (Row (Edited α))) : List (Row (Edited α)) :=
  t.filter fun r => ¬ Doomed t (max keep 1).toNat r

end

namespace EditHistory

def empty : EditHistory := ⟨[], [], none⟩

def insertMethodVersion (methodId : Nat) (v : MethodVersion) (now : Int) (h : EditHistory) : EditHistory :=
  { h with methodVersions := edit h.methodVersions methodId RETENTION_LIMIT ⟨now, v⟩ }

def insertClassVersion (classId : Nat) (v : ClassVersion) (now : Int) (h : EditHistory) : EditHistory :=
  { h with classVersions := edit h.classVersions classId RETENTION_LIMIT ⟨now, v⟩ }

def stampEditBaseline (now : Int) (h : EditHistory) : EditHistory := { h with editBaseline := some now }

/-- The stored baseline; where there is none, the newest second on record is stored. -/
def takeEditBaseline (h : EditHistory) : Int × EditHistory :=
  match h.editBaseline with
  | some baseline => (baseline, h)
  | none =>
    let newest := ((h.methodVersions.map (·.content.editedAt)) ++ (h.classVersions.map (·.content.editedAt))).max?.getD 0
    (newest, { h with editBaseline := some newest })

def mostRecentUndoable (h : EditHistory) : Option UndoTarget × EditHistory :=
  let (baseline, h) := h.takeEditBaseline
  let target := match newestUndoable h.methodVersions baseline, newestUndoable h.classVersions baseline with
    | none, none => none
    | some m, none => some ⟨.Method m.owner, m.content.editedAt⟩
    | none, some c => some ⟨.Class c.owner, c.content.editedAt⟩
    | some m, some c =>
      if c.content.editedAt < m.content.editedAt ∨ c.content.editedAt = m.content.editedAt ∧ c.id ≤ m.id then
        some ⟨.Method m.owner, m.content.editedAt⟩
      else some ⟨.Class c.owner, c.content.editedAt⟩
  (target, h)

def perform (h : EditHistory) (now : Int) : EditOp → EditHistory × Option UndoTarget
  | .saveMethod methodId v => (h.insertMethodVersion methodId v now, some ⟨.Method methodId, now⟩)
  | .saveClass classId v => (h.insertClassVersion classId v now, some ⟨.Class classId, now⟩)
  | .undoMethod methodId =>
    match previousVersion h.methodVersions methodId with
    | none => (h, none)
    | some v => (h.insertMethodVersion methodId v now, some ⟨.Method methodId, now⟩)
  | .undoClass classId =>
    match previousVersion h.classVersions classId with
    | none => (h, none)
    | some v => (h.insertClassVersion classId v now, some ⟨.Class classId, now⟩)
  | .pruneHistory keep =>
    ({ h with methodVersions := pruneTable keep h.methodVersions, classVersions := pruneTable keep h.classVersions }, none)

def versions (h : EditHistory) : Item → Nat
  | .Method methodId => (rowsOf h.methodVersions methodId).length
  | .Class classId => (rowsOf h.classVersions classId).length

end EditHistory

structure EditSession where
  history : EditHistory
  written : List UndoTarget

namespace EditSession

def step (s : EditSession) (op : Int × EditOp) : EditSession :=
  let (history, target) := s.history.perform op.1 op.2
  ⟨history, s.written ++ target.toList⟩

def run (s : EditSession) (ops : List (Int × EditOp)) : EditSession := ops.foldl step s

def undoable (s : EditSession) (baseline : Int) : List UndoTarget :=
  s.written.filter fun w => baseline < w.editedAt ∧ 2 ≤ s.history.versions w.item

end EditSession

def UndoTarget.asMethod (w : UndoTarget) : Option (Nat × Int) :=
  match w.item with
  | .Method methodId => some (methodId, w.editedAt)
  | .Class _ => none

def UndoTarget.asClass (w : UndoTarget) : Option (Nat × Int) :=
  match w.item with
  | .Method _ => none
  | .Class classId => some (classId, w.editedAt)

section

variable {α : Type} {t log : List (Row (Edited α))} {b now : Int}

structure Logged (t log : List (Row (Edited α))) (b now : Int) : Prop where
  ordered : Ordered t
  rising : log.Pairwise fun r v => r.id < v.id ∧ r.content.editedAt ≤ v.content.editedAt
  past : ∀ r ∈ log, r.content.editedAt ≤ now
  known : ∀ r ∈ t, r ∈ log ∨ r.content.editedAt ≤ b
  kept : ∀ o r, (rowsOf log o).getLast? = some r → (rowsOf t o).getLast? = some r

theorem Logged.start (h : Ordered t) (hb : ∀ r ∈ t, r.content.editedAt ≤ b) : Logged t [] b now :=
  ⟨h, List.Pairwise.nil, fun _ hr => (nomatch hr), fun r hr => .inr (hb r hr), fun _ _ hr => (nomatch hr)⟩

section

variable (h : Logged t log b now)

include h

theorem Logged.later {now' : Int} (hle : now ≤ now') : Logged t log b now' :=
  ⟨h.ordered, h.rising, fun r hr => le_trans (h.past r hr) hle, h.known, h.kept⟩

theorem Logged.lt_nextId : ∀ r ∈ log, r.id < nextId t := by
  intro r hr
  obtain hnil | ⟨l, v, hl⟩ := eq_nil_or_concat log
  · rw [hnil] at hr
    cases hr
  · rw [concat_eq_append] at hl
    -- the last row written is the last of its owner
    have hlast : (rowsOf log v.owner).getLast? = some v := by
      rw [hl]
      simp [rowsOf, filter_append]
    have hv : v ∈ t := (mem_filter.mp (mem_of_getLast? (h.kept v.owner v hlast))).1
    have hvid := VersionTable.lt_nextId hv
    have hrising := h.rising
    rw [hl, pairwise_append] at hrising
    rw [hl] at hr
    obtain hr | hr := mem_append.mp hr
    · have hlt := (hrising.2.2 r hr v (mem_singleton_self v)).1
      omega
    · rw [mem_singleton.mp hr]
      exact hvid

theorem Logged.insert (o : Nat) (v : α) :
    Logged (edit t o RETENTION_LIMIT ⟨now, v⟩) (log ++ [⟨nextId t, o, VersionTable.maxNumber t o + 1, ⟨now, v⟩⟩]) b now := by
  refine ⟨h.ordered.edit o _ _, ?_, ?_, ?_, ?_⟩
  · rw [pairwise_append]
    refine ⟨h.rising, pairwise_singleton _ _, ?_⟩
    intro r hr w hw
    rw [mem_singleton.mp hw]
    exact ⟨h.lt_nextId r hr, h.past r hr⟩
  · intro r hr
    obtain hr | hr := mem_append.mp hr
    · exact h.past r hr
    · rw [mem_singleton.mp hr]
  · intro r hr
    obtain rfl | ⟨hr, -⟩ := (VersionTable.mem_edit (by decide)).mp hr
    · exact .inl (mem_append_right _ (mem_singleton_self _))
    · obtain hr | hr := h.known r hr
      · exact .inl (mem_append_left _ hr)
      · exact .inr hr
  · intro o' r hr
    have hedit : rowsOf (edit t o RETENTION_LIMIT ⟨now, v⟩) o' = if o' = o then
        VersionTable.newest RETENTION_LIMIT (rowsOf t o ++ [⟨nextId t, o, VersionTable.maxNumber t o + 1, ⟨now, v⟩⟩])
        else rowsOf t o' := by
      unfold edit
      rw [VersionTable.rowsOf_prune (h.ordered.insert o _), VersionTable.rowsOf_insert, VersionTable.rowsOf_insert, if_pos rfl]
      split
      next => rfl
      next => rfl
    rw [hedit]
    by_cases ho : o' = o
    · subst ho
      rw [if_pos rfl]
      simp only [rowsOf, filter_append, filter_singleton, decide_true, cond_true, getLast?_append,
        getLast?_singleton] at hr
      cases hr
      unfold VersionTable.newest
      rw [getLast?_drop, if_neg (by simp only [RETENTION_LIMIT, length_append, length_singleton]; omega), getLast?_append]
      rfl
    · rw [if_neg ho]
      apply h.kept o' r
      have hne : ¬ o = o' := fun he => ho he.symm
      simpa [rowsOf, filter_append, hne] using hr

theorem Logged.prune (keep : Int) : Logged (pruneTable keep t) log b now := by
  refine ⟨h.ordered.pruneAll _, h.rising, h.past, fun r hr => h.known r (mem_filter.mp hr).1, ?_⟩
  intro o r hr
  have hlast := h.kept o r hr
  have hpos : (rowsOf t o).length ≠ 0 := by
    intro hz
    rw [eq_nil_of_length_eq_zero hz] at hlast
    cases hlast
  unfold pruneTable
  rw [VersionTable.rowsOf_pruneAll h.ordered]
  unfold VersionTable.newest
  rw [getLast?_drop, if_neg (by omega)]
  exact hlast

theorem Logged.clock {r v : Row (Edited α)} (hr : r ∈ log) (hv : v ∈ log) (hid : r.id < v.id) :
    r.content.editedAt ≤ v.content.editedAt := by
  obtain ⟨before, after, hsplit⟩ := append_of_mem hr
  have hrising := h.rising
  rw [hsplit, pairwise_append, pairwise_cons] at hrising
  rw [hsplit] at hv
  obtain hv | hv := mem_append.mp hv
  · have hlt := (hrising.2.2 v hv r mem_cons_self).1
    omega
  · obtain rfl | hv := mem_cons.mp hv
    · omega
    · exact (hrising.2.1.1 v hv).2

theorem Logged.undoable_mem {r : Row (Edited α)} (hr : r ∈ t) (hb : b < r.content.editedAt) : r ∈ log := by
  obtain hr | hr := h.known r hr
  · exact hr
  · omega

theorem newestUndoable_eq : newestUndoable t b = (t.filter fun r => Undoable t b r).getLast? := by
  unfold newestUndoable
  rw [VersionTable.insertionSort_reversed, head?_reverse]
  refine (h.ordered.ids.filter _).imp_of_mem ?_
  intro r v hr hv hid
  obtain ⟨hr, hrb⟩ := mem_filter.mp hr
  obtain ⟨hv, hvb⟩ := mem_filter.mp hv
  have hle := h.clock (h.undoable_mem hr (of_decide_eq_true hrb).1) (h.undoable_mem hv (of_decide_eq_true hvb).1) hid
  omega

end

theorem Logged.newestUndoable (h : Logged t log b now) :
    newestUndoable t b = (log.filter fun r => Undoable t b r).getLast? := by
  rw [newestUndoable_eq h]
  obtain hnil | ⟨l, r, hl⟩ := eq_nil_or_concat (log.filter fun r => Undoable t b r)
  · have hnone : (t.filter fun r => Undoable t b r) = [] := by
      rw [filter_eq_nil_iff] at hnil ⊢
      intro v hv hundo
      exact hnil v (h.undoable_mem hv (of_decide_eq_true hundo).1) hundo
    rw [hnil, hnone]
  · rw [concat_eq_append] at hl
    have hrising := h.rising.filter fun r => decide (Undoable t b r)
    rw [hl, pairwise_append] at hrising
    have hr : r ∈ log.filter fun r => Undoable t b r := by
      rw [hl]
      exact mem_append_right _ (mem_singleton_self _)
    obtain ⟨hrlog, hundo⟩ := mem_filter.mp hr
    -- a later row of its owner would be undoable as well
    have howner : (rowsOf log r.owner).getLast? = some r := by
      have hsub : rowsOf (log.filter fun v => Undoable t b v) r.owner = rowsOf l r.owner ++ [r] := by
        rw [hl]
        simp [rowsOf, filter_append]
      obtain ⟨before, after, hsplit⟩ := append_of_mem hrlog
      have hafter : ∀ v ∈ after, v.owner ≠ r.owner := by
        intro v hv ho
        have hrv := h.rising
        rw [hsplit, pairwise_append, pairwise_cons] at hrv
        have hlt := hrv.2.1.1 v hv
        have hvlog : v ∈ log := by
          rw [hsplit]
          exact mem_append_right _ (mem_cons_of_mem _ hv)
        have hvundo : Undoable t b v := by
          have hru := of_decide_eq_true hundo
          refine ⟨by have := hru.1; omega, ?_⟩
          rw [ho]
          exact hru.2
        have hvmem : v ∈ log.filter fun r => Undoable t b r := mem_filter.mpr ⟨hvlog, decide_eq_true hvundo⟩
        rw [hl] at hvmem
        obtain hvmem | hvmem := mem_append.mp hvmem
        · have := (hrising.2.2 v hvmem r (mem_singleton_self _)).1
          omega
        · rw [mem_singleton.mp hvmem] at hlt
          omega
      have hnone : after.filter (fun v => v.owner = r.owner) = [] := by
        rw [filter_eq_nil_iff]
        intro v hv
        simpa using hafter v hv
      rw [hsplit]
      unfold rowsOf
      rw [filter_append, filter_cons_of_pos (by simp), hnone]
      simp
    have hrt : r ∈ t := (mem_filter.mp (mem_of_getLast? (h.kept r.owner r howner))).1
    have hmem : r ∈ t.filter fun r => Undoable t b r := mem_filter.mpr ⟨hrt, hundo⟩
    obtain hnil' | ⟨l', r', hl'⟩ := eq_nil_or_concat (t.filter fun r => Undoable t b r)
    · rw [hnil'] at hmem
      cases hmem
    · rw [concat_eq_append] at hl'
      have hr' : r' ∈ t.filter fun r => Undoable t b r := by
        rw [hl']
        exact mem_append_right _ (mem_singleton_self _)
      obtain ⟨hr't, hundo'⟩ := mem_filter.mp hr'
      have hlast : r.id ≤ r'.id := by
        have hids := h.ordered.ids.filter fun r => decide (Undoable t b r)
        rw [hl', pairwise_append] at hids
        rw [hl'] at hmem
        obtain hmem | hmem := mem_append.mp hmem
        · exact le_of_lt (hids.2.2 r hmem r' (mem_singleton_self _))
        · rw [mem_singleton.mp hmem]
      have hlast' : r'.id ≤ r.id := by
        have hmem' : r' ∈ log.filter fun r => Undoable t b r :=
          mem_filter.mpr ⟨h.undoable_mem hr't (of_decide_eq_true hundo').1, hundo'⟩
        rw [hl] at hmem'
        obtain hmem' | hmem' := mem_append.mp hmem'
        · exact le_of_lt (hrising.2.2 r' hmem' r (mem_singleton_self _)).1
        · rw [mem_singleton.mp hmem']
      have heq : r' = r := h.ordered.id_inj hr't hrt (by omega)
      rw [hl, hl', heq]
      simp

end

structure EditSession.Sound (s : EditSession) (b now : Int) : Prop where
  methods : ∃ log, Logged s.history.methodVersions log b now ∧
    s.written.filterMap UndoTarget.asMethod = log.map fun r => (r.owner, r.content.editedAt)
  classes : ∃ log, Logged s.history.classVersions log b now ∧
    s.written.filterMap UndoTarget.asClass = log.map fun r => (r.owner, r.content.editedAt)
  clock : s.written.Pairwise fun w w' => w.editedAt ≤ w'.editedAt
  past : ∀ w ∈ s.written, w.editedAt ≤ now

namespace EditSession

variable {s : EditSession} {b now : Int}

theorem Sound.later (h : s.Sound b now) {now' : Int} (hle : now ≤ now') : s.Sound b now' := by
  obtain ⟨ml, hm, hmw⟩ := h.methods
  obtain ⟨cl, hc, hcw⟩ := h.classes
  exact ⟨⟨ml, hm.later hle, hmw⟩, ⟨cl, hc.later hle, hcw⟩, h.clock, fun w hw => le_trans (h.past w hw) hle⟩

theorem Sound.written_now (h : s.Sound b now) (i : Item) :
    (s.written ++ [(⟨i, now⟩ : UndoTarget)]).Pairwise (fun w w' => w.editedAt ≤ w'.editedAt) ∧
      ∀ w ∈ s.written ++ [(⟨i, now⟩ : UndoTarget)], w.editedAt ≤ now := by
  constructor
  · rw [pairwise_append]
    refine ⟨h.clock, pairwise_singleton _ _, ?_⟩
    intro w hw w' hw'
    rw [mem_singleton.mp hw']
    exact h.past w hw
  · intro w hw
    obtain hw | hw := mem_append.mp hw
    · exact h.past w hw
    · rw [mem_singleton.mp hw]

theorem Sound.insertMethodVersion (h : s.Sound b now) (o : Nat) (v : MethodVersion) :
    (⟨s.history.insertMethodVersion o v now, s.written ++ [⟨.Method o, now⟩]⟩ : EditSession).Sound b now := by
  obtain ⟨ml, hm, hmw⟩ := h.methods
  obtain ⟨cl, hc, hcw⟩ := h.classes
  obtain ⟨hclock, hpast⟩ := h.written_now (.Method o)
  refine ⟨⟨_, hm.insert o v, ?_⟩, ⟨cl, hc, ?_⟩, hclock, hpast⟩
  · rw [filterMap_append, hmw, map_append]
    rfl
  · rw [filterMap_append, hcw]
    exact append_nil _

theorem Sound.insertClassVersion (h : s.Sound b now) (o : Nat) (v : ClassVersion) :
    (⟨s.history.insertClassVersion o v now, s.written ++ [⟨.Class o, now⟩]⟩ : EditSession).Sound b now := by
  obtain ⟨ml, hm, hmw⟩ := h.methods
  obtain ⟨cl, hc, hcw⟩ := h.classes
  obtain ⟨hclock, hpast⟩ := h.written_now (.Class o)
  refine ⟨⟨ml, hm, ?_⟩, ⟨_, hc.insert o v, ?_⟩, hclock, hpast⟩
  · rw [filterMap_append, hmw]
    exact append_nil _
  · rw [filterMap_append, hcw, map_append]
    rfl

theorem Sound.step (h : s.Sound b now) (op : EditOp) : (s.step (now, op)).Sound b now := by
  unfold EditSession.step
  cases op with
  | saveMethod o v => exact h.insertMethodVersion o v
  | saveClass o v => exact h.insertClassVersion o v
  | undoMethod o =>
    simp only [EditHistory.perform]
    split
    next =>
      rw [toList_none, append_nil]
      exact h
    next v _ => exact h.insertMethodVersion o v
  | undoClass o =>
    simp only [EditHistory.perform]
    split
    next =>
      rw [toList_none, append_nil]
      exact h
    next v _ => exact h.insertClassVersion o v
  | pruneHistory keep =>
    simp only [EditHistory.perform]
    rw [toList_none, append_nil]
    obtain ⟨ml, hm, hmw⟩ := h.methods
    obtain ⟨cl, hc, hcw⟩ := h.classes
    exact ⟨⟨ml, hm.prune keep, hmw⟩, ⟨cl, hc.prune keep, hcw⟩, h.clock, h.past⟩

variable (ops : List (Int × EditOp))

theorem Sound.run (h : s.Sound b now) (hclock : (now :: ops.map Prod.fst).Pairwise (· ≤ ·)) :
    ∃ now', (s.run ops).Sound b now' ∧ ∀ later, (∀ time ∈ now :: ops.map Prod.fst, time ≤ later) → now' ≤ later := by
  induction ops generalizing s now with
  | nil => exact ⟨now, h, fun later hlater => hlater now mem_cons_self⟩
  | cons op ops ih =>
    obtain ⟨time, op⟩ := op
    rw [map_cons, pairwise_cons] at hclock
    have hle : now ≤ time := hclock.1 time mem_cons_self
    obtain ⟨now', hrun, hlater⟩ := ih ((h.later hle).step op) hclock.2
    refine ⟨now', hrun, fun later hall => hlater later ?_⟩
    intro t ht
    exact hall t (mem_cons_of_mem _ ht)

theorem perform_editBaseline (h : EditHistory) (now : Int) (op : EditOp) :
    (h.perform now op).1.editBaseline = h.editBaseline := by
  cases op with
  | saveMethod o v => rfl
  | saveClass o v => rfl
  | undoMethod o =>
    simp only [EditHistory.perform]
    split <;> rfl
  | undoClass o =>
    simp only [EditHistory.perform]
    split <;> rfl
  | pruneHistory keep => rfl

theorem run_editBaseline (s : EditSession) : (s.run ops).history.editBaseline = s.history.editBaseline := by
  induction ops generalizing s with
  | nil => rfl
  | cons op ops ih =>
    have hstep := ih (s.step op)
    exact hstep.trans (perform_editBaseline s.history op.1 op.2)

theorem filterMap_filter {β : Type} {f : UndoTarget → Option β} {p : UndoTarget → Bool} {q : β → Bool}
    (hpq : ∀ w k, f w = some k → p w = q k) (l : List UndoTarget) :
    (l.filter p).filterMap f = (l.filterMap f).filter q := by
  rw [List.filterMap_filter, filter_filterMap]
  apply filterMap_congr
  intro w _
  cases hf : f w with
  | none => simp
  | some k =>
    rw [hpq w k hf, filter_some]

theorem editedAt_of_asMethod {w : UndoTarget} {k : Nat × Int} (h : w.asMethod = some k) : w = ⟨.Method k.1, k.2⟩ := by
  obtain ⟨i, time⟩ := w
  cases i with
  | Method o =>
    cases h
    rfl
  | Class o => cases h

theorem editedAt_of_asClass {w : UndoTarget} {k : Nat × Int} (h : w.asClass = some k) : w = ⟨.Class k.1, k.2⟩ := by
  obtain ⟨i, time⟩ := w
  cases i with
  | Method o => cases h
  | Class o =>
    cases h
    rfl

theorem undoable_filterMap {β : Type} {f : UndoTarget → Option (Nat × Int)} {t log : List (Row (Edited β))}
    (hf : ∀ {w k}, f w = some k → w.editedAt = k.2 ∧ s.history.versions w.item = (rowsOf t k.1).length)
    (h : s.written.filterMap f = log.map fun r => (r.owner, r.content.editedAt)) :
    (s.undoable b).filterMap f = (log.filter fun r => Undoable t b r).map fun r => (r.owner, r.content.editedAt) := by
  unfold undoable
  rw [filterMap_filter (q := fun k => b < k.2 ∧ 2 ≤ (rowsOf t k.1).length), h, List.filter_map]
  · rfl
  · intro w k hk
    rw [(hf hk).1, (hf hk).2]

theorem undoable_methods {log : List (Row (Edited MethodVersion))}
    (h : s.written.filterMap UndoTarget.asMethod = log.map fun r => (r.owner, r.content.editedAt)) :
    (s.undoable b).filterMap UndoTarget.asMethod =
      (log.filter fun r => Undoable s.history.methodVersions b r).map fun r => (r.owner, r.content.editedAt) := by
  refine undoable_filterMap (fun hk => ?_) h
  rw [editedAt_of_asMethod hk]
  exact ⟨rfl, rfl⟩

theorem undoable_classes {log : List (Row (Edited ClassVersion))}
    (h : s.written.filterMap UndoTarget.asClass = log.map fun r => (r.owner, r.content.editedAt)) :
    (s.undoable b).filterMap UndoTarget.asClass =
      (log.filter fun r => Undoable s.history.classVersions b r).map fun r => (r.owner, r.content.editedAt) := by
  refine undoable_filterMap (fun hk => ?_) h
  rw [editedAt_of_asClass hk]
  exact ⟨rfl, rfl⟩

theorem getLast_of_two {l : List UndoTarget} (hclock : l.Pairwise fun w w' => w.editedAt ≤ w'.editedAt) :
    (l.getLast? = none ∧ (l.filterMap UndoTarget.asMethod).getLast? = none ∧
      (l.filterMap UndoTarget.asClass).getLast? = none) ∨
    (∃ m, l.getLast? = some ⟨.Method m.1, m.2⟩ ∧ (l.filterMap UndoTarget.asMethod).getLast? = some m ∧
      ∀ c, (l.filterMap UndoTarget.asClass).getLast? = some c → c.2 ≤ m.2) ∨
    ∃ c, l.getLast? = some ⟨.Class c.1, c.2⟩ ∧ (l.filterMap UndoTarget.asClass).getLast? = some c ∧
      ∀ m, (l.filterMap UndoTarget.asMethod).getLast? = some m → m.2 ≤ c.2 := by
  obtain rfl | ⟨l, w, rfl⟩ := eq_nil_or_concat l
  · exact .inl ⟨rfl, rfl, rfl⟩
  · right
    rw [concat_eq_append] at *
    rw [pairwise_append] at hclock
    rw [filterMap_append, filterMap_append, getLast?_concat]
    obtain ⟨i, time⟩ := w
    cases i with
    | Method o =>
      left
      refine ⟨(o, time), rfl, ?_, ?_⟩
      · exact getLast?_concat
      · intro c hc
        rw [filterMap_cons_none rfl, filterMap_nil, append_nil] at hc
        obtain ⟨w, hw, hwc⟩ := mem_filterMap.mp (mem_of_getLast? hc)
        have hle := hclock.2.2 w hw _ (mem_singleton_self _)
        rw [editedAt_of_asClass hwc] at hle
        exact hle
    | Class o =>
      right
      refine ⟨(o, time), rfl, ?_, ?_⟩
      · exact getLast?_concat
      · intro m hm
        rw [filterMap_cons_none rfl, filterMap_nil, append_nil] at hm
        obtain ⟨w, hw, hwm⟩ := mem_filterMap.mp (mem_of_getLast? hm)
        have hle := hclock.2.2 w hw _ (mem_singleton_self _)
        rw [editedAt_of_asMethod hwm] at hle
        exact hle

def Apart (s : EditSession) (b : Int) : Prop :=
  ∀ m c, ((s.undoable b).filterMap UndoTarget.asMethod).getLast? = some m →
    ((s.undoable b).filterMap UndoTarget.asClass).getLast? = some c → m.2 ≠ c.2

theorem Sound.mostRecentUndoable_last (h : s.Sound b now) (hb : s.history.editBaseline = some b) (hapart : s.Apart b) :
    s.history.mostRecentUndoable.1 = (s.undoable b).getLast? := by
  obtain ⟨ml, hm, hmw⟩ := h.methods
  obtain ⟨cl, hc, hcw⟩ := h.classes
  have hmethods := congrArg List.getLast? (undoable_methods (b := b) hmw)
  have hclasses := congrArg List.getLast? (undoable_classes (b := b) hcw)
  rw [getLast?_map, ← hm.newestUndoable] at hmethods
  rw [getLast?_map, ← hc.newestUndoable] at hclasses
  have htwo := getLast_of_two (l := s.undoable b) (h.clock.filter _)
  unfold Apart at hapart
  unfold EditHistory.mostRecentUndoable EditHistory.takeEditBaseline
  rw [hb]
  simp only
  generalize newestUndoable s.history.methodVersions b = m at hmethods
  generalize newestUndoable s.history.classVersions b = c at hclasses
  rw [hmethods, hclasses] at htwo hapart
  obtain ⟨hlast, hm', hc'⟩ | ⟨k, hlast, hm', hle⟩ | ⟨k, hlast, hc', hle⟩ := htwo
  · rw [hlast, map_eq_none_iff.mp hm', map_eq_none_iff.mp hc']
  · obtain ⟨r, rfl, rfl⟩ := map_eq_some_iff.mp hm'
    rw [hlast]
    cases c with
    | none => rfl
    | some v =>
      have hv := hle _ rfl
      have hne := hapart _ _ rfl rfl
      simp only at hv hne ⊢
      rw [if_pos (by omega)]
  · obtain ⟨v, rfl, rfl⟩ := map_eq_some_iff.mp hc'
    rw [hlast]
    cases m with
    | none => rfl
    | some r =>
      have hr := hle _ rfl
      have hne := hapart _ _ rfl rfl
      simp only at hr hne ⊢
      rw [if_neg (by omega)]

theorem Sound.rows_past (h : s.Sound b now) (hb : b ≤ now) :
    (∀ r ∈ s.history.methodVersions, r.content.editedAt ≤ now) ∧ ∀ r ∈ s.history.classVersions, r.content.editedAt ≤ now := by
  obtain ⟨ml, hm, -⟩ := h.methods
  obtain ⟨cl, hc, -⟩ := h.classes
  constructor
  · intro r hr
    obtain hr | hr := hm.known r hr
    · exact hm.past r hr
    · exact le_trans hr hb
  · intro r hr
    obtain hr | hr := hc.known r hr
    · exact hc.past r hr
    · exact le_trans hr hb

theorem Sound.ordered (h : s.Sound b now) : Ordered s.history.methodVersions ∧ Ordered s.history.classVersions := by
  obtain ⟨ml, hm, -⟩ := h.methods
  obtain ⟨cl, hc, -⟩ := h.classes
  exact ⟨hm.ordered, hc.ordered⟩

theorem Sound.start {history : EditHistory} (hm : Ordered history.methodVersions) (hc : Ordered history.classVersions)
    (hmb : ∀ r ∈ history.methodVersions, r.content.editedAt ≤ b) (hcb : ∀ r ∈ history.classVersions, r.content.editedAt ≤ b) :
    (⟨history, []⟩ : EditSession).Sound b now :=
  ⟨⟨[], Logged.start hm hmb, rfl⟩, ⟨[], Logged.start hc hcb, rfl⟩, List.Pairwise.nil, fun _ hw => (nomatch hw)⟩

theorem takeEditBaseline_past (h : EditHistory) (hnone : h.editBaseline = none) (hb : h.mostRecentUndoable.2.editBaseline = some b) :
    h.mostRecentUndoable.2.methodVersions = h.methodVersions ∧ h.mostRecentUndoable.2.classVersions = h.classVersions ∧
    (∀ r ∈ h.methodVersions, r.content.editedAt ≤ b) ∧ ∀ r ∈ h.classVersions, r.content.editedAt ≤ b := by
  unfold EditHistory.mostRecentUndoable EditHistory.takeEditBaseline at hb ⊢
  rw [hnone] at hb ⊢
  have hb := some.inj hb
  have hmax : ∀ time ∈ (h.methodVersions.map (·.content.editedAt)) ++ (h.classVersions.map (·.content.editedAt)),
      time ≤ b := by
    intro time htime
    cases hm : ((h.methodVersions.map (·.content.editedAt)) ++ (h.classVersions.map (·.content.editedAt))).max? with
    | none =>
      rw [max?_eq_none_iff.mp hm] at htime
      cases htime
    | some newest =>
      rw [hm] at hb
      rw [← show newest = b from hb]
      exact (max?_eq_some_iff.mp hm).2 time htime
  refine ⟨rfl, rfl, ?_, ?_⟩
  · intro r hr
    exact hmax _ (mem_append_left _ (mem_map_of_mem hr))
  · intro r hr
    exact hmax _ (mem_append_right _ (mem_map_of_mem hr))

def new : EditSession := ⟨EditHistory.empty, []⟩

def standing (s : EditSession) : List (Int × EditOp) → List Item → List Item
  | [], items => items
  | op :: ops, items =>
    let items := match op.2, (s.history.perform op.1 op.2).2 with
      | _, none => items
      | .undoMethod _, some w => (items.reverse.erase w.item).reverse
      | .undoClass _, some w => (items.reverse.erase w.item).reverse
      | _, some w => items ++ [w.item]
    standing (s.step op) ops items

/-- After the baseline is taken, stamped or lazily, the answer is the last version written later than the baseline's
second, of those whose item has another version on record. -/
theorem mostRecentUndoable_of_edits (before after : List (Int × EditOp)) (taken b : Int) (base : EditHistory)
    (hclock : (before.map Prod.fst ++ taken :: after.map Prod.fst).Pairwise (· ≤ ·))
    (hbase : base = (new.run before).history.stampEditBaseline taken ∨
      base = (new.run before).history.mostRecentUndoable.2)
    (hb : base.editBaseline = some b) (hapart : (run ⟨base, []⟩ after).Apart b) :
    (run ⟨base, []⟩ after).history.mostRecentUndoable.1 = ((run ⟨base, []⟩ after).undoable b).getLast? := by
  rw [pairwise_append] at hclock
  -- the clock's first reading
  obtain ⟨start, hstart, htaken⟩ : ∃ start, (start :: before.map Prod.fst).Pairwise (· ≤ ·) ∧ start ≤ taken := by
    cases before with
    | nil => exact ⟨taken, pairwise_singleton _ _, le_refl _⟩
    | cons op before =>
      refine ⟨op.1, ?_, hclock.2.2 _ mem_cons_self _ mem_cons_self⟩
      rw [pairwise_cons]
      refine ⟨?_, hclock.1⟩
      intro time htime
      rw [map_cons] at htime hclock
      obtain rfl | htime := mem_cons.mp htime
      · exact le_refl _
      · exact (pairwise_cons.mp hclock.1).1 time htime
  have hnew : new.Sound start start := Sound.start .nil .nil (fun _ hr => (nomatch hr)) (fun _ hr => (nomatch hr))
  obtain ⟨now, hsound, hlater⟩ := hnew.run before hstart
  have hnow : now ≤ taken := by
    apply hlater
    intro time htime
    obtain rfl | htime := mem_cons.mp htime
    · exact htaken
    · exact hclock.2.2 time htime taken mem_cons_self
  obtain ⟨hmpast, hcpast⟩ := (hsound.later hnow).rows_past htaken
  obtain ⟨hmord, hcord⟩ := hsound.ordered
  have hbased : (⟨base, []⟩ : EditSession).Sound b taken := by
    obtain rfl | rfl := hbase
    · cases hb
      exact Sound.start hmord hcord hmpast hcpast
    · have hnone : (new.run before).history.editBaseline = none := run_editBaseline before new
      obtain ⟨hm, hc, hmb, hcb⟩ := takeEditBaseline_past _ hnone hb
      apply Sound.start
      · rw [hm]
        exact hmord
      · rw [hc]
        exact hcord
      · rw [hm]
        exact hmb
      · rw [hc]
        exact hcb
  obtain ⟨now', hrun, -⟩ := hbased.run after hclock.2.1
  apply hrun.mostRecentUndoable_last _ hapart
  rw [run_editBaseline]
  exact hb

def blankMethod : MethodVersion := ⟨"", "", false⟩

def blankClass : ClassVersion := ⟨none, "", "", "", "", false⟩

/-- A method and a class seeded at 0, each edited after it, the class undone. -/
theorem mostRecentUndoable_of_edits_class :
    (run ⟨(new.run [(0, .saveMethod 1 blankMethod), (0, .saveClass 1 blankClass)]).history.stampEditBaseline 0, []⟩
      [(1, .saveMethod 1 blankMethod), (2, .saveClass 1 blankClass), (3, .undoClass 1)]).history.mostRecentUndoable.1 =
      some ⟨.Class 1, 3⟩ := by
  refine (mostRecentUndoable_of_edits [(0, .saveMethod 1 blankMethod), (0, .saveClass 1 blankClass)]
    [(1, .saveMethod 1 blankMethod), (2, .saveClass 1 blankClass), (3, .undoClass 1)] 0 0 _ (by decide) (.inl rfl)
    rfl ?_).trans rfl
  intro m c hm hc
  cases (hm.symm.trans (show _ = some (1, 1) from rfl))
  cases (hc.symm.trans (show _ = some (1, 3) from rfl))
  decide

/-- Two methods seeded at 0 and edited after it, the second undone: it is named again. -/
theorem mostRecentUndoable_names_undone : ¬ ∀ (before after : List (Int × EditOp)) (taken : Int),
    (before.map Prod.fst ++ taken :: after.map Prod.fst).Pairwise (· ≤ ·) →
    let base := (new.run before).history.stampEditBaseline taken
    (run ⟨base, []⟩ after).history.mostRecentUndoable.1.map UndoTarget.item = (standing ⟨base, []⟩ after []).getLast? := by
  intro h
  have hnamed := h [(0, .saveMethod 1 blankMethod), (0, .saveMethod 2 blankMethod)]
    [(1, .saveMethod 1 blankMethod), (2, .saveMethod 2 blankMethod), (3, .undoMethod 2)] 0 (by decide)
  have hanswer : some (Item.Method 2) = some (Item.Method 1) := hnamed
  cases hanswer

end EditSession

end WinArmVm.ImageStore
