import WinArmVm.FullGcCards
import WinArmVm.OldGenRuns
import WinArmVm.ScavengeRuns

namespace WinArmVm

open List Option Function Tiling

def Word.rename (f : Nat → Nat) : Word → Word
  | .mem x => .mem (f x)
  | w => w

namespace Memory

theorem rename_congr {w : Word} {f g : Nat → Nat} (h : ∀ x, w = .mem x → f x = g x) : w.rename f = w.rename g := by
  cases w with
  | mem x => exact congrArg Word.mem (h x rfl)
  | smi i => rfl
  | mark k => rfl
  | bits b => rfl

theorem forwardChase_eq (m : Memory) (w : Word) : m.forwardChase w = w.rename m.destination := by
  cases w with
  | mem a =>
    unfold forwardChase Word.rename destination
    cases h : m a <;> simp only [h]
  | smi i => rfl
  | mark k => rfl
  | bits b => rfl

variable {m m' : Memory} {a a' k k' : Nat} {s : Shape}

theorem count_smi {w : Word} {n : Nat} (h : count w = some n) : ∃ i, w = .smi i := by
  cases w with
  | smi i => exact ⟨i, rfl⟩
  | mem x => cases h
  | mark k => cases h
  | bits b => cases h

theorem formatSmiValue_smi {i : Int} (h : m.formatSmiValue k = some i) : m.rawBodyWord k 0 = .smi i := by
  unfold formatSmiValue at h
  split at h
  next j hj =>
    cases h
    exact hj
  next => cases h

theorem Reads.transport (h : m.Reads a k s)
    (hk : ∀ i w, i < 2 → m.rawBodyWord k i = .smi w → m'.rawBodyWord k' i = .smi w)
    (ha : ∀ w, s.format.indexable = true → m.rawBodyWord a (s.nis - headerWords) = .smi w →
      m'.rawBodyWord a' (s.nis - headerWords) = .smi w) : m'.Reads a' k' s where
  format := by
    obtain ⟨i, hi, hf⟩ := bind_eq_some_iff.mp h.format
    unfold Memory.format formatSmiValue
    rw [hk 0 i (by decide) (formatSmiValue_smi hi)]
    exact hf
  nis := by
    have hn := h.nis
    unfold nonIndexableSize at hn ⊢
    obtain ⟨i, hi⟩ := count_smi hn
    rw [hk 1 i (by decide) hi, ← hi]
    exact hn
  nis_ge := h.nis_ge
  len hx := by
    have hn := h.len hx
    unfold rawSizeSlot at hn ⊢
    obtain ⟨i, hi⟩ := count_smi hn
    rw [ha i hx hi, ← hi]
    exact hn

theorem slideYoung_moves {plan : List CompactEntry} (hdown : ∀ e ∈ plan, e.new ≤ e.old)
    (hord : plan.Pairwise fun e e' => e.new + e.sizeWords * wordSize ≤ e'.new ∧ e.old + e.sizeWords * wordSize ≤ e'.old)
    (m : Memory) :
    (∀ e ∈ plan, ∀ y < e.sizeWords * wordSize, slideYoung plan m (e.new + y) = m (e.old + y)) ∧
      ∀ x, (∀ e ∈ plan, x < e.new ∨ e.new + e.sizeWords * wordSize ≤ x) → slideYoung plan m x = m x := by
  induction plan generalizing m with
  | nil => exact ⟨fun e he => absurd he not_mem_nil, fun _ _ => rfl⟩
  | cons e plan ih =>
    obtain ⟨hde, hdown⟩ := forall_mem_cons.mp hdown
    obtain ⟨hoe, hord⟩ := pairwise_cons.mp hord
    obtain ⟨hmoved, hframe⟩ := ih hdown hord (Universe.copyWords m e.old e.new e.sizeWords)
    have hout : ∀ x, x < e.new ∨ e.new + e.sizeWords * wordSize ≤ x →
        Universe.copyWords m e.old e.new e.sizeWords x = m x := fun x hx => if_neg (by omega)
    refine ⟨fun e' he' y hy => ?_, fun x hx => ?_⟩
    · rcases mem_cons.mp he' with rfl | he'
      · have hin : Universe.copyWords m e'.old e'.new e'.sizeWords (e'.new + y) = m (e'.old + y) := by
          unfold Universe.copyWords
          rw [if_pos ⟨by omega, by omega⟩, Nat.add_sub_cancel_left]
        rw [← hin]
        apply hframe
        intro e he
        have := (hoe e he).1
        exact .inl (by omega)
      · have := (hoe e' he').2
        exact (hmoved e' he' y hy).trans (hout _ (.inr (by omega)))
    · obtain ⟨hx, hrest⟩ := forall_mem_cons.mp hx
      exact (hframe x hrest).trans (hout x hx)

theorem slideYoung_append (p q : List CompactEntry) (m : Memory) :
    slideYoung (p ++ q) m = slideYoung q (slideYoung p m) := List.foldl_append ..

theorem restoreMarks_append (side : SideMarks) (p q : List CompactEntry) (m : Memory) :
    restoreMarks side (p ++ q) m = (restoreMarks side p m).bind (restoreMarks side q) := by
  induction p generalizing m with
  | nil => rfl
  | cons e p ih =>
    simp only [cons_append, restoreMarks, ih, bind_eq_bind, bind_assoc]

theorem mapRoots_chase {f : Nat → Nat} {ws : List Word} (h : ∀ w ∈ ws, m.forwardChase w = w.rename f) :
    mapRoots chase ws m () = some (ws.map (Word.rename f), m, ()) := by
  induction ws with
  | nil => rfl
  | cons w ws ih =>
    obtain ⟨hw, hws⟩ := forall_mem_cons.mp h
    unfold mapRoots
    simp only [chase, ih hws, hw, bind_eq_bind, bind_some, Option.pure_def, map_cons]

end Memory

def NmethodRoots.rename (f : Nat → Nat) (nm : NmethodRoots) : NmethodRoots :=
  { nm with oops := nm.oops.map (Word.rename f), key := nm.key.rename f }

def Roots.rename (f : Nat → Nat) (r : Roots) : Roots :=
  ⟨r.plain.map (Word.rename f), r.nmethods.map (NmethodRoots.rename f), r.code.map (Word.rename f)⟩

theorem eachCodeRoot_chase {m : Memory} {f : Nat → Nat} {r : Roots}
    (h : ∀ w ∈ r.code ++ r.nmethods.flatMap NmethodRoots.words, m.forwardChase w = w.rename f) :
    eachCodeRoot Memory.chase r m () = some ({ r.rename f with plain := r.plain }, m, ()) := by
  obtain ⟨hcode, hnm⟩ := forall_mem_append.mp h
  have hvisit : ∀ l : List NmethodRoots, (∀ w ∈ l.flatMap NmethodRoots.words, m.forwardChase w = w.rename f) →
      visitNmethods Memory.chase l m () = some (l.map (NmethodRoots.rename f), m, ()) := by
    intro l hl
    induction l with
    | nil => rfl
    | cons nm l ih =>
      obtain ⟨hwords, hl⟩ := forall_mem_append.mp hl
      obtain ⟨hoops, hkey⟩ := forall_mem_append.mp hwords
      have hkey := hkey nm.key (mem_singleton.mpr rfl)
      unfold visitNmethods
      simp only [Memory.mapRoots_chase hoops, Memory.chase, hkey, ih hl, bind_eq_bind, bind_some,
        Option.pure_def, map_cons]
      rfl
  unfold eachCodeRoot
  simp only [Memory.mapRoots_chase hcode, hvisit _ hnm, bind_eq_bind, bind_some, Option.pure_def]
  rfl

theorem Universe.post_eq (u : Universe) : ∃ cards, u.post = { u with cards := cards, bytesAtAge := fun _ => 0 } := by
  unfold post clearAges recordMultistores
  split <;> exact ⟨_, rfl⟩

namespace HeapView

variable {v : HeapView} {m mc m' : Memory} {u : Universe} {roots : List Word} {l : List Nat} {side : SideMarks}
  {a j new newTop : Nat}

theorem body_not_object (hw : v.WellFormed m u) (ha : a ∈ v.objects) (hj : 1 ≤ j) (hlt : j < (v.shape a).size) :
    a + 8 * j ∉ v.objects := by
  intro hmem
  have hsize := hw.size_ge hmem
  obtain ⟨-, hzero⟩ := hw.word_inj (i := j) (j := 0) ha hmem hlt (by omega) (by omega)
  omega

/-- The words that bear oops have been sent after the objects of `done`; `mf` has the headers. -/
structure Rewritten (v : HeapView) (m mf : Memory) (done : List Nat) (mc : Memory) : Prop where
  objects : ∀ a ∈ done, a ∈ v.objects
  oops : ∀ a ∈ done, ∀ j ∈ v.oopWords a, mc (a + 8 * j) = (m (a + 8 * j)).rename mf.destination
  same : ∀ x, (∀ a ∈ done, ∀ j ∈ v.oopWords a, x ≠ a + 8 * j) → mc x = mf x

namespace Rewritten

variable {mf : Memory} {done : List Nat}

section

variable (hw : v.WellFormed m u) (hsame : ∀ x, x ∉ v.objects → mf x = m x) (h : v.Rewritten m mf done mc)

include hw h

theorem header (ha : a ∈ v.objects) : mc a = mf a := by
  apply h.same
  intro b hb j hj he
  have hobj := h.objects b hb
  have hj := oopWords_lt (hw.nis_ge hobj) hj
  exact body_not_object hw hobj hj.1 hj.2 (he ▸ ha)

theorem chase (ha : ∀ x ∈ v.objects, m' x = mc x) {w : Word} (hvalid : v.Valid w) :
    m'.forwardChase w = w.rename mf.destination := by
  rw [Memory.forwardChase_eq]
  apply Memory.rename_congr
  intro x hx
  have hx := hvalid x hx
  unfold Memory.destination
  rw [ha x hx, h.header hw hx]

include hsame

theorem word (ha : a ∈ v.objects) (hj : 1 ≤ j) (hlt : j < (v.shape a).size) (hno : a ∈ done → j ∉ v.oopWords a) :
    mc (a + 8 * j) = m (a + 8 * j) := by
  rw [h.same _ fun b hb i hi he => ?_]
  · exact hsame _ (body_not_object hw ha hj hlt)
  · have hobj := h.objects b hb
    obtain ⟨rfl, rfl⟩ := hw.word_inj ha hobj hlt (oopWords_lt (hw.nis_ge hobj) hi).2 he
    exact hno hb hi

theorem smi (ha : a ∈ v.objects) (hj : 1 ≤ j) (hlt : j < (v.shape a).size) {i : Int} (hi : m (a + 8 * j) = .smi i) :
    mc (a + 8 * j) = .smi i := by
  by_cases hno : a ∈ done ∧ j ∈ v.oopWords a
  · rw [h.oops a hno.1 j hno.2, hi]
    rfl
  · rw [h.word hw hsame ha hj hlt fun hd hj => hno ⟨hd, hj⟩]
    exact hi

theorem reads (ha : a ∈ v.objects) : mc.Reads a (v.shape a).klass (v.shape a) := by
  have hs := hw.shaped a ha
  have hk := hw.klass_size_ge hs.klass_mem hs.klass_format
  refine hs.reads.transport (fun i w hi hsmi => ?_) fun w hx hsmi => ?_
  · unfold Memory.rawBodyWord at hsmi ⊢
    rw [Memory.bodyAddr_eq] at hsmi ⊢
    exact h.smi hw hsame hs.klass_mem (by omega) (by omega) hsmi
  · have hlt := Shape.nis_lt_size hx
    have hge := hs.reads.nis_ge
    unfold Memory.rawBodyWord headerWords at hsmi ⊢
    rw [Memory.bodyAddr_eq] at hsmi ⊢
    exact h.smi hw hsame ha (by omega) (by omega) hsmi

end

/-- The body words `pre` of the object at `a` have been visited. -/
structure Visited (v : HeapView) (m mf mc : Memory) (a : Nat) (pre : List Nat) (m' : Memory) : Prop where
  subset : ∀ i ∈ pre, i ∈ (v.shape a).bodyOops
  oops : ∀ i ∈ pre, m' (a + 8 * (i + 2)) = (m (a + 8 * (i + 2))).rename mf.destination
  same : ∀ x, (∀ i ∈ pre, x ≠ a + 8 * (i + 2)) → m' x = mc x

theorem Visited.header (hw : v.WellFormed m u) {pre : List Nat} (hv : Visited v m mf mc a pre m') (ha : a ∈ v.objects)
    {x : Nat} (hx : x ∈ v.objects) : m' x = mc x := by
  apply hv.same
  intro i hi he
  have := (Shape.bodyOops_lt (hw.nis_ge ha) (hv.subset i hi)).1
  exact body_not_object hw ha (by omega) this (he ▸ hx)

section

variable (hw : v.WellFormed m u) (hsame : ∀ x, x ∉ v.objects → mf x = m x) (h : v.Rewritten m mf done mc)

include hw hsame h

theorem visit (ha : a ∈ v.objects) (hnot : a ∉ done) {pre : List Nat} {i : Nat} (hv : Visited v m mf mc a pre m')
    (hi : i ∈ (v.shape a).bodyOops) (hin : i ∉ pre) :
    ∃ w, Memory.chase m' () (m'.rawBodyWord a i) = some (w, m', ()) ∧
      Visited v m mf mc a (pre ++ [i]) (m'.setRawBodyWord a i w) := by
  have hread : m'.rawBodyWord a i = m (a + 8 * (i + 2)) := by
    unfold Memory.rawBodyWord
    rw [Memory.bodyAddr_eq, hv.same (a + 8 * (i + 2))]
    · exact h.word hw hsame ha (by omega) (Shape.bodyOops_lt (hw.nis_ge ha) hi).1 fun hd => absurd hd hnot
    · intro i' hi' he
      have heq : i = i' := by omega
      exact hin (heq ▸ hi')
  have hword := h.chase hw (fun x hx => hv.header hw ha hx) (hw.slots a ha _ (body_mem_oopWords.mpr hi))
  refine ⟨_, rfl, fun i' hi' => ?_, fun i' hi' => ?_, fun x hx => ?_⟩
  · rcases mem_append.mp hi' with hi' | hi'
    · exact hv.subset i' hi'
    · cases mem_singleton.mp hi'
      exact hi
  · unfold Memory.setRawBodyWord Memory.write
    rw [Memory.bodyAddr_eq]
    by_cases he : i' = i
    · rw [he, update_self, hread]
      exact hword
    · rw [update_of_ne (by omega)]
      rcases mem_append.mp hi' with hi' | hi'
      · exact hv.oops i' hi'
      · exact absurd (mem_singleton.mp hi') he
  · unfold Memory.setRawBodyWord Memory.write
    rw [Memory.bodyAddr_eq, update_of_ne (hx i (mem_append.mpr (.inr (mem_singleton.mpr rfl))))]
    exact hv.same x fun i' hi' => hx i' (mem_append.mpr (.inl hi'))

theorem step (ha : a ∈ v.objects) (hnot : a ∉ done) :
    ∃ mc', mc.rewriteEntry (v.entry mf a) = some mc' ∧ v.Rewritten m mf (done ++ [a]) mc' := by
  have hs := hw.shaped a ha
  have hnis := hw.nis_ge ha
  have hlt := hw.size_ge ha
  have hfield : mc.klassOop a = .mem (v.shape a).klass :=
    (h.word hw hsame ha (Nat.le_refl 1) (by omega) fun hd => absurd hd hnot).trans hs.klass
  obtain ⟨mb, _, hvisit, hv⟩ := Memory.forEachOopField_rule (f := Memory.chase) (g := ()) (a := a)
    (I := fun pre m' _ => Visited v m mf mc a pre m')
    (fun pre i post m' g he hv => by
      have hnodup := (v.shape a).bodyOops_nodup
      rw [he] at hnodup
      obtain ⟨w, hrun, hv'⟩ := h.visit hw hsame ha hnot hv (by rw [he]; simp)
        fun hmem => (nodup_append.mp hnodup).2.2 i hmem i mem_cons_self rfl
      exact ⟨w, m', (), hrun, hv'⟩)
    (fun pre m' g hv hx => by
      have hlen := (h.reads hw hsame ha).len hx
      have hslot : m' (Memory.bodyAddr a ((v.shape a).nis - headerWords)) =
          mc (Memory.bodyAddr a ((v.shape a).nis - headerWords)) := by
        apply hv.same
        intro i hi he
        rw [Memory.bodyAddr_eq] at he
        exact (Shape.bodyOops_lt hnis (hv.subset i hi)).2 hx (by omega)
      unfold Memory.rawSizeSlot Memory.rawBodyWord at hlen ⊢
      rw [hslot]
      exact hlen)
    (h.reads hw hsame ha)
    ⟨fun _ h => absurd h not_mem_nil, fun _ h => absurd h not_mem_nil, fun _ _ => rfl⟩
  have hklass : mb.forwardChase (.mem (v.shape a).klass) = .mem (mf.destination (v.shape a).klass) :=
    h.chase hw (fun x hx => hv.header hw ha hx) fun x hx => by
      cases hx
      exact hs.klass_mem
  refine ⟨mb.setKlassRaw a (.mem (mf.destination (v.shape a).klass)), ?_, fun b hb => ?_, fun b hb j hj => ?_,
    fun x hx => ?_⟩
  · unfold Memory.rewriteEntry
    show (match mc.klassOop a with
      | .mem k => (mc.forEachOopField Memory.chase () a k).bind fun r =>
          some (r.1.setKlassRaw a (r.1.forwardChase (mc.klassOop a)))
      | _ => none) = _
    simp only [hfield, hvisit, bind_some, hklass]
  · rcases mem_append.mp hb with hb | hb
    · exact h.objects b hb
    · cases mem_singleton.mp hb
      exact ha
  · unfold Memory.setKlassRaw Memory.write
    rcases mem_append.mp hb with hb | hb
    · -- nothing of an object done before is written
      have hbobj := h.objects b hb
      have hj' := oopWords_lt (hw.nis_ge hbobj) hj
      have hapart : ∀ i, i < (v.shape a).size → b + 8 * j ≠ a + 8 * i := fun i hi he =>
        hnot ((hw.word_inj hbobj ha hj'.2 hi he).1 ▸ hb)
      rw [update_of_ne (hapart 1 (by omega)), hv.same _ fun i hi =>
        hapart (i + 2) (Shape.bodyOops_lt hnis (hv.subset i hi)).1]
      exact h.oops b hb j hj
    · cases mem_singleton.mp hb
      rcases mem_cons.mp hj with rfl | hj
      · have hold : m (a + 8 * 1) = .mem (v.shape a).klass := hs.klass
        rw [hold]
        exact update_self ..
      · obtain ⟨i, hi, rfl⟩ := mem_map.mp hj
        rw [update_of_ne (by omega)]
        exact hv.oops i hi
  · unfold Memory.setKlassRaw Memory.write
    have hx' : ∀ j ∈ v.oopWords a, x ≠ a + 8 * j := hx a (mem_append.mpr (.inr (mem_singleton.mpr rfl)))
    rw [update_of_ne (hx' 1 mem_cons_self), hv.same x fun i hi => hx' (i + 2) (body_mem_oopWords.mpr (hv.subset i hi))]
    exact h.same x fun b hb => hx b (mem_append.mpr (.inl hb))

omit h in
theorem run (hl : ∀ a ∈ l, a ∈ v.objects) (hn : (done ++ l).Nodup) (h : v.Rewritten m mf done mc) :
    ∃ mc', Memory.rewriteAll (l.map (v.entry mf)) mc = some mc' ∧ v.Rewritten m mf (done ++ l) mc' := by
  induction l generalizing done mc with
  | nil => exact ⟨mc, rfl, by rw [append_nil]; exact h⟩
  | cons a l ih =>
    have hnot : a ∉ done := fun hd => (nodup_append.mp hn).2.2 a hd a mem_cons_self rfl
    obtain ⟨m₁, hrun₁, h₁⟩ := h.step hw hsame (hl a mem_cons_self) hnot
    have hassoc : done ++ [a] ++ l = done ++ a :: l := by simp
    obtain ⟨m₂, hrun₂, h₂⟩ := ih (fun x hx => hl x (mem_cons_of_mem a hx)) (by rw [hassoc]; exact hn) h₁
    rw [hassoc] at h₂
    refine ⟨m₂, ?_, h₂⟩
    rw [map_cons, Memory.rewriteAll, hrun₁]
    exact hrun₂

end

end Rewritten

/-- The words of the objects of `l`, but for the headers, are at their new places. -/
structure Relocated (v : HeapView) (m : Memory) (f : Nat → Nat) (l : List Nat) (mc : Memory) : Prop where
  oops : ∀ a ∈ l, ∀ j ∈ v.oopWords a, mc (f a + 8 * j) = (m (a + 8 * j)).rename f
  data : ∀ a ∈ l, ∀ j, 1 ≤ j → j < (v.shape a).size → j ∉ v.oopWords a → mc (f a + 8 * j) = m (a + 8 * j)

structure Placed (v : HeapView) (f : Nat → Nat) (l : List Nat) : Prop where
  objects : ∀ a ∈ l, a ∈ v.objects
  klass : ∀ a ∈ l, (v.shape a).klass ∈ l
  apart : ∀ a ∈ l, ∀ b ∈ l, ∀ i j, i < (v.shape a).size → j < (v.shape b).size → f a + 8 * i = f b + 8 * j →
    a = b ∧ i = j

namespace Relocated

variable {f : Nat → Nat}

section

variable (hw : v.WellFormed m u) (hp : v.Placed f l) (h : v.Relocated m f l mc)

include hw hp h

omit hw hp in
theorem smi (ha : a ∈ l) (hj : 1 ≤ j) (hlt : j < (v.shape a).size) {i : Int} (hi : m (a + 8 * j) = .smi i) :
    mc (f a + 8 * j) = .smi i := by
  by_cases ho : j ∈ v.oopWords a
  · rw [h.oops a ha j ho, hi]
    rfl
  · rw [h.data a ha j hj hlt ho, hi]

omit hw hp in
theorem body_smi (ha : a ∈ l) {i : Nat} (hlt : i + 2 < (v.shape a).size) {w : Int}
    (hi : m.rawBodyWord a i = .smi w) : mc.rawBodyWord (f a) i = .smi w := by
  unfold Memory.rawBodyWord at hi ⊢
  rw [Memory.bodyAddr_eq] at hi ⊢
  exact h.smi ha (by omega) hlt hi

theorem reads (ha : a ∈ l) : mc.Reads (f a) (f (v.shape a).klass) (v.shape a) := by
  have hs := hw.shaped a (hp.objects a ha)
  have hk := hw.klass_size_ge hs.klass_mem hs.klass_format
  have hge := hs.reads.nis_ge
  refine hs.reads.transport (fun i w hi hsmi => h.body_smi (hp.klass a ha) (by omega) hsmi) fun w hx hsmi => ?_
  have hlt := Shape.nis_lt_size hx
  exact h.body_smi ha (by unfold headerWords; omega) hsmi

theorem object (ha : a ∈ l) : mc.Object (f a) (f (v.shape a).klass) (v.shape a) := by
  refine ⟨?_, h.reads hw hp ha⟩
  have hfield : ∀ b ∈ l, mc.klassOop (f b) = .mem (f (v.shape b).klass) := by
    intro b hb
    have hold : m (b + 8 * 1) = .mem (v.shape b).klass := (hw.shaped b (hp.objects b hb)).klass
    have := h.oops b hb 1 mem_cons_self
    rw [hold] at this
    exact this
  have hk := hp.klass a ha
  unfold Memory.klass Memory.klassTryFrom
  simp only [hfield a ha, hfield _ hk]
  rw [if_pos]
  rw [(h.reads hw hp hk).format, (hw.shaped a (hp.objects a ha)).klass_format]

theorem hasUntaggedContents (ha : a ∈ l) : ∃ t, m.hasUntaggedContents (v.shape a).klass = some t ∧
    mc.hasUntaggedContents (f (v.shape a).klass) = some t := by
  have hs := hw.shaped a (hp.objects a ha)
  have hk := hw.klass_size_ge hs.klass_mem hs.klass_format
  obtain ⟨i, hi, -⟩ := bind_eq_some_iff.mp hs.reads.format
  have hi' := h.body_smi (hp.klass a ha) (by omega) (Memory.formatSmiValue_smi hi)
  refine ⟨i / 256 % 2 = 1, ?_, ?_⟩
  · unfold Memory.hasUntaggedContents
    rw [hi]
    rfl
  · unfold Memory.hasUntaggedContents Memory.formatSmiValue
    rw [hi']
    rfl

theorem setMark (ha : a ∈ l) (k : Mark) : v.Relocated m f l (mc.setMark (f a) k) := by
  have hsize := hw.size_ge (hp.objects a ha)
  have hkeep : ∀ b ∈ l, ∀ j, 1 ≤ j → j < (v.shape b).size →
      mc.setMark (f a) k (f b + 8 * j) = mc (f b + 8 * j) := by
    intro b hb j hj hlt
    apply update_of_ne
    intro he
    have := (hp.apart b hb a ha j 0 hlt (by omega) he).2
    omega
  refine ⟨fun b hb j hj => ?_, fun b hb j hj hlt hno => ?_⟩
  · have hlt := oopWords_lt (hw.nis_ge (hp.objects b hb)) hj
    rw [hkeep b hb j hlt.1 hlt.2]
    exact h.oops b hb j hj
  · rw [hkeep b hb j hj hlt]
    exact h.data b hb j hj hlt hno

omit h in
theorem restoreMarks (mf : Memory) (hf : mf.destination = f) {todo : List Nat} (hsub : ∀ a ∈ todo, a ∈ l)
    (hn : todo.Nodup)
    (hkept : ∀ a ∈ l, ∀ k, m a = .mark k → ∀ t,
      (((side (f a)).getD Mark.pristine).withTaggedContents t).withGcMark false = k.withTaggedContents t)
    (h : v.Relocated m f l mc) :
    ∃ mc', Memory.restoreMarks side (todo.map (v.entry mf)) mc = some mc' ∧ v.Relocated m f l mc' ∧
      (∀ x, (∀ a ∈ todo, x ≠ f a) → mc' x = mc x) ∧
      ∀ a ∈ todo, ∀ k, m a = .mark k →
        ∃ t, m.hasUntaggedContents (v.shape a).klass = some t ∧ mc' (f a) = .mark (k.withTaggedContents !t) := by
  induction todo generalizing mc with
  | nil => exact ⟨mc, rfl, h, fun _ _ => rfl, fun a ha => absurd ha not_mem_nil⟩
  | cons a todo ih =>
    obtain ⟨ha, hsub⟩ := forall_mem_cons.mp hsub
    obtain ⟨hnot, hn⟩ := nodup_cons.mp hn
    obtain ⟨k, hk, -⟩ := hw.marks a (hp.objects a ha)
    obtain ⟨t, ht, ht'⟩ := h.hasUntaggedContents hw hp ha
    have hklass := (h.object hw hp ha).1
    obtain ⟨mc', hrun, hr, hframe, hmarks⟩ := ih hsub hn (h.setMark hw hp ha (k.withTaggedContents !t))
    have hne : ∀ b ∈ todo, f a ≠ f b := by
      intro b hb he
      have hsa := hw.size_ge (hp.objects a ha)
      have hsb := hw.size_ge (hp.objects b (hsub b hb))
      have := (hp.apart a ha b (hsub b hb) 0 0 (by omega) (by omega) (by omega)).1
      exact hnot (this ▸ hb)
    refine ⟨mc', ?_, hr, fun x hx => ?_, forall_mem_cons.mpr ⟨fun k' hk' => ?_, hmarks⟩⟩
    · have hnew : (v.entry mf a).new = f a := congrFun hf a
      rw [map_cons]
      unfold Memory.restoreMarks
      simp only [hnew, hklass, ht', hkept a ha k hk, bind_eq_bind, bind_some]
      exact hrun
    · obtain ⟨hxa, hx⟩ := forall_mem_cons.mp hx
      exact (hframe x hx).trans (update_of_ne hxa _ _)
    · cases (hk.symm.trans hk')
      exact ⟨t, ht, (hframe _ hne).trans (update_self ..)⟩

end

end Relocated

open Classical in
/-- The roots after the weak sweep: a live nmethod goes with the class it is customised for, one that
is not entered any more when no frame runs it. -/
noncomputable def kept (v : HeapView) (m : Memory) (r : Roots) : Roots :=
  { r with nmethods := r.nmethods.filter fun nm =>
      if nm.alive then decide (∃ a, nm.key = .mem a ∧ v.Live m r.strong a) else nm.running }

/-- What a full collection leaves: the objects that were reachable, each space's in their order and one
behind the other, at the places `f` tells, the old ones in the offset table and on dirty cards. -/
structure Compacted (v : HeapView) (m : Memory) (u : Universe) (roots : List Word) (f : Nat → Nat) (m' : Memory)
    (u' : Universe) : Prop where
  eden : Tiles f v.bytes u.eden.start (v.alive m roots v.eden) u'.eden.top
  survivors : Tiles f v.bytes u.fromSpace.start (v.alive m roots v.survivors) u'.fromSpace.top
  old : Tiles f v.bytes u.old.start (v.alive m roots v.old) u'.old.top
  down : ∀ a, v.Live m roots a → f a ≤ a
  sharing : ∀ a b, v.Live m roots a → v.Live m roots b → f a = f b → a = b
  object : ∀ a, v.Live m roots a → m'.Object (f a) (f (v.shape a).klass) (v.shape a)
  header : ∀ a, v.Live m roots a → ∀ k, m a = .mark k →
    ∃ t, m.hasUntaggedContents (v.shape a).klass = some t ∧ m' (f a) = .mark (k.withTaggedContents !t)
  oops : ∀ a, v.Live m roots a → ∀ j ∈ v.oopWords a, m' (f a + 8 * j) = (m (a + 8 * j)).rename f
  data : ∀ a, v.Live m roots a → ∀ j, 1 ≤ j → j < (v.shape a).size → j ∉ v.oopWords a → m' (f a + 8 * j) = m (a + 8 * j)
  resolves : u'.Resolves ((v.alive m roots v.old).map fun a => (f a, v.bytes a))
  dirty : ∀ x, u.old.start ≤ x → x < u'.old.top → u'.cards (u'.cardIndex x) = true
  frame : u' = { u with
    eden := { u.eden with top := u'.eden.top }
    fromSpace := { u.fromSpace with top := u'.fromSpace.top }
    old := { u.old with top := u'.old.top }
    cards := u'.cards
    offsets := u'.offsets
    bytesAtAge := u'.bytesAtAge }

theorem live_object (hw : v.WellFormed m u) (hvalid : ∀ w ∈ roots, v.Valid w) (h : v.Live m roots a) :
    a ∈ v.objects := by
  induction h with
  | root h => exact hvalid _ h _ rfl
  | child _ hj hx ih => exact hw.slots _ ih _ hj _ hx

theorem strong_subset (r : Roots) {w : Word} (hw : w ∈ r.strong) : w ∈ r.words := by
  unfold Roots.strong at hw
  unfold Roots.words
  rcases mem_append.mp hw with hw | hw
  · exact mem_append.mpr (.inl hw)
  · obtain ⟨nm, hnm, hw⟩ := mem_flatMap.mp hw
    refine mem_append.mpr (.inr (mem_flatMap.mpr ⟨nm, hnm, ?_⟩))
    unfold NmethodRoots.strong at hw
    unfold NmethodRoots.words
    split at hw
    · exact mem_append.mpr (.inl hw)
    · exact hw

theorem weakSweep_kept {r : Roots} {m₁ : Memory} (hw : v.WellFormed m u) (hvalid : ∀ w ∈ r.words, v.Valid w)
    (hmarks : ∀ a ∈ v.objects, ∀ k, m a = .mark k →
      ∃ b, m₁ a = .mark (k.withGcMark b) ∧ (b = true ↔ v.Live m r.strong a)) :
    r.weakSweep m₁ = v.kept m r := by
  unfold Roots.weakSweep kept
  congr 1
  apply filter_congr
  intro nm hnm
  cases nm.alive with
  | false => rfl
  | true =>
    simp only [if_true]
    cases hkey : nm.key with
    | mem a =>
      have hwords : Word.mem a ∈ r.words := mem_append.mpr (.inr (mem_flatMap.mpr
        ⟨nm, hnm, mem_append.mpr (.inr (by rw [hkey]; exact mem_singleton.mpr rfl))⟩))
      have hobj := hvalid _ hwords a rfl
      obtain ⟨k, hk, -⟩ := hw.marks a hobj
      obtain ⟨b, hb, hlive⟩ := hmarks a hobj k hk
      have hread : ((m₁.markAt a).map Mark.gcMark).getD false = b := by
        unfold Memory.markAt
        rw [hb]
        rfl
      have hiff : (∃ x, Word.mem a = .mem x ∧ v.Live m r.strong x) ↔ v.Live m r.strong a := by simp
      rw [Bool.eq_iff_iff]
      simp only [hread, hlive, decide_eq_true_eq, hiff]
    | smi i => simp
    | mark k => simp
    | bits b => simp

theorem kept_words {r : Roots} {w : Word} (hw : w ∈ (v.kept m r).words) : w ∈ r.words := by
  unfold Roots.words at hw ⊢
  rcases mem_append.mp hw with hw | hw
  · exact mem_append.mpr (.inl hw)
  · obtain ⟨nm, hnm, hw⟩ := mem_flatMap.mp hw
    exact mem_append.mpr (.inr (mem_flatMap.mpr ⟨nm, (mem_filter.mp hnm).1, hw⟩))

theorem alive_objects (v : HeapView) (m : Memory) (roots : List Word) :
    v.alive m roots v.objects = v.alive m roots v.eden ++ v.alive m roots v.survivors ++ v.alive m roots v.old := by
  unfold alive objects young
  rw [filter_append, filter_append]

namespace Forwards

variable {m₁ : Memory} {f : u.Forwarded m₁}

section

variable (hw : v.WellFormed m u) (h : v.Forwards m u roots m₁ f)

include hw h

theorem ordered : (v.alive m roots v.objects).Pairwise fun a b =>
    f.afterOld.1.destination a + v.bytes a ≤ f.afterOld.1.destination b ∧ a + v.bytes a ≤ b := by
  have hg := hw.geometry
  have h₁ := hg.eden_le
  have h₂ := hg.from_le
  have h₃ := hg.eden_from
  have h₄ := hg.from_old
  have h₅ := h.eden.le
  have h₆ := h.survivors.le
  have hspace : ∀ {l : List Nat} {start top newTop : Nat}, Tiles id v.bytes start l top →
      v.Planned m roots l top start newTop f.afterOld.1 f.afterOld.2 →
      (v.alive m roots l).Pairwise fun a b =>
        f.afterOld.1.destination a + v.bytes a ≤ f.afterOld.1.destination b ∧ a + v.bytes a ≤ b :=
    fun ht hp => hp.tiles.pairwise.and (ht.pairwise.filter _)
  rw [alive_objects]
  refine pairwise_append.mpr ⟨pairwise_append.mpr ⟨hspace hw.eden h.eden, hspace hw.survivors h.survivors,
    fun a ha b hb => ?_⟩, hspace hw.old h.old, fun a ha b hb => ?_⟩
  · have ha₁ := h.eden.tiles.bounds ha
    have hb₁ := h.survivors.tiles.bounds hb
    have ha₂ := hw.eden.bounds (mem_alive.mp ha).1
    have hb₂ := hw.survivors.bounds (mem_alive.mp hb).1
    dsimp only [id] at ha₂ hb₂
    omega
  · have hb₁ := h.old.tiles.bounds hb
    have hb₂ := hw.old.bounds (mem_alive.mp hb).1
    dsimp only [id] at hb₂
    rcases mem_append.mp ha with ha | ha
    · have ha₁ := h.eden.tiles.bounds ha
      have ha₂ := hw.eden.bounds (mem_alive.mp ha).1
      dsimp only [id] at ha₂
      omega
    · have ha₁ := h.survivors.tiles.bounds ha
      have ha₂ := hw.survivors.bounds (mem_alive.mp ha).1
      dsimp only [id] at ha₂
      omega

omit hw in
theorem down (ha : a ∈ v.alive m roots v.objects) : f.afterOld.1.destination a ≤ a := by
  rw [alive_objects] at ha
  rcases mem_append.mp ha with ha | ha
  · rcases mem_append.mp ha with ha | ha
    · exact (h.eden.forwarded a ha).2
    · exact (h.survivors.forwarded a ha).2
  · exact (h.old.forwarded a ha).2

omit hw in
theorem kept (ha : a ∈ v.alive m roots v.objects) {k : Mark} (hk : m a = .mark k) (t : Bool) :
    (((f.afterOld.2 (f.afterOld.1.destination a)).getD Mark.pristine).withTaggedContents t).withGcMark false =
      k.withTaggedContents t := by
  rw [alive_objects] at ha
  rcases mem_append.mp ha with ha | ha
  · rcases mem_append.mp ha with ha | ha
    · exact h.eden.kept a ha k hk t
    · exact h.survivors.kept a ha k hk t
  · exact h.old.kept a ha k hk t

theorem placed : v.Placed f.afterOld.1.destination (v.alive m roots v.objects) := by
  refine ⟨fun a ha => (mem_alive.mp ha).1, fun a ha => ?_, fun a ha b hb i j hi hj he => ?_⟩
  · obtain ⟨hobj, hl⟩ := mem_alive.mp ha
    have hs := hw.shaped a hobj
    exact mem_alive.mpr ⟨hs.klass_mem, Live.child hl (mem_cons_self (a := 1)) hs.klass⟩
  · have hba := v.bytes_eq a
    have hbb := v.bytes_eq b
    have hapart : a = b ∨ f.afterOld.1.destination a + v.bytes a ≤ f.afterOld.1.destination b ∨
        f.afterOld.1.destination b + v.bytes b ≤ f.afterOld.1.destination a := by
      exact List.Pairwise.forall_of_forall_of_flip (R := fun a b => a = b ∨ f.afterOld.1.destination a + v.bytes a ≤
        f.afterOld.1.destination b ∨ f.afterOld.1.destination b + v.bytes b ≤ f.afterOld.1.destination a)
        (fun x _ => .inl rfl) ((h.ordered hw).imp fun hxy => .inr (.inl hxy.1))
        ((h.ordered hw).imp fun hxy => .inr (.inr hxy.1)) ha hb
    rcases hapart with rfl | hlt | hlt
    · exact ⟨rfl, by omega⟩
    · omega
    · omega

end

end Forwards

theorem Forwards.slide {m₁ : Memory} {f : u.Forwarded m₁} (hw : v.WellFormed m u) (h : v.Forwards m u roots m₁ f)
    (hr : v.Rewritten m f.afterOld.1 (v.alive m roots v.objects) mc) :
    v.Relocated m f.afterOld.1.destination (v.alive m roots v.objects)
      (Memory.slideYoung f.oldPlan (Memory.slideYoung f.fromPlan (Memory.slideYoung f.edenPlan mc))) := by
  have hplan : f.edenPlan ++ f.fromPlan ++ f.oldPlan = (v.alive m roots v.objects).map (v.entry f.afterOld.1) := by
    rw [h.edenPlan, h.fromPlan, h.oldPlan, alive_objects, map_append, map_append]
  rw [← Memory.slideYoung_append, ← Memory.slideYoung_append, ← append_assoc, hplan]
  have hdown : ∀ e ∈ (v.alive m roots v.objects).map (v.entry f.afterOld.1), e.new ≤ e.old := by
    intro e he
    obtain ⟨a, ha, rfl⟩ := mem_map.mp he
    exact h.down ha
  obtain ⟨hmoved, -⟩ := Memory.slideYoung_moves hdown (pairwise_map.mpr (h.ordered hw)) mc
  have hword : ∀ a ∈ v.alive m roots v.objects, ∀ j, j < (v.shape a).size →
      Memory.slideYoung ((v.alive m roots v.objects).map (v.entry f.afterOld.1)) mc
        (f.afterOld.1.destination a + 8 * j) = mc (a + 8 * j) := by
    intro a ha j hj
    refine hmoved _ (mem_map_of_mem ha) (8 * j) ?_
    show 8 * j < (v.shape a).size * 8
    omega
  refine ⟨fun a ha j hj => ?_, fun a ha j hj hlt hno => ?_⟩
  · rw [hword a ha j (oopWords_lt (hw.nis_ge (hr.objects a ha)) hj).2]
    exact hr.oops a ha j hj
  · rw [hword a ha j hlt]
    exact hr.word hw h.same (hr.objects a ha) hj hlt fun _ => hno

theorem fullGc_spec (hw : v.WellFormed m u) {r : Roots} (hvalid : ∀ w ∈ r.words, v.Valid w) :
    ∃ (m₁ : Memory) (f : u.Forwarded m₁) (m' : Memory), v.Forwards m u r.strong m₁ f ∧
      Universe.fullGc r m u = some ((v.kept m r).rename f.afterOld.1.destination, m', f.spaces.post) ∧
      v.Relocated m f.afterOld.1.destination (v.alive m r.strong v.objects) m' ∧
      ∀ a ∈ v.alive m r.strong v.objects, ∀ k, m a = .mark k → ∃ t, m.hasUntaggedContents (v.shape a).klass = some t ∧
          m' (f.afterOld.1.destination a) = .mark (k.withTaggedContents !t) := by
  obtain ⟨m₁, g, hmark, hsame, hmarks⟩ := mark_marks hw fun w hw => hvalid w (strong_subset r hw)
  obtain ⟨f, hf⟩ := forwards hw hsame hmarks
  have hn : ([] ++ v.alive m r.strong v.objects).Nodup :=
    ((hf.ordered hw).imp_of_mem fun {a b} ha _ hab he => by
      have hpos := hw.bytes_pos (mem_alive.mp ha).1
      have := hab.2
      rw [he] at this hpos
      omega)
  obtain ⟨m₂, hrewrite, hr⟩ := Rewritten.run hw hf.same (fun a ha => (mem_alive.mp ha).1) hn
    ⟨fun _ h => absurd h not_mem_nil, fun _ h => absurd h not_mem_nil, fun _ _ => rfl⟩
  have hchase : ∀ mc : Memory, (∀ x ∈ v.objects, mc x = f.afterOld.1 x) → ∀ w ∈ (v.kept m r).words,
      mc.forwardChase w = w.rename f.afterOld.1.destination := by
    intro mc hmc w hw
    rw [Memory.forwardChase_eq]
    apply Memory.rename_congr
    intro x hx
    unfold Memory.destination
    rw [hmc x (hvalid w (kept_words hw) x hx)]
  have hslid := hf.slide hw hr
  obtain ⟨m', hrestore, hrel, -, hheaders⟩ := Relocated.restoreMarks hw (hf.placed hw) f.afterOld.1 rfl
    (fun a ha => ha) hn (fun a ha k hk t => hf.kept ha hk t) hslid
  refine ⟨m₁, f, m', hf, ?_, hrel, hheaders⟩
  have hplan : (v.alive m r.strong v.objects).map (v.entry f.afterOld.1) = f.edenPlan ++ f.fromPlan ++ f.oldPlan := by
    rw [hf.edenPlan, hf.fromPlan, hf.oldPlan, alive_objects, map_append, map_append]
  rw [hplan] at hrewrite hrestore
  rw [Memory.restoreMarks_append, Memory.restoreMarks_append] at hrestore
  obtain ⟨m₃, hrestore, hrestore₃⟩ := bind_eq_some_iff.mp hrestore
  obtain ⟨m₄, hrestore₁, hrestore₂⟩ := bind_eq_some_iff.mp hrestore
  have hplain : Memory.mapRoots Memory.chase (v.kept m r).plain f.afterOld.1 () = _ :=
    Memory.mapRoots_chase fun w hw => hchase _ (fun _ _ => rfl) w (mem_append.mpr (.inl (mem_append.mpr (.inl hw))))
  have hcode := eachCodeRoot_chase (r := ⟨(v.kept m r).plain.map (Word.rename f.afterOld.1.destination),
    (v.kept m r).nmethods, (v.kept m r).code⟩) fun w hw' => hchase m₂ (fun x hx => hr.header hw hx) w (by
      unfold Roots.words
      rw [append_assoc]
      exact mem_append.mpr (.inr hw'))
  unfold Universe.fullGc
  simp only [hmark, weakSweep_kept hw hvalid hmarks, f.eden, f.survivors, f.old, hplain, hrewrite, hcode,
    hrestore₁, hrestore₂, hrestore₃, bind_eq_bind, bind_some, Option.pure_def]
  rfl

theorem plan_of_tiles {f : Nat → Nat} (ht : Tiles f v.bytes new l newTop) (hpos : ∀ a ∈ l, 0 < (v.shape a).size)
    (hfit : ∀ a ∈ l, (v.shape a).size < 2 ^ 32) :
    ∃ live, LiveObject.plan new live = l.map (fun a => ⟨a, f a, (v.shape a).size⟩) ∧
      LiveObject.placed new live = l.map (fun a => (f a, v.bytes a)) ∧ LiveObject.newTop new live = newTop ∧
      ∀ o ∈ live, o.Fits := by
  induction l generalizing new with
  | nil =>
    cases ht
    exact ⟨[], rfl, rfl, rfl, fun _ h => absurd h not_mem_nil⟩
  | cons a l ih =>
    cases ht with
    | cons hs _ ht =>
      obtain ⟨hp, hpos⟩ := forall_mem_cons.mp hpos
      obtain ⟨hf, hfit⟩ := forall_mem_cons.mp hfit
      obtain ⟨live, hplan, hplaced, htop, hlive⟩ := ih ht hpos hfit
      have hwords : (v.shape a).size * wordSize = v.bytes a := rfl
      refine ⟨⟨a, (v.shape a).size, hp⟩ :: live, ?_, ?_, ?_, forall_mem_cons.mpr ⟨hf, hlive⟩⟩
      · rw [LiveObject.plan, hwords, hplan, map_cons, hs, Nat.mod_eq_of_lt hf]
      · rw [LiveObject.placed, hwords, hplaced, map_cons, hs]
      · rw [LiveObject.newTop, hwords, htop]

theorem Forwards.resolves {m₁ : Memory} {f : u.Forwarded m₁} (hw : v.WellFormed m u)
    (h : v.Forwards m u roots m₁ f) : f.spaces.post.Resolves
      ((v.alive m roots v.old).map fun a => (f.afterOld.1.destination a, v.bytes a)) := by
  have hobj : ∀ a ∈ v.alive m roots v.old, a ∈ v.objects := fun a ha => mem_objects.mpr (.inr (mem_alive.mp ha).1)
  obtain ⟨live, hplan, hplaced, htop, hfit⟩ := plan_of_tiles h.old.tiles
    (fun a ha => by have := hw.size_ge (hobj a ha); omega) fun a ha => hw.sizes a (hobj a ha)
  have hsound := (OldHeap.Sound.compact ⟨u, []⟩ hfit).resolves
  obtain ⟨offsets, hslide⟩ := u.slideOld_eq f.oldPlan
  have hsame : u.slideOld (LiveObject.plan u.old.start live) = u.slideOld f.oldPlan := by
    rw [hplan, h.oldPlan]
    rfl
  have hcompact : (OldHeap.compact ⟨u, []⟩ live).u = (u.slideOld f.oldPlan).atTop f.oldTop := by
    unfold OldHeap.compact
    rw [hsame, htop]
  have hobjects : (OldHeap.compact ⟨u, []⟩ live).objects = (v.alive m roots v.old).map fun a =>
      (f.afterOld.1.destination a, v.bytes a) := hplaced
  rw [hcompact, hobjects] at hsound
  refine hsound.congr ?_ ?_ ?_
  · rw [Universe.post_old]
    rfl
  · rw [Universe.post_old]
    rfl
  · rw [Universe.post_offsets]
    rfl

theorem Forwards.compacted (hw : v.WellFormed m u) {r : Roots} (hvalid : ∀ w ∈ r.words, v.Valid w) {m₁ m' : Memory}
    {f : u.Forwarded m₁} (hf : v.Forwards m u r.strong m₁ f)
    (hrel : v.Relocated m f.afterOld.1.destination (v.alive m r.strong v.objects) m')
    (hheaders : ∀ a ∈ v.alive m r.strong v.objects, ∀ k, m a = .mark k → ∃ t,
      m.hasUntaggedContents (v.shape a).klass = some t ∧
        m' (f.afterOld.1.destination a) = .mark (k.withTaggedContents !t)) :
    v.Compacted m u r.strong f.afterOld.1.destination m' f.spaces.post := by
  have hp := hf.placed hw
  obtain ⟨cards, hpost⟩ := Universe.post_eq f.spaces
  have hmem : ∀ a, v.Live m r.strong a → a ∈ v.alive m r.strong v.objects := fun a ha =>
    mem_alive.mpr ⟨live_object hw (fun w hw' => hvalid w (strong_subset r hw')) ha, ha⟩
  refine ⟨?_, ?_, ?_, fun a ha => hf.down (hmem a ha),
    fun a b ha hb he => ?_, fun a ha => hrel.object hw hp (hmem a ha), fun a ha k hk => hheaders a (hmem a ha) k hk,
    fun a ha j hj => hrel.oops a (hmem a ha) j hj, fun a ha j hj hlt hno => hrel.data a (hmem a ha) j hj hlt hno,
    hf.resolves hw, fun x hlow hhigh => ?_, ?_⟩
  · rw [hpost]
    exact hf.eden.tiles
  · rw [hpost]
    exact hf.survivors.tiles
  · rw [hpost]
    exact hf.old.tiles
  · have hsa := hw.size_ge (hp.objects a (hmem a ha))
    have hsb := hw.size_ge (hp.objects b (hmem b hb))
    exact (hp.apart a (hmem a ha) b (hmem b hb) 0 0 (by omega) (by omega) (by omega)).1
  · obtain ⟨offsets, hslide⟩ := u.slideOld_eq f.oldPlan
    have hstart : f.spaces.old.start = u.old.start := by rw [Universe.Forwarded.spaces, hslide]
    rw [Universe.post_old] at hhigh
    rw [Universe.post_cards]
    unfold Universe.cardIndex Universe.cardBase cardSize
    rw [Universe.post_old, hstart]
    exact .inl (by omega)
  · obtain ⟨offsets, hslide⟩ := u.slideOld_eq f.oldPlan
    rw [hpost, Universe.Forwarded.spaces, hslide]

/-- A full collection runs to its end and leaves the reachable objects, in their order, packed and
otherwise as they were. -/
theorem fullGc_compacts (hw : v.WellFormed m u) {r : Roots} (hvalid : ∀ w ∈ r.words, v.Valid w) :
    ∃ m' u' f, Universe.fullGc r m u = some ((v.kept m r).rename f, m', u') ∧ v.Compacted m u r.strong f m' u' := by
  obtain ⟨m₁, f, m', hf, hrun, hrel, hheaders⟩ := fullGc_spec hw hvalid
  exact ⟨m', f.spaces.post, f.afterOld.1.destination, hrun, hf.compacted hw hvalid hrel hheaders⟩

theorem staleRoots_words : ∀ w ∈ staleRoots.words, staleView.Valid w := by
  intro w hw x hx
  have hw : w = .mem 4128 := by simpa [staleRoots, Roots.words] using hw
  rw [hw] at hx
  cases hx
  decide

theorem fullGc_compacts_stale : ∃ m' u' f, Universe.fullGc staleRoots staleMemory (stale fun _ => false) =
      some ((staleView.kept staleMemory staleRoots).rename f, m', u') ∧
    staleView.Compacted staleMemory (stale fun _ => false) staleRoots.strong f m' u' :=
  fullGc_compacts (staleView_wellFormed _) staleRoots_words

end HeapView

end WinArmVm
