import WinArmVm.FullGc
import WinArmVm.HeapInvariant

namespace WinArmVm

open List Option Function Memory

namespace Memory

/-- Only words that held a mark have changed. -/
def HeadersOnly (m m' : Memory) : Prop := ∀ x, m' x = m x ∨ ∃ k, m x = .mark k

namespace HeadersOnly

variable {m m' m'' : Memory} {a k x n : Nat}

section

variable (h : m.HeadersOnly m')

include h

theorem trans (h' : m'.HeadersOnly m'') : m.HeadersOnly m'' := by
  intro x
  rcases h x with he | hk
  · rcases h' x with he' | ⟨k, hk⟩
    · exact .inl (he'.trans he)
    · exact .inr ⟨k, by rw [← he, hk]⟩
  · exact .inr hk

omit h in
theorem write {mark : Mark} (hm : m a = .mark mark) (w : Word) : m.HeadersOnly (m.write a w) := by
  intro x
  by_cases hx : x = a
  · rw [hx]
    exact .inr ⟨mark, hm⟩
  · refine .inl ?_
    unfold Memory.write
    exact update_of_ne hx w m

theorem mem {d : Nat} (hm : m x = .mem d) : m' x = .mem d := by
  rcases h x with he | ⟨k, hk⟩
  · rw [he, hm]
  · rw [hm] at hk
    cases hk

theorem smi {i : Int} (hm : m x = .smi i) : m' x = .smi i := by
  rcases h x with he | ⟨k, hk⟩
  · rw [he, hm]
  · rw [hm] at hk
    cases hk

theorem count (hm : Memory.count (m x) = some n) : Memory.count (m' x) = some n := by
  rcases h x with he | ⟨k, hk⟩
  · rw [he, hm]
  · rw [hk] at hm
    cases hm

theorem formatSmiValue {i : Int} (hm : m.formatSmiValue k = some i) : m'.formatSmiValue k = some i := by
  unfold Memory.formatSmiValue rawBodyWord at hm ⊢
  split at hm
  next v hv =>
    cases hm
    rw [h.smi hv]
  next => cases hm

theorem format {f : Format} (hm : m.format k = some f) : m'.format k = some f := by
  unfold Memory.format at hm ⊢
  obtain ⟨i, hi, hf⟩ := bind_eq_some_iff.mp hm
  rw [h.formatSmiValue hi]
  exact hf

theorem klassTryFrom {w : Word} (hm : m.klassTryFrom w = some k) : m'.klassTryFrom w = some k := by
  unfold Memory.klassTryFrom klassOop at hm ⊢
  cases w with
  | mem c =>
    dsimp only at hm ⊢
    split at hm
    next kk hkk =>
      obtain ⟨hf, hm⟩ := ite_none_right_eq_some.mp hm
      rw [h.mem hkk]
      dsimp only
      rw [if_pos (h.format hf)]
      exact hm
    next => cases hm
  | smi i => cases hm
  | mark k => cases hm
  | bits b => cases hm

theorem klass (hm : m.klass a = some k) : m'.klass a = some k := by
  unfold Memory.klass at hm ⊢
  have hfield : ∃ c, m.klassOop a = .mem c := by
    unfold Memory.klassTryFrom at hm
    split at hm
    next c hc => exact ⟨c, hc⟩
    next => cases hm
  obtain ⟨c, hc⟩ := hfield
  have hc' : m'.klassOop a = .mem c := h.mem hc
  rw [hc] at hm
  rw [hc']
  exact h.klassTryFrom hm

theorem reads {s : Shape} (hr : m.Reads a k s) : m'.Reads a k s where
  format := h.format hr.format
  nis := h.count hr.nis
  nis_ge := hr.nis_ge
  len hi := h.count (hr.len hi)

end

end HeadersOnly

end Memory

namespace HeapView

/-- Reachable from the roots: the klass field and the body's oops lead on. -/
inductive Live (v : HeapView) (m : Memory) (roots : List Word) : Nat → Prop
  | root {a : Nat} (h : .mem a ∈ roots) : v.Live m roots a
  | child {a j x : Nat} (ha : v.Live m roots a) (hj : j ∈ v.oopWords a) (hx : m (a + 8 * j) = .mem x) : v.Live m roots x

/-- The memory of a mark pass over `m`: the objects scanned and stacked are marked, the rest is as it was. -/
structure Marked (v : HeapView) (m : Memory) (roots : List Word) (done stack : List Nat) (m' : Memory) : Prop where
  same : ∀ x, x ∉ v.objects → m' x = m x
  marks : ∀ a ∈ v.objects, ∀ k, m a = .mark k → m' a = .mark (if a ∈ done ++ stack then k.withGcMark true else k)
  nodup : (done ++ stack).Nodup
  objects : ∀ a ∈ done ++ stack, a ∈ v.objects
  live : ∀ a ∈ done ++ stack, v.Live m roots a

def Scanned (v : HeapView) (m : Memory) (marked : List Nat) (a : Nat) : Prop :=
  ∀ j ∈ v.oopWords a, ∀ x, m (a + 8 * j) = .mem x → x ∈ marked

variable {v : HeapView} {m m' : Memory} {u : Universe} {roots : List Word} {done stack : List Nat} {a : Nat}

namespace WellFormed

theorem instanceSizeWords (hw : v.WellFormed m u) (ha : a ∈ v.objects) (h : m.HeadersOnly m') :
    m'.instanceSizeWords a = some (v.shape a).size := by
  unfold Memory.instanceSizeWords
  rw [h.klass (hw.klass ha)]
  exact (h.reads (hw.shaped a ha).reads).size

end WellFormed

namespace Marked

theorem start (v : HeapView) (m : Memory) (roots : List Word) : v.Marked m roots [] [] m where
  same _ _ := rfl
  marks a _ k hk := by simp [hk]
  nodup := nodup_nil
  objects a ha := by cases ha
  live a ha := by cases ha

theorem headersOnly (hw : v.WellFormed m u) (h : v.Marked m roots done stack m') : m.HeadersOnly m' := by
  intro x
  by_cases hx : x ∈ v.objects
  · obtain ⟨k, hk, -⟩ := hw.marks x hx
    exact .inr ⟨k, hk⟩
  · exact .inl (h.same x hx)

theorem pop (h : v.Marked m roots done (a :: stack) m') : v.Marked m roots (a :: done) stack m' := by
  have hmem (x : Nat) : x ∈ a :: done ++ stack ↔ x ∈ done ++ a :: stack := by
    simp only [mem_append, mem_cons]
    tauto
  refine ⟨h.same, fun b hb k hk => ?_, ?_, fun b hb => h.objects b ((hmem b).mp hb),
    fun b hb => h.live b ((hmem b).mp hb)⟩
  · rw [h.marks b hb k hk]
    simp only [hmem b]
  · exact nodup_middle.mp h.nodup

theorem cons (h : v.Marked m roots done stack m') (ha : a ∈ v.objects) {k : Mark} (hk : m a = .mark k)
    (hin : a ∉ done ++ stack) (hlive : v.Live m roots a) :
    v.Marked m roots done (a :: stack) (m'.setMark a (k.withGcMark true)) := by
  have hmem (x : Nat) : x ∈ done ++ a :: stack ↔ x = a ∨ x ∈ done ++ stack := by
    simp only [mem_append, mem_cons]
    tauto
  refine ⟨fun x hx => ?_, fun b hb k' hk' => ?_, ?_, fun b hb => ?_, fun b hb => ?_⟩
  · have hne : x ≠ a := fun he => hx (he ▸ ha)
    unfold setMark write
    rw [update_of_ne hne]
    exact h.same x hx
  · unfold setMark write
    by_cases hba : b = a
    · subst hba
      cases hk.symm.trans hk'
      rw [update_self, if_pos ((hmem b).mpr (.inl rfl))]
    · rw [update_of_ne hba, h.marks b hb k' hk']
      simp only [hmem b, hba, false_or]
  · exact nodup_middle.mpr (nodup_cons.mpr ⟨hin, h.nodup⟩)
  · rcases (hmem b).mp hb with rfl | hb
    · exact ha
    · exact h.objects b hb
  · rcases (hmem b).mp hb with rfl | hb
    · exact hlive
    · exact h.live b hb

theorem push (hw : v.WellFormed m u) (h : v.Marked m roots done stack m') {w : Word} (hvalid : v.Valid w)
    (hlive : ∀ x, w = .mem x → v.Live m roots x) (bytes : Nat) :
    ∃ m'' more bytes', m'.markPush ⟨stack, bytes⟩ w = some (w, m'', ⟨more ++ stack, bytes'⟩) ∧
      v.Marked m roots done (more ++ stack) m'' ∧ ∀ x, w = .mem x → x ∈ done ++ (more ++ stack) := by
  cases w with
  | mem a =>
    have ha := hvalid a rfl
    obtain ⟨k, hk, hclear⟩ := hw.marks a ha
    have hmark := h.marks a ha k hk
    by_cases hin : a ∈ done ++ stack
    · have hread : m'.markAt a = some (k.withGcMark true) := by
        unfold markAt
        rw [hmark, if_pos hin]
      unfold markPush
      simp only [hread, bind_eq_bind, bind_some, Option.pure_def]
      rw [if_pos (show (k.withGcMark true).gcMark = true from rfl)]
      refine ⟨m', [], bytes, rfl, h, fun x hx => ?_⟩
      cases hx
      exact hin
    · have hread : m'.markAt a = some k := by
        unfold markAt
        rw [hmark, if_neg hin]
      unfold markPush
      simp only [hread, bind_eq_bind, bind_some, Option.pure_def]
      rw [if_neg (by rw [hclear]; decide)]
      have hwrite : m'.HeadersOnly (m'.setMark a (k.withGcMark true)) := by
        unfold setMark
        exact Memory.HeadersOnly.write (hmark.trans (by rw [if_neg hin])) _
      have hsize := hw.instanceSizeWords ha ((h.headersOnly hw).trans hwrite)
      rw [hsize]
      refine ⟨_, [a], bytes + (v.shape a).size * wordSize, rfl, ?_, fun x hx => ?_⟩
      · exact h.cons ha hk hin (hlive a rfl)
      · cases hx
        simp
  | smi i => exact ⟨m', [], bytes, rfl, h, fun x hx => by cases hx⟩
  | mark k => exact ⟨m', [], bytes, rfl, h, fun x hx => by cases hx⟩
  | bits b => exact ⟨m', [], bytes, rfl, h, fun x hx => by cases hx⟩

theorem word (hw : v.WellFormed m u) (h : v.Marked m roots done stack m') (ha : a ∈ v.objects) {j : Nat}
    (hj : 1 ≤ j) (hlt : j < (v.shape a).size) : m' (a + 8 * j) = m (a + 8 * j) := by
  apply h.same
  intro hmem
  have hsize := hw.size_ge hmem
  obtain ⟨-, hzero⟩ := hw.word_inj (i := j) (j := 0) ha hmem hlt (by omega) (by omega)
  omega

/-- The object at `a` is being scanned, the body words `pre` have been. -/
structure Scanning (v : HeapView) (m : Memory) (roots : List Word) (done stack : List Nat) (a : Nat) (pre : List Nat)
    (m' : Memory) (g : Marking) : Prop where
  marked : v.Marked m roots done g.stack m'
  grown : ∃ more, g.stack = more ++ stack
  klassField : ∀ x, m (a + 8 * 1) = .mem x → x ∈ done ++ g.stack
  words : ∀ i ∈ pre, ∀ x, m (a + 8 * (i + 2)) = .mem x → x ∈ done ++ g.stack

theorem Scanning.step (hw : v.WellFormed m u) {pre : List Nat} {g : Marking} {i : Nat}
    (h : Scanning v m roots done stack a pre m' g) (ha : a ∈ done) (hi : i ∈ (v.shape a).bodyOops) :
    ∃ w m'' g', m'.markPush g (m'.rawBodyWord a i) = some (w, m'', g') ∧
      Scanning v m roots done stack a (pre ++ [i]) (m''.setRawBodyWord a i w) g' := by
  have hobj := h.marked.objects a (mem_append.mpr (.inl ha))
  have hlive := h.marked.live a (mem_append.mpr (.inl ha))
  have hj := body_mem_oopWords.mpr hi
  have hlt := (oopWords_lt (hw.nis_ge hobj) hj).2
  have hread : m'.rawBodyWord a i = m (a + 8 * (i + 2)) := by
    unfold rawBodyWord
    rw [bodyAddr_eq]
    exact h.marked.word hw hobj (by omega) hlt
  obtain ⟨more, hmore⟩ := h.grown
  obtain ⟨m'', more', bytes', hpush, hmarked, hin⟩ := h.marked.push hw (hw.slots a hobj _ hj)
    (fun x hx => Live.child hlive hj hx) g.markedBytes
  have hsame : m''.setRawBodyWord a i (m (a + 8 * (i + 2))) = m'' := by
    unfold setRawBodyWord write
    rw [bodyAddr_eq, ← hmarked.word hw hobj (by omega) hlt]
    exact update_eq_self _ _
  refine ⟨m (a + 8 * (i + 2)), m'', ⟨more' ++ g.stack, bytes'⟩, ?_, ?_⟩
  · rw [hread]
    exact hpush
  · rw [hsame]
    have hmono : ∀ x ∈ done ++ g.stack, x ∈ done ++ (more' ++ g.stack) := by
      intro x hx
      simp only [mem_append] at hx ⊢
      tauto
    refine ⟨hmarked, ⟨more' ++ more, by rw [hmore, append_assoc]⟩,
      fun x hx => hmono x (h.klassField x hx), fun i' hi' x hx => ?_⟩
    rcases mem_append.mp hi' with hi' | hi'
    · exact hmono x (h.words i' hi' x hx)
    · cases mem_singleton.mp hi'
      exact hin x hx

theorem object (hw : v.WellFormed m u) (h : v.Marked m roots done (a :: stack) m') (bytes : Nat) :
    ∃ m'' g', m'.markObject ⟨stack, bytes⟩ a = some (m'', g') ∧ v.Marked m roots (a :: done) g'.stack m'' ∧
      (∃ more, g'.stack = more ++ stack) ∧ v.Scanned m (a :: done ++ g'.stack) a := by
  have hp := h.pop
  have hobj := hp.objects a (mem_append.mpr (.inl mem_cons_self))
  have hlive := hp.live a (mem_append.mpr (.inl mem_cons_self))
  have hs := hw.shaped a hobj
  have hone : 1 ∈ v.oopWords a := mem_cons_self
  have hlt := (oopWords_lt (hw.nis_ge hobj) hone).2
  have hfield : m'.klassOop a = .mem (v.shape a).klass := (hp.word hw hobj (Nat.le_refl 1) hlt).trans hs.klass
  obtain ⟨m₁, more, bytes₁, hpush, hm₁, hin⟩ := hp.push hw (w := .mem (v.shape a).klass)
    (fun x hx => by cases hx; exact hs.klass_mem) (fun x hx => Live.child hlive hone (hs.klass.trans hx)) bytes
  have hheaders := hm₁.headersOnly hw
  have hklass : m₁.klassTryFrom (.mem (v.shape a).klass) = some (v.shape a).klass := by
    apply hheaders.klassTryFrom
    have := hw.klass hobj
    unfold klass at this
    rw [hs.klass] at this
    exact this
  have hstart : Scanning v m roots (a :: done) stack a [] m₁ ⟨more ++ stack, bytes₁⟩ := by
    refine ⟨hm₁, ⟨more, rfl⟩, fun x hx => ?_, fun i hi => by cases hi⟩
    exact hin x (by rw [← hs.klass]; exact hx)
  obtain ⟨m'', g', hvisit, hend⟩ := forEachOopField_rule
    (I := fun pre m' g => Scanning v m roots (a :: done) stack a pre m' g)
    (fun pre i post m' g he hI => hI.step hw mem_cons_self (by rw [he]; simp))
    (fun pre m' g hI hi => ((hI.marked.headersOnly hw).reads hs.reads).len hi)
    (hheaders.reads hs.reads) hstart
  refine ⟨m'', g', ?_, hend.marked, hend.grown, ?_⟩
  · unfold markObject
    simp only [hfield, hpush, hklass, bind_eq_bind, bind_some]
    exact hvisit
  · intro j hj x hx
    rcases mem_cons.mp hj with rfl | hj
    · exact hend.klassField x hx
    · obtain ⟨i, hi, rfl⟩ := mem_map.mp hj
      exact hend.words i hi x hx

theorem loop (hw : v.WellFormed m u) {fuel : Nat} (bytes : Nat) (h : v.Marked m roots done stack m')
    (hscanned : ∀ a ∈ done, v.Scanned m (done ++ stack) a) (hfuel : v.objects.length < fuel + done.length) :
    ∃ done' m'' g', Memory.markLoop fuel m' ⟨stack, bytes⟩ = some (m'', g') ∧ v.Marked m roots done' [] m'' ∧
      (∀ a ∈ done', v.Scanned m done' a) ∧ ∀ a ∈ done ++ stack, a ∈ done' := by
  have hlen : (done ++ stack).length ≤ v.objects.length := h.nodup.subperm (fun a ha => h.objects a ha) |>.length_le
  rw [length_append] at hlen
  induction fuel generalizing done stack m' bytes with
  | zero => omega
  | succ fuel ih =>
    cases stack with
    | nil =>
      rw [append_nil] at hscanned
      exact ⟨done, m', _, rfl, h, hscanned, fun a ha => by rwa [append_nil] at ha⟩
    | cons a stack =>
      obtain ⟨m₁, g₁, hobject, hm₁, ⟨more, hmore⟩, hscan⟩ := h.object hw bytes
      have hmono : ∀ x ∈ done ++ a :: stack, x ∈ a :: done ++ g₁.stack := by
        intro x hx
        rw [hmore]
        simp only [mem_append, mem_cons] at hx ⊢
        tauto
      have hscanned₁ : ∀ b ∈ a :: done, v.Scanned m (a :: done ++ g₁.stack) b := by
        intro b hb
        rcases mem_cons.mp hb with rfl | hb
        · exact hscan
        · exact fun j hj x hx => hmono x (hscanned b hb j hj x hx)
      have hlen₁ : (a :: done ++ g₁.stack).length ≤ v.objects.length :=
        (hm₁.nodup.subperm fun b hb => hm₁.objects b hb).length_le
      rw [length_append] at hlen₁
      obtain ⟨done', m'', g', hloop, hmarked, hdone, hsub⟩ := ih g₁.markedBytes hm₁ hscanned₁
        (by rw [length_cons]; omega) hlen₁
      refine ⟨done', m'', g', ?_, hmarked, hdone, fun x hx => hsub x (hmono x hx)⟩
      unfold markLoop
      simp only [hobject, bind_eq_bind, bind_some]
      exact hloop

theorem pushRoots (hw : v.WellFormed m u) {roots : List Word} (hvalid : ∀ w ∈ roots, v.Valid w) :
    ∃ ws m' g, Memory.mapRoots Memory.markPush roots m ⟨[], 0⟩ = some (ws, m', g) ∧
      v.Marked m roots [] g.stack m' ∧ ∀ x, .mem x ∈ roots → x ∈ g.stack := by
  have hstep : ∀ w ∈ roots, ∀ m₁ (g₁ : Marking), v.Marked m roots [] g₁.stack m₁ →
      ∃ w' m₂ g₂, markPush m₁ g₁ w = some (w', m₂, g₂) ∧ v.Marked m roots [] g₂.stack m₂ ∧
        (∀ x, w = .mem x → x ∈ g₂.stack) ∧
        ∀ b _ : Word, (∀ x, b = .mem x → x ∈ g₁.stack) → ∀ x, b = .mem x → x ∈ g₂.stack := by
    intro w hw' m₁ g₁ h₁
    obtain ⟨m₂, more, bytes, hpush, hm₂, hx⟩ := h₁.push hw (hvalid w hw')
      (fun x hx => Live.root (hx ▸ hw')) g₁.markedBytes
    refine ⟨w, m₂, _, hpush, hm₂, hx, fun b _ hold x hx' => ?_⟩
    exact mem_append.mpr (.inr (hold x hx'))
  obtain ⟨ws, m', g, hmap, hmarked, hin, -⟩ := mapRoots_rule
    (I := fun m' (g : Marking) => v.Marked m roots [] g.stack m')
    (R := fun _ (g : Marking) w _ => ∀ x, w = .mem x → x ∈ g.stack) hstep
    (show v.Marked m roots [] (⟨[], 0⟩ : Marking).stack m from Marked.start v m roots)
  refine ⟨ws, m', g, hmap, hmarked, fun x hx => ?_⟩
  obtain ⟨i, hi, he⟩ := getElem_of_mem hx
  exact hin.get hi (hin.length_eq ▸ hi) x he

end Marked

theorem mark_marks (hw : v.WellFormed m u) {r : Roots} (hvalid : ∀ w ∈ r.strong, v.Valid w) :
    ∃ m₁ g, Universe.mark r m u = some (m₁, g) ∧ (∀ x, x ∉ v.objects → m₁ x = m x) ∧
      ∀ a ∈ v.objects, ∀ k, m a = .mark k → ∃ b, m₁ a = .mark (k.withGcMark b) ∧ (b = true ↔ v.Live m r.strong a) := by
  obtain ⟨ws, m', g, hroots, hm', hin⟩ := Marked.pushRoots hw hvalid
  have hfuel : v.objects.length < u.markFuel + ([] : List Nat).length := by
    have heden := hw.eden.length_le
    have hfrom := hw.survivors.length_le
    have hold := hw.old.length_le
    have hlen : v.objects.length = v.eden.length + v.survivors.length + v.old.length := by
      unfold objects young
      rw [length_append, length_append]
    unfold Universe.markFuel
    rw [hlen, length_nil]
    omega
  obtain ⟨done, m₁, g₁, hloop, hmarked, hscanned, hsub⟩ := hm'.loop hw g.markedBytes (fun a ha => by cases ha) hfuel
  have hlive (a : Nat) : v.Live m r.strong a → a ∈ done := by
    intro h
    induction h with
    | root h => exact hsub _ (hin _ h)
    | child _ hj hx ih => exact hscanned _ ih _ hj _ hx
  refine ⟨m₁, g₁, ?_, hmarked.same, fun a ha k hk => ?_⟩
  · unfold Universe.mark
    simp only [hroots, bind_eq_bind, bind_some]
    exact hloop
  · obtain ⟨k', hk', hclear⟩ := hw.marks a ha
    cases (hk.symm.trans hk')
    have hmark := hmarked.marks a ha k hk
    rw [append_nil] at hmark
    by_cases hd : a ∈ done
    · rw [if_pos hd] at hmark
      have hl := hmarked.live a (by rw [append_nil]; exact hd)
      exact ⟨true, hmark, ⟨fun _ => hl, fun _ => rfl⟩⟩
    · rw [if_neg hd] at hmark
      have hsame : k.withGcMark false = k := by
        unfold Mark.withGcMark
        rw [← hclear]
      exact ⟨false, hsame ▸ hmark, ⟨fun h => absurd h Bool.false_ne_true, fun h => absurd (hlive a h) hd⟩⟩

end HeapView

end WinArmVm
