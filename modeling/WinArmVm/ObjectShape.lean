import WinArmVm.HeapObject

namespace WinArmVm

open List Option

structure Shape where
  klass : Nat
  format : Format
  nis : Nat
  len : Nat

def Format.indexable : Format → Bool
  | .slots | .klass | .double | .process => false
  | _ => true

namespace Shape

def size (s : Shape) : Nat :=
  match s.format with
  | .slots | .klass | .double | .process => s.nis
  | .indexableOops | .closure | .context => s.nis + 1 + s.len
  | .indexableBytes | .method => s.nis + 1 + (s.len + 7) / 8

def bytes (s : Shape) : Nat := s.size * wordSize

def bodyOops (s : Shape) : List Nat :=
  match s.format with
  | .slots | .klass | .indexableBytes | .method => List.range (s.nis - headerWords)
  | .double | .process => []
  | .indexableOops | .closure | .context =>
    List.range (s.nis - headerWords) ++ List.range' (s.nis - headerWords + 1) s.len

theorem bodyOops_lt {s : Shape} (h : 2 ≤ s.nis) {i : Nat} (hi : i ∈ s.bodyOops) :
    i + 2 < s.size ∧ (s.format.indexable = true → i ≠ s.nis - headerWords) := by
  unfold bodyOops at hi
  unfold size Format.indexable headerWords at *
  cases hf : s.format
  case double => simp [hf] at hi
  case process => simp [hf] at hi
  all_goals
    simp only [hf, mem_range, mem_append, mem_range'] at hi ⊢
    grind

theorem bodyOops_nodup (s : Shape) : s.bodyOops.Nodup := by
  have htail : (List.range (s.nis - headerWords) ++
      List.range' (s.nis - headerWords + 1) s.len).Nodup := by
    refine nodup_append.mpr ⟨nodup_range, nodup_range', fun i hi j hj => ?_⟩
    have hi := mem_range.mp hi
    obtain ⟨n, _, rfl⟩ := mem_range'.mp hj
    omega
  unfold bodyOops
  split
  all_goals first
    | exact nodup_range
    | exact nodup_nil
    | exact htail

theorem nis_le_size (s : Shape) : s.nis ≤ s.size := by
  unfold size
  split
  all_goals omega

theorem nis_lt_size {s : Shape} (h : s.format.indexable = true) : s.nis < s.size := by
  unfold size
  cases hf : s.format
  all_goals
    simp only [hf, Format.indexable, Bool.false_eq_true] at h ⊢
    try omega

end Shape

namespace Memory

variable {m : Memory} {a k : Nat} {s : Shape}

theorem bodyAddr_eq (a i : Nat) : bodyAddr a i = a + 8 * (i + 2) := by
  unfold bodyAddr
  omega

/-- Read through the klass at `k`, the object at `a` has the shape. -/
structure Reads (m : Memory) (a k : Nat) (s : Shape) : Prop where
  format : m.format k = some s.format
  nis : m.nonIndexableSize k = some s.nis
  nis_ge : 2 ≤ s.nis
  len : s.format.indexable = true → m.rawSizeSlot a s.nis = some s.len

theorem Reads.size (h : m.Reads a k s) : m.sizeWordsForKlass a k = some s.size := by
  have hlen := h.len
  unfold sizeWordsForKlass Shape.size
  rw [h.nis, h.format]
  cases hf : s.format
  all_goals
    rw [hf] at hlen
    simp only [Format.indexable, forall_const, Bool.false_eq_true, false_implies] at hlen
    simp only [bind_eq_bind, bind_some, Option.pure_def]
    try simp only [hlen, bind_some]

variable {m : Memory} {γ : Type} {f : Memory → γ → Word → Option (Word × Memory × γ)} {I : List Nat → Memory → γ → Prop}
  {g : γ}

theorem visitBody_rule {l : List Nat} (done : List Nat)
    (hstep : ∀ pre i post m g, l = pre ++ i :: post → I (done ++ pre) m g →
      ∃ w m' g', f m g (m.rawBodyWord a i) = some (w, m', g') ∧ I (done ++ (pre ++ [i])) (m'.setRawBodyWord a i w) g')
     (h : I done m g) :
    ∃ m' g', visitBody f a l m g = some (m', g') ∧ I (done ++ l) m' g' := by
  induction l generalizing m g done with
  | nil =>
    refine ⟨m, g, rfl, ?_⟩
    rw [append_nil]
    exact h
  | cons i rest ih =>
    obtain ⟨w, m₁, g₁, hf, h₁⟩ := hstep [] i rest m g rfl (by rw [append_nil]; exact h)
    have hih : ∃ m' g', visitBody f a rest (m₁.setRawBodyWord a i w) g₁ = some (m', g') ∧
        I (done ++ [i] ++ rest) m' g' := by
      apply ih (done ++ [i]) (fun pre j post m g hl hI => ?_) h₁
      have := hstep (i :: pre) j post m g (by rw [hl]; rfl)
      simp only [append_assoc, cons_append, nil_append] at this hI ⊢
      exact this hI
    obtain ⟨m', g', hv, hI⟩ := hih
    refine ⟨m', g', ?_, ?_⟩
    · unfold visitBody
      simp only [hf, bind_eq_bind, bind_some]
      exact hv
    · rw [append_assoc] at hI
      exact hI

theorem forEachOopField_rule (hstep : ∀ pre i post m g, s.bodyOops = pre ++ i :: post → I pre m g →
      ∃ w m' g', f m g (m.rawBodyWord a i) = some (w, m', g') ∧ I (pre ++ [i]) (m'.setRawBodyWord a i w) g')
    (hlen : ∀ pre m g, I pre m g → s.format.indexable = true → m.rawSizeSlot a s.nis = some s.len)
     (hr : m.Reads a k s) (h : I [] m g) :
    ∃ m' g', m.forEachOopField f g a k = some (m', g') ∧ I s.bodyOops m' g' := by
  have hplain : ∀ l, s.bodyOops = l →
      ∃ m' g', visitBody f a l m g = some (m', g') ∧ I s.bodyOops m' g' := by
    intro l hl
    have := visitBody_rule (I := I) (l := l) [] (fun pre i post m g he hI => hstep pre i post m g (by rw [hl, he]) hI) h
    rw [hl]
    exact this
  have htail : ∀ tail, s.bodyOops = List.range (s.nis - headerWords) ++ tail →
      ∃ m₁ g₁ m' g', visitBody f a (List.range (s.nis - headerWords)) m g = some (m₁, g₁) ∧
        I (List.range (s.nis - headerWords)) m₁ g₁ ∧
        visitBody f a tail m₁ g₁ = some (m', g') ∧ I s.bodyOops m' g' := by
    intro tail hl
    obtain ⟨m₁, g₁, h₁, hI₁⟩ := visitBody_rule (I := I) (l := List.range (s.nis - headerWords)) []
      (fun pre i post m g he hI => hstep pre i (post ++ tail) m g (by rw [hl, he, append_assoc, cons_append]) hI) h
    obtain ⟨m₂, g₂, h₂, hI₂⟩ := visitBody_rule (I := I) (l := tail) (List.range (s.nis - headerWords))
      (fun pre i post m g he hI => by
        have := hstep (List.range (s.nis - headerWords) ++ pre) i post m g (by rw [hl, he, append_assoc]) hI
        rw [append_assoc] at this
        exact this) hI₁
    refine ⟨m₁, g₁, m₂, g₂, h₁, hI₁, h₂, ?_⟩
    rw [hl]
    exact hI₂
  unfold forEachOopField
  rw [hr.nis, hr.format]
  simp only [bind_eq_bind, bind_some]
  cases hf : s.format
  all_goals dsimp only
  case slots => exact hplain _ (by unfold Shape.bodyOops; rw [hf])
  case klass => exact hplain _ (by unfold Shape.bodyOops; rw [hf])
  case indexableBytes => exact hplain _ (by unfold Shape.bodyOops; rw [hf])
  case method => exact hplain _ (by unfold Shape.bodyOops; rw [hf])
  case double => exact hplain [] (by unfold Shape.bodyOops; rw [hf])
  case process => exact hplain [] (by unfold Shape.bodyOops; rw [hf])
  all_goals
    obtain ⟨m₁, g₁, m', g', h₁, hI₁, h₂, hI₂⟩ := htail _ (by unfold Shape.bodyOops; rw [hf])
    have hl := hlen _ m₁ g₁ hI₁ (by unfold Format.indexable; rw [hf])
    exact ⟨m', g', by simp only [h₁, hl, bind_some, h₂], hI₂⟩

theorem mapRoots_rule {I : Memory → γ → Prop} {R : Memory → γ → Word → Word → Prop} {ws : List Word}
    (hstep : ∀ w ∈ ws, ∀ m g, I m g → ∃ w' m' g', f m g w = some (w', m', g') ∧ I m' g' ∧ R m' g' w w' ∧
        ∀ v v', R m g v v' → R m' g' v v')
     (h : I m g) :
    ∃ ws' m' g', mapRoots f ws m g = some (ws', m', g') ∧ I m' g' ∧
      List.Forall₂ (R m' g') ws ws' ∧ ∀ v v', R m g v v' → R m' g' v v' := by
  induction ws generalizing m g with
  | nil => exact ⟨[], m, g, rfl, h, List.Forall₂.nil, fun _ _ h => h⟩
  | cons w rest ih =>
    obtain ⟨w', m₁, g₁, hf, h₁, hR, hmono⟩ := hstep w mem_cons_self m g h
    obtain ⟨ws', m₂, g₂, hr, h₂, hRs, hmono₂⟩ := ih (fun v hv => hstep v (mem_cons_of_mem w hv)) h₁
    refine ⟨w' :: ws', m₂, g₂, ?_, h₂, List.Forall₂.cons (hmono₂ w w' hR) hRs,
      fun v v' hv => hmono₂ v v' (hmono v v' hv)⟩
    unfold mapRoots
    simp only [hf, hr, bind_eq_bind, bind_some, Option.pure_def]

end Memory

end WinArmVm
