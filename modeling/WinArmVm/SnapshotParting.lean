import WinArmVm.ProfileSnapshot

namespace WinArmVm

open List Bytecode Option

def Diverge (bytes bytes' : List UInt8) : Prop :=
  ∃ common x y rest rest', x ≠ y ∧ bytes = common ++ x :: rest ∧ bytes' = common ++ y :: rest'

variable {bytes bytes' : List UInt8}

theorem Diverge.ne (h : Diverge bytes bytes') : bytes ≠ bytes' := by
  obtain ⟨common, x, y, rest, rest', hne, rfl, rfl⟩ := h
  intro he
  have he := append_cancel_left he
  exact hne (List.cons.inj he).1

theorem Diverge.append (h : Diverge bytes bytes') (more more' : List UInt8) :
    Diverge (bytes ++ more) (bytes' ++ more') := by
  obtain ⟨common, x, y, rest, rest', hne, rfl, rfl⟩ := h
  exact ⟨common, x, y, rest ++ more, rest' ++ more', hne, by simp, by simp⟩

structure SnapshotWalk.Grows (w w' : SnapshotWalk) : Prop where
  bytes : ∃ more, w'.bytes = w.bytes ++ more
  visited : ∀ m ∈ w.visited, m ∈ w'.visited

namespace SnapshotWalk

variable (w : SnapshotWalk)

theorem Grows.refl : w.Grows w := ⟨⟨[], (List.append_nil _).symm⟩, fun _ h => h⟩

theorem Grows.trans {w₁ w₂ w₃ : SnapshotWalk} (h : w₁.Grows w₂) (h' : w₂.Grows w₃) : w₁.Grows w₃ := by
  obtain ⟨more, hb⟩ := h.bytes
  obtain ⟨more', hb'⟩ := h'.bytes
  refine ⟨⟨more ++ more', ?_⟩, fun m hm => h'.visited m (h.visited m hm)⟩
  rw [hb', hb, append_assoc]

theorem grows_fold (bytes : List UInt8) : w.Grows (w.fold bytes) := ⟨⟨bytes, rfl⟩, fun _ h => h⟩

theorem grows_visit (m : MethodOop) (bytes : List UInt8) :
    w.Grows ({ w with visited := w.visited ++ [m] }.fold bytes) :=
  ⟨⟨bytes, rfl⟩, fun _ h => mem_append_left _ h⟩

end SnapshotWalk

theorem Diverge.grows {w w' v v' : SnapshotWalk} (h : Diverge w.bytes w'.bytes) (hw : w.Grows v) (hw' : w'.Grows v') :
    Diverge v.bytes v'.bytes := by
  obtain ⟨more, hb⟩ := hw.bytes
  obtain ⟨more', hb'⟩ := hw'.bytes
  rw [hb, hb']
  exact h.append more more'

namespace CallSites

open SnapshotWalk

variable {turns depth : Nat} {w w' : SnapshotWalk} {g : CallSites} {m : MethodOop}

theorem snapshotInto_grows (turns : Nat) : ∀ (depth : Nat) (m : MethodOop) (w w' : SnapshotWalk),
    g.snapshotInto turns depth m w = some w' → w.Grows w' := by
  induction turns with
  | zero => exact fun _ _ _ _ h => nomatch h
  | succ turns ih =>
    intro depth m w w' h
    unfold snapshotInto at h
    split at h
    next =>
      cases h
      exact Grows.refl w
    next =>
      obtain ⟨is, _, h⟩ := bind_eq_some_iff.mp h
      refine (w.grows_visit m _).trans (DepthFirst.foldlM_related Grows.refl (fun _ _ _ => Grows.trans) is ?_ _ _ h)
      intro i _ s t hs
      rw [snapshotInstr_eq] at hs
      exact (s.grows_fold _).trans
        (DepthFirst.foldlM_related Grows.refl (fun _ _ _ => Grows.trans) _ (fun m _ s t => ih _ m s t) _ _ hs)

theorem each_grows {targets : List MethodOop}
    (h : targets.foldlM (fun w target => g.snapshotInto turns depth target w) w = some w') : w.Grows w' :=
  DepthFirst.foldlM_related Grows.refl (fun _ _ _ => Grows.trans) _
    (fun m _ s t => snapshotInto_grows turns _ m s t) _ _ h

theorem snapshotInstr_grows {i : Instr}
    (h : g.snapshotInstr (g.snapshotInto turns) m depth w i = some w') : w.Grows w' := by
  rw [snapshotInstr_eq] at h
  exact (w.grows_fold _).trans (each_grows h)

/-- An instruction of a method is folded in alike, and followed to the same methods. -/
structure SameSites (g g' : CallSites) (m : MethodOop) (i : Instr) : Prop where
  bytes : g'.siteBytes m i = g.siteBytes m i
  followed : ∀ depth, g'.followed m depth i = g.followed m depth i

def SameAhead (g g' : CallSites) (w : SnapshotWalk) : Prop := ∀ m, m ∉ w.visited → ∀ i ∈ g.instrs m, SameSites g g' m i

variable {g g' : CallSites}

theorem SameAhead.grows (h : SameAhead g g' w) (hw : w.Grows w') : SameAhead g g' w' :=
  fun m hm => h m fun hv => hm (hw.visited m hv)

theorem each_congr (hinto : ∀ m w, SameAhead g g' w →
      g'.snapshotInto turns depth m w = g.snapshotInto turns depth m w) (targets : List MethodOop) :
    ∀ w, SameAhead g g' w → targets.foldlM (fun w target => g'.snapshotInto turns depth target w) w =
      targets.foldlM (fun w target => g.snapshotInto turns depth target w) w := by
  induction targets with
  | nil => exact fun _ _ => rfl
  | cons target rest ih =>
    intro w hw
    rw [foldlM_cons, foldlM_cons, hinto target w hw]
    cases ht : g.snapshotInto turns depth target w with
    | none => rfl
    | some w₁ => exact ih w₁ (hw.grows (snapshotInto_grows turns _ _ _ _ ht))

theorem snapshotInstr_congr (hinto : ∀ m w, SameAhead g g' w →
      g'.snapshotInto turns (deeper depth) m w = g.snapshotInto turns (deeper depth) m w) {i : Instr}
    (hi : SameSites g g' m i) {w : SnapshotWalk} (hw : SameAhead g g' w) :
    g'.snapshotInstr (g'.snapshotInto turns) m depth w i = g.snapshotInstr (g.snapshotInto turns) m depth w i := by
  rw [snapshotInstr_eq, snapshotInstr_eq, hi.bytes, hi.followed]
  exact each_congr hinto _ _ hw

theorem instrs_congr (hinto : ∀ m w, SameAhead g g' w →
      g'.snapshotInto turns (deeper depth) m w = g.snapshotInto turns (deeper depth) m w) (m : MethodOop)
    (is : List Instr) : (∀ i ∈ is, SameSites g g' m i) → ∀ w, SameAhead g g' w →
      is.foldlM (g'.snapshotInstr (g'.snapshotInto turns) m depth) w =
        is.foldlM (g.snapshotInstr (g.snapshotInto turns) m depth) w := by
  induction is with
  | nil => exact fun _ _ _ => rfl
  | cons i rest ih =>
    intro hsame w hw
    rw [foldlM_cons, foldlM_cons, snapshotInstr_congr hinto (hsame i mem_cons_self) hw]
    cases hi : g.snapshotInstr (g.snapshotInto turns) m depth w i with
    | none => rfl
    | some w₁ =>
      exact ih (fun j hj => hsame j (mem_cons_of_mem _ hj)) w₁ (hw.grows (snapshotInstr_grows hi))

theorem instrs_of_decoded {is : List Instr} (h : g.decoded m = some is) : g.instrs m = is := by
  unfold instrs
  rw [h]
  rfl

theorem snapshotInto_congr (hcode : ∀ m, g'.decoded m = g.decoded m) (turns : Nat) :
    ∀ (depth : Nat) (m : MethodOop) (w : SnapshotWalk), SameAhead g g' w →
      g'.snapshotInto turns depth m w = g.snapshotInto turns depth m w := by
  induction turns with
  | zero => exact fun _ _ _ _ => rfl
  | succ turns ih =>
    intro depth m w hw
    unfold snapshotInto
    split
    next => rfl
    next hm =>
      rw [hcode]
      cases hd : g.decoded m with
      | none => rfl
      | some is =>
        have hsame := hw m hm
        rw [instrs_of_decoded hd] at hsame
        exact instrs_congr (ih _) m is hsame _ (hw.grows (w.grows_visit m _))

def Parted (m : MethodOop) (w w' : SnapshotWalk) : Prop :=
  (w' = w ∧ m ∉ w.visited) ∨ (m ∈ w.visited ∧ Diverge w.bytes w'.bytes)

theorem Parted.fold (h : Parted m w w') (bytes : List UInt8) : Parted m (w.fold bytes) (w'.fold bytes) := by
  rcases h with ⟨rfl, hm⟩ | ⟨hm, hd⟩
  · exact .inl ⟨rfl, hm⟩
  · exact .inr ⟨hm, hd.append bytes bytes⟩

structure OneSite (g g' : CallSites) (m : MethodOop) (ic : Nat) : Prop where
  code : ∀ m, g'.decoded m = g.decoded m
  others : ∀ m' i, m' ≠ m ∨ i ≠ .send ic false → SameSites g g' m' i
  tag : (g'.vm.ics m ic).icState.tag ≠ (g.vm.ics m ic).icState.tag

variable {m : MethodOop} {ic : Nat}

theorem OneSite.instrs_parting (h : OneSite g g' m ic) : ∀ (is : List Instr) (w w' v v' : SnapshotWalk), m ∈ w.visited →
      w' = w ∧ .send ic false ∈ is ∨ Diverge w.bytes w'.bytes →
      is.foldlM (g.snapshotInstr (g.snapshotInto turns) m depth) w = some v →
      is.foldlM (g'.snapshotInstr (g'.snapshotInto turns) m depth) w' = some v' →
      m ∈ v.visited ∧ Diverge v.bytes v'.bytes := by
  intro is
  induction is with
  | nil =>
    intro w w' v v' hm hw hv hv'
    cases hv
    cases hv'
    rcases hw with ⟨_, hi⟩ | hd
    · cases hi
    · exact ⟨hm, hd⟩
  | cons i rest ih =>
    intro w w' v v' hm hw hv hv'
    rw [foldlM_cons] at hv hv'
    obtain ⟨w₁, hw₁, hv⟩ := bind_eq_some_iff.mp hv
    obtain ⟨w₁', hw₁', hv'⟩ := bind_eq_some_iff.mp hv'
    have hm₁ := (snapshotInstr_grows hw₁).visited m hm
    refine ih w₁ w₁' v v' hm₁ ?_ hv hv'
    rcases hw with ⟨rfl, hi⟩ | hd
    · by_cases hsite : i = .send ic false
      · right
        rw [hsite, snapshotInstr_eq] at hw₁ hw₁'
        refine Diverge.grows ?_ (each_grows hw₁) (each_grows hw₁')
        exact ⟨w'.bytes ++ [UInt8.ofNat ic, UInt8.ofNat (ic >>> 8)], _, _, [], [], h.tag.symm,
          by simp [fold, siteBytes], by simp [fold, siteBytes]⟩
      · left
        have hsame := snapshotInstr_congr
          (fun m w => snapshotInto_congr h.code turns (deeper depth) m w) (h.others m i (Or.inr hsite))
          (fun m' hm' _ _ => h.others m' _ (Or.inl fun he => hm' (he ▸ hm)))
        rw [hsame, hw₁] at hw₁'
        refine ⟨(Option.some.inj hw₁').symm, ?_⟩
        rcases mem_cons.mp hi with he | hi
        · exact absurd he.symm hsite
        · exact hi
    · exact .inr (hd.grows (snapshotInstr_grows hw₁) (snapshotInstr_grows hw₁'))

theorem OneSite.parted (h : OneSite g g' m ic) (hsite : .send ic false ∈ g.instrs m) (turns : Nat) :
    ∀ (depth : Nat) (m' : MethodOop) (w w' v v' : SnapshotWalk), Parted m w w' →
      g.snapshotInto turns depth m' w = some v → g'.snapshotInto turns depth m' w' = some v' → Parted m v v' := by
  induction turns with
  | zero => exact fun _ _ _ _ _ _ _ hv => nomatch hv
  | succ turns ih =>
    intro depth m' w w' v v' hw hv hv'
    rcases hw with ⟨rfl, hm⟩ | ⟨hm, hd⟩
    · unfold snapshotInto at hv hv'
      split at hv
      next hseen =>
        rw [if_pos hseen] at hv'
        cases hv
        cases hv'
        exact .inl ⟨rfl, hm⟩
      next hseen =>
        rw [if_neg hseen, h.code] at hv'
        obtain ⟨is, his, hv⟩ := bind_eq_some_iff.mp hv
        rw [his] at hv'
        by_cases he : m' = m
        · subst he
          rw [instrs_of_decoded his] at hsite
          exact .inr (h.instrs_parting is _ _ _ _ (mem_append_right _ mem_cons_self) (.inl ⟨rfl, hsite⟩) hv hv')
        · refine DepthFirst.foldlM_parallel is ?_ _ _ _ _ ?_ hv hv'
          · intro i _ s t s' t' hst hs ht
            have hsame := h.others m' i (.inl he)
            rw [snapshotInstr_eq] at hs ht
            rw [hsame.bytes, hsame.followed] at ht
            exact DepthFirst.foldlM_parallel _ (fun target _ s t s' t' => ih _ target s t s' t') _ _ _ _
              (hst.fold _) hs ht
          · refine .inl ⟨rfl, fun hin => ?_⟩
            rcases mem_append.mp hin with hin | hin
            · exact hm hin
            · exact he (mem_singleton.mp hin).symm
    · have hgrow := snapshotInto_grows _ _ _ _ _ hv
      exact .inr ⟨hgrow.visited m hm, hd.grows hgrow (snapshotInto_grows _ _ _ _ _ hv')⟩

end CallSites

end WinArmVm
