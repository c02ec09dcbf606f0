import WinArmVm.MarkPhase

namespace WinArmVm

open List Function Tiling Option

def Memory.destination (m : Memory) (a : Nat) : Nat :=
  match m a with
  | .mem d => d
  | _ => a

namespace HeapView

variable {v : HeapView} {m mc m' m'' : Memory} {u : Universe} {roots : List Word} {l : List Nat}
  {top addr new newTop : Nat} {side side' side'' : SideMarks} {a b j : Nat}

open Classical in
noncomputable def alive (v : HeapView) (m : Memory) (roots : List Word) (l : List Nat) : List Nat :=
  l.filter fun a => v.Live m roots a

theorem mem_alive : a ∈ v.alive m roots l ↔ a ∈ l ∧ v.Live m roots a := by
  simp [alive]

def entry (v : HeapView) (m : Memory) (a : Nat) : CompactEntry := ⟨a, m.destination a, (v.shape a).size⟩

/-- The objects of a space that survive, each with its place and with its mark in the side table
or, where there is nothing to keep, not. -/
structure Planned (v : HeapView) (m : Memory) (roots : List Word) (l : List Nat) (top new newTop : Nat) (m' : Memory)
    (side : SideMarks) : Prop where
  tiles : Tiles m'.destination v.bytes new (v.alive m roots l) newTop
  le : newTop ≤ top
  forwarded : ∀ a ∈ v.alive m roots l, m' a = .mem (m'.destination a) ∧ m'.destination a ≤ a
  kept : ∀ a ∈ v.alive m roots l, ∀ k, m a = .mark k → ∀ t,
    (((side (m'.destination a)).getD Mark.pristine).withTaggedContents t).withGcMark false = k.withTaggedContents t

theorem Planned.congr (h : v.Planned m roots l top new newTop m' side)
    (hm : ∀ a ∈ v.alive m roots l, m'' a = m' a) (hs : ∀ x, new ≤ x → x < newTop → side'' x = side x) :
    v.Planned m roots l top new newTop m'' side'' := by
  have hd : ∀ a ∈ v.alive m roots l, m''.destination a = m'.destination a := by
    intro a ha
    unfold Memory.destination
    rw [hm a ha]
  refine ⟨h.tiles.congr hd fun _ _ => rfl, h.le, fun a ha => ?_, fun a ha k hk t => ?_⟩
  · rw [hm a ha, hd a ha]
    exact h.forwarded a ha
  · obtain ⟨hlow, hhigh, hpos⟩ := h.tiles.bounds ha
    rw [hd a ha, hs _ hlow (by omega)]
    exact h.kept a ha k hk t

theorem restored_mark (k : Mark) (hclear : k.gcMark = false) (t : Bool) :
    (((if (k.withGcMark true).hash ≠ 0 ∨ (k.withGcMark true).age ≠ 0 ∨ (k.withGcMark true).nearDeath = true then
      some ((k.withGcMark true).withGcMark false) else none).getD Mark.pristine).withTaggedContents t).withGcMark false =
      k.withTaggedContents t := by
  have heta : k = ⟨k.hash, k.age, k.nearDeath, k.taggedContents, false⟩ := by rw [← hclear]
  split
  next =>
    rw [heta]
    rfl
  next h =>
    simp only [ne_eq, not_or, Decidable.not_not, Bool.not_eq_true] at h
    rw [heta, show k.hash = 0 from h.1, show k.age = 0 from h.2.1, show k.nearDeath = false from h.2.2]
    rfl

theorem forwardingCompute_plans (hw : v.WellFormed m u) {fuel : Nat} (ht : Tiles id v.bytes addr l top)
    (hl : ∀ a ∈ l, a ∈ v.objects) (hh : m.HeadersOnly mc)
    (hmarks : ∀ a ∈ l, ∀ k, m a = .mark k → ∃ b, mc a = .mark (k.withGcMark b) ∧ (b = true ↔ v.Live m roots a))
    (hside : ∀ x, new ≤ x → side x = none) (hle : new ≤ addr) (hfuel : top ≤ addr + fuel) :
    ∃ newTop m' side', Memory.forwardingCompute top fuel addr new mc side =
        some ((v.alive m roots l).map (v.entry m'), newTop, m', side') ∧
      v.Planned m roots l top new newTop m' side' ∧ (∀ x, x ∉ v.alive m roots l → m' x = mc x) ∧
      ∀ x, x < new ∨ newTop ≤ x → side' x = side x := by
  induction l generalizing fuel addr new mc side with
  | nil =>
    cases ht
    refine ⟨new, mc, side, ?_, ⟨Tiles.nil _, hle, fun a ha => absurd ha not_mem_nil,
      fun a ha => absurd ha not_mem_nil⟩, fun _ _ => rfl, fun _ _ => rfl⟩
    unfold Memory.forwardingCompute
    cases fuel with
    | zero => exact if_neg (Nat.lt_irrefl _)
    | succ fuel => exact if_neg (Nat.lt_irrefl _)
  | cons a l ih =>
    cases ht with
    | cons hs hpos ht =>
      cases hs
      dsimp only [id] at ht hle hfuel ⊢
      have ha := hl a mem_cons_self
      have hbytes := hw.bytes_pos ha
      have htop := ht.le
      have hnot : a ∉ l := by
        intro hin
        have := (ht.bounds hin).1
        dsimp only [id] at this
        omega
      obtain ⟨k, hk, hclear⟩ := hw.marks a ha
      obtain ⟨b, hb, hlive⟩ := hmarks a mem_cons_self k hk
      have hsize := hw.instanceSizeWords ha hh
      have hread : mc.markAt a = some (k.withGcMark b) := by
        unfold Memory.markAt
        rw [hb]
      have hwords : (v.shape a).size * wordSize = v.bytes a := rfl
      have hrest : ∀ x ∈ l, x ∈ v.objects := fun x hx => hl x (mem_cons_of_mem a hx)
      obtain ⟨fuel, rfl⟩ : ∃ n, fuel = n + 1 := ⟨fuel - 1, by omega⟩
      unfold Memory.forwardingCompute
      rw [if_pos (by omega)]
      simp only [hsize, hread, bind_eq_bind, bind_some, Option.pure_def, hwords]
      by_cases hl' : v.Live m roots a
      · have halive : v.alive m roots (a :: l) = a :: v.alive m roots l := by
          simp [alive, hl']
        cases hlive.mpr hl'
        rw [if_pos (show (k.withGcMark true).gcMark = true from rfl)]
        generalize hsd : (if (k.withGcMark true).hash ≠ 0 ∨ (k.withGcMark true).age ≠ 0 ∨
          (k.withGcMark true).nearDeath = true then
            Function.update side new (some ((k.withGcMark true).withGcMark false)) else side) = side₁
        have hside₁ : ∀ x, x ≠ new → side₁ x = side x := by
          intro x hx
          rw [← hsd]
          split
          · exact update_of_ne hx _ _
          · rfl
        have hnew : side₁ new = if (k.withGcMark true).hash ≠ 0 ∨ (k.withGcMark true).age ≠ 0 ∨
            (k.withGcMark true).nearDeath = true then some ((k.withGcMark true).withGcMark false) else none := by
          rw [← hsd]
          split
          · exact update_self ..
          · exact hside new (Nat.le_refl new)
        have hwrite : mc.HeadersOnly (mc.installForwarding a new) := Memory.HeadersOnly.write hb _
        have hmarks₁ : ∀ x ∈ l, ∀ kx, m x = .mark kx →
            ∃ b, mc.installForwarding a new x = .mark (kx.withGcMark b) ∧ (b = true ↔ v.Live m roots x) := by
          intro x hx kx hkx
          have hne : x ≠ a := fun he => hnot (he ▸ hx)
          obtain ⟨bx, hbx, hlx⟩ := hmarks x (mem_cons_of_mem a hx) kx hkx
          exact ⟨bx, (update_of_ne hne _ _).trans hbx, hlx⟩
        have hnone : ∀ x, new + v.bytes a ≤ x → side₁ x = none := fun x hx =>
          (hside₁ x (by omega)).trans (hside x (by omega))
        have hfuel₁ : top ≤ a + v.bytes a + fuel := by omega
        obtain ⟨newTop, m', side', hrun, hp, hsame, hsides⟩ :=
          ih ht hrest (hh.trans hwrite) hmarks₁ hnone (by omega) hfuel₁
        have hnotin : a ∉ v.alive m roots l := fun h => hnot (mem_alive.mp h).1
        have hheader : m' a = .mem new := (hsame a hnotin).trans (update_self ..)
        have hdest : m'.destination a = new := by
          unfold Memory.destination
          rw [hheader]
        refine ⟨newTop, m', side', ?_, ⟨?_, hp.le, ?_, ?_⟩, fun x hx => ?_, fun x hx => ?_⟩
        · rw [hrun, halive, map_cons]
          simp only [bind_some, entry, hdest, Nat.mod_eq_of_lt (hw.sizes a ha)]
        · rw [halive]
          exact Tiles.cons hdest hpos hp.tiles
        · rw [halive, forall_mem_cons, hdest]
          exact ⟨⟨hheader, hle⟩, hp.forwarded⟩
        · rw [halive, forall_mem_cons]
          refine ⟨fun k' hk' t => ?_, hp.kept⟩
          cases (hk.symm.trans hk')
          rw [hdest, hsides new (.inl (by omega)), hnew]
          exact restored_mark k hclear t
        · rw [halive, mem_cons, not_or] at hx
          exact (hsame x hx.2).trans (update_of_ne hx.1 _ _)
        · have hle := hp.tiles.le
          exact (hsides x (by omega)).trans (hside₁ x (by omega))
      · have halive : v.alive m roots (a :: l) = v.alive m roots l := by
          simp [alive, hl']
        have hdead : b = false := by
          cases b with
          | false => rfl
          | true => exact absurd (hlive.mp rfl) hl'
        rw [hdead, if_neg (by simp [Mark.withGcMark]), halive]
        have hfuel₁ : top ≤ a + v.bytes a + fuel := by omega
        obtain ⟨newTop, m', side', hrun, hp, hsame, hsides⟩ :=
          ih ht hrest hh (fun x hx => hmarks x (mem_cons_of_mem a hx)) hside (by omega) hfuel₁
        refine ⟨newTop, m', side', hrun, ⟨?_, hp.le, ?_, ?_⟩, hsame, hsides⟩ <;> rw [halive]
        · exact hp.tiles
        · exact hp.forwarded
        · exact hp.kept

theorem headersOnly_of_same (hw : v.WellFormed m u) (h : ∀ x, x ∉ v.objects → m' x = m x) : m.HeadersOnly m' := by
  intro x
  by_cases hx : x ∈ v.objects
  · obtain ⟨k, hk, -⟩ := hw.marks x hx
    exact .inr ⟨k, hk⟩
  · exact .inl (h x hx)

theorem map_entry (h : ∀ a ∈ l, m'' a = m' a) : l.map (v.entry m') = l.map (v.entry m'') := by
  apply map_congr_left
  intro a ha
  unfold entry Memory.destination
  rw [h a ha]

structure Forwards (v : HeapView) (m : Memory) (u : Universe) (roots : List Word) (m₁ : Memory) (f : u.Forwarded m₁) :
    Prop where
  edenPlan : f.edenPlan = (v.alive m roots v.eden).map (v.entry f.afterOld.1)
  fromPlan : f.fromPlan = (v.alive m roots v.survivors).map (v.entry f.afterOld.1)
  oldPlan : f.oldPlan = (v.alive m roots v.old).map (v.entry f.afterOld.1)
  eden : v.Planned m roots v.eden u.eden.top u.eden.start f.edenTop f.afterOld.1 f.afterOld.2
  survivors : v.Planned m roots v.survivors u.fromSpace.top u.fromSpace.start f.fromTop f.afterOld.1 f.afterOld.2
  old : v.Planned m roots v.old u.old.top u.old.start f.oldTop f.afterOld.1 f.afterOld.2
  same : ∀ x, x ∉ v.objects → f.afterOld.1 x = m x

theorem forwards (hw : v.WellFormed m u) {m₁ : Memory} (hsame : ∀ x, x ∉ v.objects → m₁ x = m x)
    (hmarks : ∀ a ∈ v.objects, ∀ k, m a = .mark k →
      ∃ b, m₁ a = .mark (k.withGcMark b) ∧ (b = true ↔ v.Live m roots a)) :
    ∃ f : u.Forwarded m₁, v.Forwards m u roots m₁ f := by
  have hg := hw.geometry
  have h₁ := hg.eden_le
  have h₂ := hg.from_le
  have h₃ := hg.eden_from
  have h₄ := hg.from_old
  have h₅ := hg.old_le
  have heden : ∀ a ∈ v.eden, a ∈ v.objects := fun a ha => mem_objects.mpr (.inl (mem_young.mpr (.inl ha)))
  have hfrom : ∀ a ∈ v.survivors, a ∈ v.objects := fun a ha => mem_objects.mpr (.inl (mem_young.mpr (.inr ha)))
  have hold : ∀ a ∈ v.old, a ∈ v.objects := fun a ha => mem_objects.mpr (.inr ha)
  have hyoung : ∀ a ∈ v.survivors, a ∉ v.eden := by
    intro a ha he
    have hb := (hw.eden.bounds he).2.1
    have hb' := (hw.survivors.bounds ha).1
    have := hw.bytes_pos (heden a he)
    dsimp only [id] at hb hb'
    omega
  have hnot_eden : ∀ a ∈ v.old, a ∉ v.eden := fun a ha he => hw.not_old_of_young (mem_young.mpr (.inl he)) ha
  have hnot_from : ∀ a ∈ v.old, a ∉ v.survivors := fun a ha hs => hw.not_old_of_young (mem_young.mpr (.inr hs)) ha
  have hfuel₂ : u.eden.top ≤ u.eden.start + (u.eden.top - u.eden.start) := by omega
  have hnone₂ : ∀ x, u.eden.start ≤ x → (fun _ => none : SideMarks) x = none := fun _ _ => rfl
  obtain ⟨et, m₂, s₂, hrun₂, hp₂, hsame₂, hside₂⟩ := forwardingCompute_plans hw hw.eden heden
    (headersOnly_of_same hw hsame) (fun a ha => hmarks a (heden a ha)) hnone₂ (Nat.le_refl _) hfuel₂
  have het := hp₂.le
  have hframe₂ : ∀ x, x ∉ v.eden → m₂ x = m₁ x := fun x hx => hsame₂ x fun h => hx (mem_alive.mp h).1
  have hkeep₂ : ∀ x, x ∉ v.objects → m₂ x = m x := fun x hx =>
    (hframe₂ x fun h => hx (heden x h)).trans (hsame x hx)
  have hfuel₃ : u.fromSpace.top ≤ u.fromSpace.start + (u.fromSpace.top - u.fromSpace.start) := by omega
  have hnone₃ : ∀ x, u.fromSpace.start ≤ x → s₂ x = none := fun x hx => hside₂ x (.inr (by omega))
  obtain ⟨ft, m₃, s₃, hrun₃, hp₃, hsame₃, hside₃⟩ := forwardingCompute_plans hw hw.survivors hfrom
    (headersOnly_of_same hw hkeep₂)
    (fun a ha k hk => by rw [hframe₂ a (hyoung a ha)]; exact hmarks a (hfrom a ha) k hk)
    hnone₃ (Nat.le_refl _) hfuel₃
  have hft := hp₃.le
  have hframe₃ : ∀ x, x ∉ v.survivors → m₃ x = m₂ x := fun x hx => hsame₃ x fun h => hx (mem_alive.mp h).1
  have hkeep₃ : ∀ x, x ∉ v.objects → m₃ x = m x := fun x hx =>
    (hframe₃ x fun h => hx (hfrom x h)).trans (hkeep₂ x hx)
  have hfuel₄ : u.old.top ≤ u.old.start + (u.old.top - u.old.start) := by omega
  have hnone₄ : ∀ x, u.old.start ≤ x → s₃ x = none := fun x hx =>
    (hside₃ x (.inr (by omega))).trans (hside₂ x (.inr (by omega)))
  obtain ⟨ot, m₄, s₄, hrun₄, hp₄, hsame₄, hside₄⟩ := forwardingCompute_plans hw hw.old hold
    (headersOnly_of_same hw hkeep₃)
    (fun a ha k hk => by
      rw [hframe₃ a (hnot_from a ha), hframe₂ a (hnot_eden a ha)]
      exact hmarks a (hold a ha) k hk)
    hnone₄ (Nat.le_refl _) hfuel₄
  have hframe₄ : ∀ x, x ∉ v.old → m₄ x = m₃ x := fun x hx => hsame₄ x fun h => hx (mem_alive.mp h).1
  have hend₂ : ∀ a ∈ v.alive m roots v.eden, m₄ a = m₂ a := by
    intro a ha
    have ha := (mem_alive.mp ha).1
    rw [hframe₄ a fun h => hnot_eden a h ha, hframe₃ a fun h => hyoung a h ha]
  have hend₃ : ∀ a ∈ v.alive m roots v.survivors, m₄ a = m₃ a := fun a ha =>
    hframe₄ a fun h => hnot_from a h (mem_alive.mp ha).1
  refine ⟨⟨_, et, _, ft, _, ot, (m₂, s₂), (m₃, s₃), (m₄, s₄), hrun₂, hrun₃, hrun₄⟩, map_entry hend₂, map_entry hend₃, rfl,
    hp₂.congr hend₂ fun x _ _ => ?_, hp₃.congr hend₃ fun x _ _ => ?_, hp₄, fun x hx => ?_⟩
  · exact (hside₄ x (.inl (by omega))).trans (hside₃ x (.inl (by omega)))
  · exact hside₄ x (.inl (by omega))
  · exact (hframe₄ x fun h => hx (hold x h)).trans (hkeep₃ x hx)

end HeapView

end WinArmVm
