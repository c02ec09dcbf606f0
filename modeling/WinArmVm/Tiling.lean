import Mathlib.Algebra.GroupWithZero.Nat
import Mathlib.Algebra.Order.BigOperators.Group.Finset

namespace Tiling

open List

variable {β : Type*} {start len : β → Nat}

/-- The blocks cover `[a, stop)` without a gap, in ascending order. -/
inductive Tiles (start len : β → Nat) : Nat → List β → Nat → Prop
  | nil (a : Nat) : Tiles start len a [] a
  | cons {a stop : Nat} {b : β} {l : List β} (hs : start b = a) (hpos : 0 < len b)
      (ht : Tiles start len (a + len b) l stop) : Tiles start len a (b :: l) stop

variable {a stop : Nat} {l : List β}

section

variable (h : Tiles start len a l stop)

include h

theorem Tiles.le : a ≤ stop := by
  induction h with
  | nil => exact Nat.le_refl _
  | cons _ hpos _ ih => omega

theorem Tiles.bounds {b : β} (hb : b ∈ l) : a ≤ start b ∧ start b + len b ≤ stop ∧ 0 < len b := by
  induction h with
  | nil => cases hb
  | cons hs hpos ht ih =>
    have hle := ht.le
    rcases mem_cons.mp hb with rfl | hb
    · omega
    · obtain ⟨hlow, hhigh, hp⟩ := ih hb
      omega

omit h in
theorem Tiles.append {a mid stop : Nat} {l l' : List β} (h : Tiles start len a l mid)
    (h' : Tiles start len mid l' stop) : Tiles start len a (l ++ l') stop := by
  induction h with
  | nil => exact h'
  | cons hs hpos _ ih => exact Tiles.cons hs hpos (ih h')

theorem Tiles.snoc {b : β} (hs : start b = stop) (hpos : 0 < len b) : Tiles start len a (l ++ [b]) (stop + len b) :=
  h.append (Tiles.cons hs hpos (Tiles.nil _))

omit h in
theorem Tiles.split {l l' : List β} (h : Tiles start len a (l ++ l') stop) :
    ∃ mid, Tiles start len a l mid ∧ Tiles start len mid l' stop := by
  induction l generalizing a with
  | nil => exact ⟨a, Tiles.nil a, h⟩
  | cons b l ih =>
    cases h with
    | cons hs hpos ht =>
      obtain ⟨mid, h₁, h₂⟩ := ih ht
      exact ⟨mid, Tiles.cons hs hpos h₁, h₂⟩

theorem Tiles.apart {b b' : β} (hb : b ∈ l) (hb' : b' ∈ l) :
    b = b' ∨ start b + len b ≤ start b' ∨ start b' + len b' ≤ start b := by
  induction h with
  | nil => cases hb
  | cons hs hpos ht ih =>
    rcases mem_cons.mp hb with rfl | hrest
    · rcases mem_cons.mp hb' with rfl | hrest'
      · exact .inl rfl
      · obtain ⟨hlow, _⟩ := ht.bounds hrest'
        omega
    · rcases mem_cons.mp hb' with rfl | hrest'
      · obtain ⟨hlow, _⟩ := ht.bounds hrest
        omega
      · exact ih hrest hrest'

theorem Tiles.nodup : (l.map start).Nodup := by
  induction h with
  | nil => exact nodup_nil
  | cons hs hpos ht ih =>
    refine nodup_cons.mpr ⟨fun hm => ?_, ih⟩
    obtain ⟨b', hb', he⟩ := mem_map.mp hm
    obtain ⟨hlow, _⟩ := ht.bounds hb'
    omega

theorem Tiles.map {γ : Type*} {start' len' : γ → Nat} {g : β → γ} (hs : ∀ b ∈ l, start' (g b) = start b)
    (hl : ∀ b ∈ l, len' (g b) = len b) : Tiles start' len' a (l.map g) stop := by
  induction h with
  | nil => exact Tiles.nil _
  | @cons a stop b l h₁ hpos _ ih =>
    obtain ⟨hsb, hs⟩ := forall_mem_cons.mp hs
    obtain ⟨hlb, hl⟩ := forall_mem_cons.mp hl
    refine Tiles.cons (hsb.trans h₁) (hlb ▸ hpos) ?_
    rw [hlb]
    exact ih hs hl

theorem Tiles.congr {start' len' : β → Nat} (hs : ∀ b ∈ l, start' b = start b) (hl : ∀ b ∈ l, len' b = len b) :
    Tiles start' len' a l stop := by
  have hmap := h.map (g := id) hs hl
  rw [map_id] at hmap
  exact hmap

theorem Tiles.pairwise : l.Pairwise fun b b' => start b + len b ≤ start b' := by
  induction h with
  | nil => exact List.Pairwise.nil
  | cons hs _ ht ih =>
    refine List.Pairwise.cons (fun b hb => ?_) ih
    have := (ht.bounds hb).1
    omega

theorem Tiles.length_le : l.length ≤ stop - a := by
  induction h with
  | nil => exact Nat.zero_le _
  | cons _ hpos ht ih =>
    have hle := ht.le
    rw [length_cons]
    omega

theorem Tiles.length_eq : stop = a + (l.map len).sum := by
  induction h with
  | nil => rfl
  | cons _ _ _ ih =>
    rw [map_cons, sum_cons]
    omega

end

theorem Tiles.dvd {a stop d : Nat} (h : Tiles start len a l stop)
    (hd : ∀ b ∈ l, d ∣ len b) : d ∣ stop - a ∧ ∀ b ∈ l, d ∣ start b - a := by
  induction h with
  | nil => exact ⟨by simp, fun b hb => by cases hb⟩
  | @cons a stop b l hs hpos ht ih =>
    obtain ⟨hstop, hstart⟩ := ih fun x hx => hd x (mem_cons_of_mem b hx)
    have hb := hd b mem_cons_self
    have hle := ht.le
    refine ⟨?_, fun x hx => ?_⟩
    · have he : stop - a = (stop - (a + len b)) + len b := by omega
      rw [he]
      exact Nat.dvd_add hstop hb
    · rcases mem_cons.mp hx with rfl | hx
      · rw [hs]
        simp
      · have hlow := (ht.bounds hx).1
        have he : start x - a = (start x - (a + len b)) + len b := by omega
        rw [he]
        exact Nat.dvd_add (hstart x hx) hb

theorem Tiles.prefix_le {a mid stop : Nat} {l s : List β} (hmid : Tiles start len a s mid) (hs : s <+: l)
    (h : Tiles start len a l stop) : mid ≤ stop := by
  obtain ⟨rest, rfl⟩ := hs
  obtain ⟨mid', h₁, h₂⟩ := h.split
  have he : mid' = mid := h₁.length_eq.trans hmid.length_eq.symm
  rw [← he]
  exact h₂.le

theorem Tiles.next {a mid stop : Nat} {l s : List β} (h : Tiles start len a l stop) (hs : s <+: l)
    (hmid : Tiles start len a s mid) (hlt : mid < stop) :
    ∃ b, s ++ [b] <+: l ∧ start b = mid ∧ Tiles start len a (s ++ [b]) (mid + len b) := by
  obtain ⟨rest, rfl⟩ := hs
  obtain ⟨mid', h₁, h₂⟩ := h.split
  have he : mid' = mid := h₁.length_eq.trans hmid.length_eq.symm
  rw [he] at h₂
  cases h₂ with
  | nil => omega
  | @cons _ _ b rest hb hpos ht =>
    refine ⟨b, ⟨rest, ?_⟩, hb, hmid.snoc hb hpos⟩
    rw [append_assoc, singleton_append]

theorem sum_le_of_subset [DecidableEq β] {l l' : List β} (hn : l.Nodup) (hn' : l'.Nodup)
    (hsub : ∀ b ∈ l, b ∈ l') (f : β → Nat) : (l.map f).sum ≤ (l'.map f).sum := by
  rw [← sum_toFinset f hn, ← sum_toFinset f hn']
  apply Finset.sum_le_sum_of_subset
  intro b hb
  exact mem_toFinset.mpr (hsub b (mem_toFinset.mp hb))

end Tiling
