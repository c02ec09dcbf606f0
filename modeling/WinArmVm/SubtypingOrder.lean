import WinArmVm.Subtyping

namespace WinArmVm.Types

open List

variable {p : TypeExpr × TypeExpr} {s t u : TypeExpr}

theorem of_mem_zip_self {l : List TypeExpr} (h : p ∈ l.zip l) : p.2 = p.1 ∧ p.1 ∈ l := by
  induction l with
  | nil => cases h
  | cons e l ih =>
    rcases mem_cons.mp h with rfl | h
    · simp
    · have := ih h
      exact ⟨this.1, mem_cons_of_mem e this.2⟩

variable {model : WorldModel} {selfClass : String}

theorem Below.refl (s : TypeExpr) : Below model selfClass s s := by
  match s with
  | .named n => exact .nominal rfl rfl Relation.ReflTransGen.refl
  | .generic head args => exact .nominal rfl rfl Relation.ReflTransGen.refl
  | .block args r =>
    apply Below.block rfl
    · intro p hp
      obtain ⟨he, hm⟩ := of_mem_zip_self hp
      rw [he]
      have := sizeOf_lt_of_mem hm
      exact Below.refl p.1
    · intro a b ha hb
      rw [ha] at hb
      cases hb
      exact Below.refl a
  | .union variants =>
    apply Below.unionLeft
    intro v hv
    have := sizeOf_lt_of_mem hv
    exact .unionRight hv (Below.refl v)
  | .inferenceDef inner => exact .defLeft (.defRight (Below.refl inner))
termination_by sizeOf s
decreasing_by
  all_goals subst_vars
  all_goals simp
  all_goals omega

theorem subtypeOf_iff_below {s t : TypeExpr} :
    subtypeOf model selfClass [] (.written s) (.written t) = true ↔ Below model selfClass s t := by
  generalize hs : ResolvedType.written s = s'
  generalize ht : ResolvedType.written t = t'
  generalize htr : ([] : Trail) = trail
  fun_induction subtypeOf model selfClass trail s' t' generalizing s t with
  | case1 =>
    subst hs
    cases ht
    simp [Below.refl]
  | case2 => cases hs
  | case3 => cases ht
  | case4 =>
    cases ht
    simp [Below.object]
  | case5 inner t _ _ ih =>
    cases hs
    cases ht
    rw [ih rfl rfl, Below.def_left]
  | case6 s inner _ _ _ ih =>
    cases hs
    cases ht
    rw [ih rfl rfl, Below.def_right]
  | case7 variants t _ _ _ ih =>
    cases hs
    cases ht
    simp only [all_eq_true, mem_attach, true_imp_iff, Subtype.forall, Below.union_left]
    exact forall₂_congr fun v hv => ih ⟨v, hv⟩ rfl rfl
  | case8 s variants hd hu _ _ ih =>
    cases hs
    cases ht
    rw [Below.union_right hd hu]
    simp only [any_eq_true, mem_attach, true_and, Subtype.exists]
    constructor
    · rintro ⟨v, hv, h⟩
      exact ⟨v, hv, (ih ⟨v, hv⟩ rfl rfl).mp h⟩
    · rintro ⟨v, hv, h⟩
      exact ⟨v, hv, (ih ⟨v, hv⟩ rfl rfl).mpr h⟩
  | case9 sa sr ta tr hl =>
    cases hs
    cases ht
    rw [Below.block_iff]
    simp [hl]
  | case10 sa sr ta tr hl ha _ _ ih =>
    cases hs
    cases ht
    simp only [Bool.false_eq_true, false_iff, Below.block_iff, not_and]
    intro _ hp
    rw [all_eq_true.mpr fun p _ => (ih p rfl rfl).mpr (hp p.1 p.2)] at ha
    cases ha
  | case11 sa ta hl ha sr tr _ _ iha ih =>
    cases hs
    cases ht
    have hall := all_eq_true.mp (by simpa only [Bool.not_eq_true', Bool.not_eq_false] using ha)
    rw [ih rfl rfl, Below.block_iff]
    constructor
    · intro h
      refine ⟨not_not.mp hl, ?_, ?_⟩
      · intro p hp
        exact (iha ⟨p, hp⟩ rfl rfl).mp (hall ⟨p, hp⟩ (mem_attach _ _))
      · intro a b he he'
        cases he
        cases he'
        exact h
    · intro h
      exact h.2.2 sr tr rfl rfl
  | case12 sa sr ta tr hl ha hn _ _ ih =>
    cases hs
    cases ht
    have hall := all_eq_true.mp (by simpa only [Bool.not_eq_true', Bool.not_eq_false] using ha)
    simp only [true_iff]
    apply Below.block (not_not.mp hl)
    · intro p hp
      exact (ih ⟨p, hp⟩ rfl rfl).mp (hall ⟨p, hp⟩ (mem_attach _ _))
    · intro a b he he'
      exact (hn a b he he').elim
  | case13 t ho args r hd hu hb =>
    cases hs
    cases ht
    simp only [Bool.false_eq_true, false_iff]
    cases t with
    | named n => exact Below.not_block_nominal rfl ho
    | generic head args => exact Below.not_block_nominal rfl ho
    | block ta tr => exact (hb ta tr rfl).elim
    | union vs => exact (hu vs rfl).elim
    | inferenceDef inner => exact (hd inner rfl).elim
  | case14 s args r hd hu hb =>
    cases hs
    cases ht
    simp only [Bool.false_eq_true, false_iff]
    cases s with
    | named n => exact Below.not_nominal_block rfl
    | generic head args => exact Below.not_nominal_block rfl
    | block sa sr => exact (hb sa sr rfl).elim
    | union vs => exact (hu vs rfl).elim
    | inferenceDef inner => exact (hd inner rfl).elim
  | case15 s t _ _ _ _ _ _ _ sName tName hT hS ho =>
    cases hs
    cases ht
    rw [Below.nominal_iff hS hT ho, ← superclassChainContains_iff, htr]
  | case16 s t hds hdt hus hut _ hbs hbt hn =>
    cases hs
    cases ht
    exfalso
    cases s with
    | block sa sr => exact hbs sa sr rfl
    | union vs => exact hus vs rfl
    | inferenceDef inner => exact hds inner rfl
    | _ =>
      cases t with
      | block ta tr => exact hbt ta tr rfl
      | union vs => exact hut vs rfl
      | inferenceDef inner => exact hdt inner rfl
      | _ => exact hn _ _ rfl rfl

/-- Built from nominal types of a vocabulary; every block type carries a return type. -/
inductive Over (V : TypeExpr → Prop) : TypeExpr → Prop
  | named {name : String} (h : V (.named name)) : Over V (.named name)
  | generic {head : String} {args : List TypeExpr} (h : V (.generic head args)) : Over V (.generic head args)
  | block {args : List TypeExpr} {r : TypeExpr} (ha : ∀ a ∈ args, Over V a) (hr : Over V r) : Over V (.block args (some r))
  | union {variants : List TypeExpr} (h : ∀ v ∈ variants, Over V v) : Over V (.union variants)
  | inferenceDef {inner : TypeExpr} (h : Over V inner) : Over V (.inferenceDef inner)

variable {V : TypeExpr → Prop}

theorem Over.of_nominal {e : TypeExpr} {name : String} (h : Over V e)
    (he : nominalHead e selfClass = some name) : V e := by
  cases h with
  | named h => exact h
  | generic h => exact h
  | _ => cases he

/-- `Object` has no other type of the vocabulary above it: no generic on its name, no `Self` in its own
methods, no superclass. -/
def ObjectAlone (model : WorldModel) (selfClass : String) (V : TypeExpr → Prop) : Prop :=
  V (.named "Object") → ∀ u name, V u → nominalHead u selfClass = some name →
    superclassChainContains model [] "Object" name = true → u = .named "Object"

theorem exists_between {sa ta ua : List TypeExpr} (hst : sa.length = ta.length) (htu : ta.length = ua.length)
    (hp : p ∈ sa.zip ua) : ∃ m, (p.1, m) ∈ sa.zip ta ∧ (m, p.2) ∈ ta.zip ua := by
  obtain ⟨i, hi, he⟩ := mem_iff_getElem.mp hp
  have hl := length_zip ▸ hi
  have hi' : i < ta.length := by omega
  subst he
  refine ⟨ta[i], mem_iff_getElem.mpr ⟨i, ?_, ?_⟩, mem_iff_getElem.mpr ⟨i, ?_, ?_⟩⟩
  · rw [length_zip]
    omega
  · simp
  · rw [length_zip]
    omega
  · simp

theorem Below.trans_of_size (hV : ObjectAlone model selfClass V) (n : Nat)
    (hn : sizeOf s + sizeOf t + sizeOf u < n) (hs : Over V s) (ht : Over V t) (hu : Over V u)
    (hst : Below model selfClass s t) (htu : Below model selfClass t u) : Below model selfClass s u := by
  induction n generalizing s t u with
  | zero => omega
  | succ n ih =>
    have hplain (hd : ∀ inner, s ≠ .inferenceDef inner) (hun : ∀ vs, s ≠ .union vs) : Below model selfClass s u := by
      cases htu with
      | object => exact .object
      | defRight h =>
        cases hu with
        | inferenceDef hu =>
          simp only [TypeExpr.inferenceDef.sizeOf_spec] at hn
          exact .defRight (ih (by omega) hs ht hu hst h)
      | unionRight hv h =>
        cases hu with
        | union hu =>
          have := sizeOf_lt_of_mem hv
          simp only [TypeExpr.union.sizeOf_spec] at hn
          exact .unionRight hv (ih (by omega) hs ht (hu _ hv) hst h)
      | defLeft h =>
        cases ht with
        | inferenceDef ht =>
          simp only [TypeExpr.inferenceDef.sizeOf_spec] at hn
          exact ih (by omega) hs ht hu (def_right.mp hst) h
      | unionLeft h =>
        obtain ⟨v, hv, hst⟩ := (union_right hd hun).mp hst
        cases ht with
        | union ht =>
          have := sizeOf_lt_of_mem hv
          simp only [TypeExpr.union.sizeOf_spec] at hn
          exact ih (by omega) hs (ht v hv) hu hst (h v hv)
      | nominal hts htu hin =>
        cases hst with
        | object =>
          rw [hV (ht.of_nominal hts) u _ (hu.of_nominal htu) htu ?_]
          · exact .object
          · cases hts
            exact superclassChainContains_iff.mpr hin
        | nominal hss hts' hin' =>
          cases (hts.symm.trans hts')
          exact .nominal hss htu (hin'.trans hin)
        | defLeft => exact absurd rfl (hd _)
        | unionLeft => exact absurd rfl (hun _)
        | _ => cases hts
      | block hl ha hr =>
        cases hst with
        | nominal _ hts => cases hts
        | defLeft => exact absurd rfl (hd _)
        | unionLeft => exact absurd rfl (hun _)
        | block hl' ha' hr' =>
          cases hs with
          | block hsa hsr =>
            cases ht with
            | block hta htr =>
              cases hu with
              | block hua hur =>
                simp only [TypeExpr.block.sizeOf_spec, Option.some.sizeOf_spec] at hn
                apply Below.block (hl'.trans hl)
                · intro p hp
                  obtain ⟨m, hm, hm'⟩ := exists_between hl' hl hp
                  have h1 := of_mem_zip hm
                  have h2 := of_mem_zip hm'
                  have := sizeOf_lt_of_mem h1.1
                  have := sizeOf_lt_of_mem h1.2
                  have := sizeOf_lt_of_mem h2.2
                  exact ih (by omega) (hua _ h2.2) (hta _ h1.2) (hsa _ h1.1) (ha _ hm') (ha' _ hm)
                · intro a b hea heb
                  cases hea
                  cases heb
                  exact ih (by omega) hsr htr hur (hr' _ _ rfl rfl) (hr _ _ rfl rfl)
    cases hs with
    | inferenceDef hs =>
      simp only [TypeExpr.inferenceDef.sizeOf_spec] at hn
      exact .defLeft (ih (by omega) hs ht hu (def_left.mp hst) htu)
    | union hs =>
      apply Below.unionLeft
      intro v hv
      have := sizeOf_lt_of_mem hv
      simp only [TypeExpr.union.sizeOf_spec] at hn
      exact ih (by omega) (hs v hv) ht hu (union_left.mp hst v hv) htu
    | _ => exact hplain (by simp) (by simp)

theorem Below.trans (hV : ObjectAlone model selfClass V) (hs : Over V s)
    (ht : Over V t) (hu : Over V u) (hst : Below model selfClass s t) (htu : Below model selfClass t u) :
    Below model selfClass s u :=
  Below.trans_of_size hV _ (Nat.lt_succ_self _) hs ht hu hst htu

theorem objectAlone_of_trans (h : ∀ s t u, Over V s → Over V t → Over V u → Below model selfClass s t → Below model selfClass t u →
      Below model selfClass s u) : ObjectAlone model selfClass V := by
  intro ho u name hu hname hc
  by_contra hne
  have hov : Over V u := by
    cases u with
    | named n => exact .named hu
    | generic head args => exact .generic hu
    | _ => cases hname
  have hbelow : Below model selfClass (.named "Object") u :=
    .nominal rfl hname (superclassChainContains_iff.mp (by simpa using hc))
  have := h (.block [] (some u)) (.named "Object") u (.block (by simp) hov) (.named ho) hov .object hbelow
  exact Below.not_block_nominal hname hne this

/-- Reflexive and transitive with `Object` on top, over exactly the vocabularies in which `Object` is alone. -/
theorem subtypeOf_preorder_iff (model : WorldModel) (selfClass : String) (V : TypeExpr → Prop) :
    ((∀ s, Over V s → subtypeOf model selfClass [] (.written s) (.written s) = true) ∧
      (∀ s t u, Over V s → Over V t → Over V u → subtypeOf model selfClass [] (.written s) (.written t) = true →
        subtypeOf model selfClass [] (.written t) (.written u) = true →
        subtypeOf model selfClass [] (.written s) (.written u) = true) ∧
      ∀ s, Over V s → subtypeOf model selfClass [] (.written s) (.named "Object") = true) ↔
    ObjectAlone model selfClass V := by
  constructor
  · intro ⟨_, h, _⟩
    apply objectAlone_of_trans
    intro s t u hs ht hu hst htu
    exact subtypeOf_iff_below.mp (h s t u hs ht hu (subtypeOf_iff_below.mpr hst) (subtypeOf_iff_below.mpr htu))
  · intro hV
    refine ⟨?_, ?_, ?_⟩
    · intro s _
      exact subtypeOf_iff_below.mpr (Below.refl s)
    · intro s t u hs ht hu hst htu
      exact subtypeOf_iff_below.mpr (Below.trans hV hs ht hu (subtypeOf_iff_below.mp hst) (subtypeOf_iff_below.mp htu))
    · intro s _
      exact subtypeOf_iff_below.mpr .object

def objectWorld : WorldModel := ⟨AList.singleton "Object" ⟨none, [], [], ∅⟩⟩

/-- In `Object`'s own methods `Self` is above `Object`, and `[^Object]` is below `Object` only. -/
theorem block_above_self :
    let block : ResolvedType := .written (.block [] (some (.named "Object")))
    subtypeOf objectWorld "Object" [] block (.named "Object") = true ∧
      subtypeOf objectWorld "Object" [] (.named "Object") (.named "Self") = true ∧
      subtypeOf objectWorld "Object" [] block (.named "Self") = false := by
  refine ⟨subtypeOf_iff_below.mpr .object, ?_, ?_⟩
  · exact subtypeOf_iff_below.mpr (.nominal rfl rfl Relation.ReflTransGen.refl)
  · apply Bool.eq_false_iff.mpr
    intro h
    exact Below.not_block_nominal rfl (by simp) (subtypeOf_iff_below.mp h)

end WinArmVm.Types
