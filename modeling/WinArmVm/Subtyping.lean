import WinArmVm.FrontendAst
import Mathlib.Data.List.AList

namespace WinArmVm.Types

open List

/-- A type expression. A generic has arguments and a union two variants or more wherever the parser built it. -/
inductive TypeExpr
  | named (name : String)
  | generic (head : String) (args : List TypeExpr)
  | block (argTypes : List TypeExpr) (returnType : Option TypeExpr)
  | union (variants : List TypeExpr)
  | inferenceDef (inner : TypeExpr)

mutual

def TypeExpr.same : TypeExpr → TypeExpr → Bool
  | .named n, .named m => n == m
  | .generic n ss, .generic m ts => n == m && sameAll ss ts
  | .block ss none, .block ts none => sameAll ss ts
  | .block ss (some s), .block ts (some t) => sameAll ss ts && s.same t
  | .union ss, .union ts => sameAll ss ts
  | .inferenceDef s, .inferenceDef t => s.same t
  | _, _ => false

def sameAll : List TypeExpr → List TypeExpr → Bool
  | [], [] => true
  | s :: ss, t :: ts => s.same t && sameAll ss ts
  | _, _ => false

end

mutual

theorem TypeExpr.same_iff (s t : TypeExpr) : s.same t = true ↔ s = t := by
  cases s with
  | named n => cases t <;> simp [TypeExpr.same]
  | generic n ss => cases t <;> simp [TypeExpr.same, sameAll_iff ss]
  | block ss r =>
    cases t with
    | block ts r' =>
      cases r with
      | none => cases r' <;> simp [TypeExpr.same, sameAll_iff ss]
      | some s => cases r' <;> simp [TypeExpr.same, sameAll_iff ss, TypeExpr.same_iff s]
    | _ => cases r <;> simp [TypeExpr.same]
  | union ss => cases t <;> simp [TypeExpr.same, sameAll_iff ss]
  | inferenceDef s => cases t <;> simp [TypeExpr.same, TypeExpr.same_iff s]

theorem sameAll_iff (ss ts : List TypeExpr) : sameAll ss ts = true ↔ ss = ts := by
  cases ss with
  | nil => cases ts <;> simp [sameAll]
  | cons s ss => cases ts <;> simp [sameAll, TypeExpr.same_iff s, sameAll_iff ss]

end

instance : DecidableEq TypeExpr := fun s t => decidable_of_iff (s.same t = true) (TypeExpr.same_iff s t)

open Frontend (MethodNode)

/-- A map by name; no name stands in it twice. -/
abbrev Dictionary (α : Type) := AList fun _ : String => α

/-- What a class declares: types of instance variables as their annotations' texts. -/
structure ClassInterface where
  superclass : Option String
  instVars : List String
  instVarTypes : List (Option String)
  instanceMethods : Dictionary MethodNode

structure WorldModel where
  classes : Dictionary ClassInterface

namespace WorldModel

def superclass (model : WorldModel) (name : String) : Option String :=
  (model.classes.lookup name).bind ClassInterface.superclass

theorem superclass_mem {model : WorldModel} {name superName : String}
    (h : model.superclass name = some superName) : name ∈ model.classes.keys := by
  obtain ⟨c, hc, _⟩ := Option.bind_eq_some_iff.mp h
  apply AList.mem_keys.mp
  apply AList.lookup_isSome.mp
  rw [hc]
  rfl

def Super (model : WorldModel) (name superName : String) : Prop := model.superclass name = some superName

def Inherits (model : WorldModel) : String → String → Prop := Relation.ReflTransGen model.Super

end WorldModel

/-- A written type, or what an annotation's absence means. -/
inductive ResolvedType
  | dynamic
  | written (expr : TypeExpr)
deriving DecidableEq

def ResolvedType.named (name : String) : ResolvedType := .written (.named name)

/-- The pairs of names assumed on the way here; what a call inserts it removes before it answers. -/
abbrev Trail := List (String × String)

variable {model : WorldModel} {trail : Trail}

theorem assumed_lt {keys : List String} {name target : String} (hk : name ∈ keys) (hn : (name, target) ∉ trail) :
    (keys.filter fun k => (k, target) ∉ (name, target) :: trail).length <
      (keys.filter fun k => (k, target) ∉ trail).length := by
  have hsub : (keys.filter fun k => (k, target) ∉ (name, target) :: trail) =
      (keys.filter fun k => (k, target) ∉ trail).filter fun k => k ≠ name := by
    rw [filter_filter]
    apply filter_congr
    intro k _
    by_cases hk : k = name <;> simp [hk]
  rw [hsub]
  apply length_filter_lt_length_iff_exists.mpr
  exact ⟨name, by simp [hk, hn], by simp⟩

def superclassChainContains (model : WorldModel) (trail : Trail) (sName target : String) : Bool :=
  if sName = target then true
  else if (sName, target) ∈ trail then false
  else
    match _ : model.superclass sName with
    | some superName => superclassChainContains model ((sName, target) :: trail) superName target
    | none => false
termination_by (model.classes.keys.filter fun k => (k, target) ∉ trail).length
decreasing_by exact assumed_lt (WorldModel.superclass_mem ‹_›) ‹_›

/-- The name a nominal type stands for, `Self` for the class under check. -/
def nominalHead (expr : TypeExpr) (selfClass : String) : Option String :=
  match expr with
  | .named n => some (if n = "Self" then selfClass else n)
  | .generic head _ => some (if head = "Self" then selfClass else head)
  | _ => none

def subtypeOf (model : WorldModel) (selfClass : String) (trail : Trail) (s t : ResolvedType) : Bool :=
  if s = t then true
  else
    match s, t with
    | .dynamic, _ | _, .dynamic => true
    | .written sExpr, .written tExpr =>
      if tExpr = .named "Object" then true
      else
        match sExpr, tExpr with
        | .inferenceDef inner, t => subtypeOf model selfClass trail (.written inner) (.written t)
        | s, .inferenceDef inner => subtypeOf model selfClass trail (.written s) (.written inner)
        | .union variants, t =>
          variants.attach.all fun v => subtypeOf model selfClass trail (.written v.1) (.written t)
        | s, .union variants =>
          variants.attach.any fun v => subtypeOf model selfClass trail (.written s) (.written v.1)
        | .block sa sr, .block ta tr =>
          if sa.length ≠ ta.length then false
          else if !(sa.zip ta).attach.all fun p => subtypeOf model selfClass trail (.written p.1.2) (.written p.1.1)
          then false
          else
            match sr, tr with
            | some sr, some tr => subtypeOf model selfClass trail (.written sr) (.written tr)
            | _, _ => true
        | .block _ _, _ | _, .block _ _ => false
        | s, t =>
          match nominalHead s selfClass, nominalHead t selfClass with
          | some sName, some tName => superclassChainContains model trail sName tName
          | _, _ => false
termination_by sizeOf s + sizeOf t
decreasing_by
  all_goals simp only [ResolvedType.written.sizeOf_spec, TypeExpr.inferenceDef.sizeOf_spec,
    TypeExpr.union.sizeOf_spec, TypeExpr.block.sizeOf_spec, Option.some.sizeOf_spec]
  · omega
  · omega
  · have := List.sizeOf_lt_of_mem v.2
    omega
  · have := List.sizeOf_lt_of_mem v.2
    omega
  · obtain ⟨⟨a, b⟩, hp⟩ := p
    have ha := List.sizeOf_lt_of_mem (List.of_mem_zip hp).1
    have hb := List.sizeOf_lt_of_mem (List.of_mem_zip hp).2
    simp only
    omega
  · omega

def Climbs (model : WorldModel) (target : String) : Nat → String → Prop
  | 0, name => name = target
  | n + 1, name => name ≠ target ∧ ∃ superName, model.superclass name = some superName ∧ Climbs model target n superName

theorem Climbs.unique {target name : String} {m n : Nat} (hm : Climbs model target m name)
    (hn : Climbs model target n name) : m = n := by
  induction m generalizing n name with
  | zero =>
    cases n with
    | zero => rfl
    | succ n => exact absurd hm hn.1
  | succ m ih =>
    cases n with
    | zero => exact absurd hn hm.1
    | succ n =>
      obtain ⟨_, superName, hs, hm⟩ := hm
      obtain ⟨_, superName', hs', hn⟩ := hn
      rw [hs] at hs'
      cases hs'
      rw [ih hm hn]

theorem climbs_of_inherits {name target : String} (h : model.Inherits name target) :
    ∃ n, Climbs model target n name := by
  induction h using Relation.ReflTransGen.head_induction_on with
  | refl => exact ⟨0, rfl⟩
  | @head name superName hs _ ih =>
    obtain ⟨n, hn⟩ := ih
    by_cases he : name = target
    · exact ⟨0, he⟩
    · exact ⟨n + 1, he, superName, hs, hn⟩

variable {sName target : String}

theorem inherits_of_contains (h : superclassChainContains model trail sName target = true) : model.Inherits sName target := by
  fun_induction superclassChainContains model trail sName target with
  | case1 => exact Relation.ReflTransGen.refl
  | case2 => cases h
  | case3 trail sName _ _ superName hs ih => exact Relation.ReflTransGen.head hs (ih h)
  | case4 => cases h

theorem contains_of_climbs {target : String} (n : Nat) {sName : String} (h : Climbs model target n sName)
    (ht : ∀ name, (name, target) ∈ trail → ∀ m, Climbs model target m name → n < m) :
    superclassChainContains model trail sName target = true := by
  induction n generalizing trail sName with
  | zero =>
    have he : sName = target := h
    rw [superclassChainContains, if_pos he]
  | succ n ih =>
    have hc := h
    obtain ⟨hne, superName, hs, hn⟩ := h
    have hout : (sName, target) ∉ trail := by
      intro hin
      have := ht sName hin (n + 1) hc
      omega
    rw [superclassChainContains, if_neg hne, if_neg hout]
    split
    next superName' hs' =>
      rw [hs] at hs'
      cases hs'
      apply ih hn
      intro name hin m hm
      rcases mem_cons.mp hin with he | hin
      · cases he
        have := hm.unique hc
        omega
      · have := ht name hin m hm
        omega
    next hs' =>
      rw [hs] at hs'
      cases hs'

theorem superclassChainContains_iff :
    superclassChainContains model [] sName target = true ↔ model.Inherits sName target := by
  constructor
  · exact inherits_of_contains
  · intro h
    obtain ⟨n, hn⟩ := climbs_of_inherits h
    exact contains_of_climbs n hn (by simp)

section

variable (model : WorldModel) (selfClass : String)

inductive Below : TypeExpr → TypeExpr → Prop
  | object {s : TypeExpr} : Below s (.named "Object")
  | nominal {s t : TypeExpr} {sName tName : String} (hs : nominalHead s selfClass = some sName)
      (ht : nominalHead t selfClass = some tName) (h : model.Inherits sName tName) : Below s t
  | defLeft {s t : TypeExpr} (h : Below s t) : Below (.inferenceDef s) t
  | defRight {s t : TypeExpr} (h : Below s t) : Below s (.inferenceDef t)
  | unionLeft {variants : List TypeExpr} {t : TypeExpr} (h : ∀ v ∈ variants, Below v t) : Below (.union variants) t
  | unionRight {s v : TypeExpr} {variants : List TypeExpr} (hv : v ∈ variants) (h : Below s v) :
      Below s (.union variants)
  | block {sa ta : List TypeExpr} {sr tr : Option TypeExpr} (hl : sa.length = ta.length)
      (ha : ∀ p ∈ sa.zip ta, Below p.2 p.1) (hr : ∀ a b, sr = some a → tr = some b → Below a b) :
      Below (.block sa sr) (.block ta tr)

end

namespace Below

variable {model : WorldModel} {selfClass : String} {s t : TypeExpr} {variants : List TypeExpr}

theorem def_left : Below model selfClass (.inferenceDef s) t ↔ Below model selfClass s t := by
  constructor
  · intro h
    generalize hd : TypeExpr.inferenceDef s = d at h
    induction h with
    | object => exact .object
    | nominal hs => subst hd; cases hs
    | defLeft h => cases hd; exact h
    | defRight _ ih => exact .defRight (ih hd)
    | unionLeft => cases hd
    | unionRight hv _ ih => exact .unionRight hv (ih hd)
    | block => cases hd
  · exact .defLeft

theorem def_right : Below model selfClass s (.inferenceDef t) ↔ Below model selfClass s t := by
  constructor
  · intro h
    generalize hd : TypeExpr.inferenceDef t = d at h
    induction h with
    | object => cases hd
    | nominal _ ht => subst hd; cases ht
    | defLeft _ ih => exact .defLeft (ih hd)
    | defRight h => cases hd; exact h
    | unionLeft _ ih => exact .unionLeft fun v hv => ih v hv hd
    | unionRight => cases hd
    | block => cases hd
  · exact .defRight

theorem union_left {t : TypeExpr} :
    Below model selfClass (.union variants) t ↔ ∀ v ∈ variants, Below model selfClass v t := by
  constructor
  · intro h
    generalize hd : TypeExpr.union variants = d at h
    induction h with
    | object => exact fun _ _ => .object
    | nominal hs => subst hd; cases hs
    | defLeft => cases hd
    | defRight _ ih => exact fun v hv => .defRight (ih hd v hv)
    | unionLeft h => cases hd; exact h
    | unionRight hw _ ih => exact fun v hv => .unionRight hw (ih hd v hv)
    | block => cases hd
  · exact .unionLeft

theorem union_right {s : TypeExpr} (hd : ∀ inner, s ≠ .inferenceDef inner) (hu : ∀ vs, s ≠ .union vs) :
    Below model selfClass s (.union variants) ↔ ∃ v ∈ variants, Below model selfClass s v := by
  constructor
  · intro h
    cases h with
    | nominal _ ht => cases ht
    | defLeft => exact absurd rfl (hd _)
    | unionLeft => exact absurd rfl (hu _)
    | unionRight hv h => exact ⟨_, hv, h⟩
  · intro ⟨v, hv, h⟩
    exact .unionRight hv h

theorem block_iff {sa ta : List TypeExpr} {sr tr : Option TypeExpr} :
    Below model selfClass (.block sa sr) (.block ta tr) ↔
      sa.length = ta.length ∧ (∀ p ∈ sa.zip ta, Below model selfClass p.2 p.1) ∧
        ∀ a b, sr = some a → tr = some b → Below model selfClass a b := by
  constructor
  · intro h
    cases h with
    | nominal hs => cases hs
    | block hl ha hr => exact ⟨hl, ha, hr⟩
  · intro ⟨hl, ha, hr⟩
    exact .block hl ha hr

theorem not_block_nominal {sa : List TypeExpr} {sr : Option TypeExpr} {t : TypeExpr} {tName : String}
    (ht : nominalHead t selfClass = some tName) (ho : t ≠ .named "Object") :
    ¬Below model selfClass (.block sa sr) t := by
  intro h
  cases h with
  | object => exact ho rfl
  | nominal hs => cases hs
  | _ => cases ht

theorem not_nominal_block {ta : List TypeExpr} {tr : Option TypeExpr} {s : TypeExpr} {sName : String}
    (hs : nominalHead s selfClass = some sName) : ¬Below model selfClass s (.block ta tr) := by
  intro h
  cases h with
  | nominal _ ht => cases ht
  | _ => cases hs

theorem nominal_iff {sName tName : String} (hs : nominalHead s selfClass = some sName)
    (ht : nominalHead t selfClass = some tName) (ho : t ≠ .named "Object") :
    Below model selfClass s t ↔ model.Inherits sName tName := by
  constructor
  · intro h
    cases h with
    | object => exact absurd rfl ho
    | nominal hs' ht' h =>
      cases (hs.symm.trans hs')
      cases (ht.symm.trans ht')
      exact h
    | defLeft => cases hs
    | defRight => cases ht
    | unionLeft => cases hs
    | unionRight => cases ht
    | block => cases hs
  · exact .nominal hs ht

end Below

end WinArmVm.Types
