import WinArmVm.SendCheck
import WinArmVm.SubtypingOrder
import Mathlib.Data.Fintype.EquivFin

namespace WinArmVm.Types

open List Option

open Frontend ( TypeAnnotation MethodNode)

variable (u : CharClass)

def declaredArgs : List (Option TypeAnnotation) → List ResolvedType → Option (List (ResolvedType × ResolvedType))
  | formal :: formals, actual :: actuals => do
    let declared ← resolveCaptured u formal
    let pairs ← declaredArgs formals actuals
    some ((declared, actual) :: pairs)
  | _, _ => some []

variable {u} {model : WorldModel} {site : AnnotationSite} {selector : String}

variable {pairs : List (ResolvedType × ResolvedType)} {selfClass selfClass' : String} {i : Nat}

/-- The declared types of the method found, each with the type of its argument. -/
def Declared (u : CharClass) (model : WorldModel) (receiverType : ResolvedType) (selector : String)
    (argTypes : List ResolvedType) (pairs : List (ResolvedType × ResolvedType)) : Prop :=
  ∃ head method answer, receiverHead receiverType = some head ∧ findMethod model head selector = .found method ∧
    method.params.length = argTypes.length ∧ declaredArgs u method.typeSig.paramTypes argTypes = some pairs ∧
    resolveCaptured u method.typeSig.returnType = some answer

theorem Declared.unique {receiverType : ResolvedType} {argTypes : List ResolvedType}
    {pairs' : List (ResolvedType × ResolvedType)} (h : Declared u model receiverType selector argTypes pairs)
    (h' : Declared u model receiverType selector argTypes pairs') : pairs = pairs' := by
  obtain ⟨head, method, answer, hh, hm, -, hp, -⟩ := h
  obtain ⟨head', method', answer', hh', hm', -, hp', -⟩ := h'
  cases hh.symm.trans hh'
  cases hm.symm.trans hm'
  exact some.inj (hp.symm.trans hp')

mutual

/-- The names that the subtype rules read in a type: not those in the arguments of a generic. -/
def TypeExpr.heads : TypeExpr → List String
  | .named name => [name]
  | .generic head _ => [head]
  | .block args none => headsAll args
  | .block args (some r) => headsAll args ++ r.heads
  | .union variants => headsAll variants
  | .inferenceDef inner => inner.heads

def headsAll : List TypeExpr → List String
  | [] => []
  | e :: es => e.heads ++ headsAll es

end

def ResolvedType.heads : ResolvedType → List String
  | .dynamic => []
  | .written e => e.heads

theorem mem_headsAll {es : List TypeExpr} {e : TypeExpr} {name : String} (he : e ∈ es) (hn : name ∈ e.heads) :
    name ∈ headsAll es := by
  induction es with
  | nil => cases he
  | cons e' es ih =>
    rw [headsAll, mem_append]
    rcases mem_cons.mp he with rfl | he
    · exact .inl hn
    · exact .inr (ih he)

/-- The subtype rules without what `Self` stands for: `Self` is below `Self` and no class is. -/
inductive BelowUnread (model : WorldModel) : TypeExpr → TypeExpr → Prop
  | object {s : TypeExpr} : BelowUnread model s (.named "Object")
  | alike {s t : TypeExpr} {name : String} (hs : nominalHead s "Self" = some name) (ht : nominalHead t "Self" = some name) :
      BelowUnread model s t
  | nominal {s t : TypeExpr} {sName tName : String} (hs : nominalHead s "Self" = some sName)
      (ht : nominalHead t "Self" = some tName) (hs' : sName ≠ "Self") (ht' : tName ≠ "Self")
      (h : model.Inherits sName tName) : BelowUnread model s t
  | defLeft {s t : TypeExpr} (h : BelowUnread model s t) : BelowUnread model (.inferenceDef s) t
  | defRight {s t : TypeExpr} (h : BelowUnread model s t) : BelowUnread model s (.inferenceDef t)
  | unionLeft {variants : List TypeExpr} {t : TypeExpr} (h : ∀ v ∈ variants, BelowUnread model v t) :
      BelowUnread model (.union variants) t
  | unionRight {s v : TypeExpr} {variants : List TypeExpr} (hv : v ∈ variants) (h : BelowUnread model s v) :
      BelowUnread model s (.union variants)
  | block {sa ta : List TypeExpr} {sr tr : Option TypeExpr} (hl : sa.length = ta.length)
      (ha : ∀ p ∈ sa.zip ta, BelowUnread model p.2 p.1)
      (hr : ∀ a b, sr = some a → tr = some b → BelowUnread model a b) : BelowUnread model (.block sa sr) (.block ta tr)

theorem nominalHead_reads (e : TypeExpr) (c : String) :
    nominalHead e c = (nominalHead e "Self").map fun name => if name = "Self" then c else name := by
  cases e with
  | named name => by_cases hn : name = "Self" <;> simp [nominalHead, hn]
  | generic head args => by_cases hn : head = "Self" <;> simp [nominalHead, hn]
  | _ => rfl

theorem nominalHead_mem {e : TypeExpr} {name : String} (h : nominalHead e "Self" = some name) : name ∈ e.heads := by
  have hread (n : String) : (if n = "Self" then "Self" else n) = n := by
    split
    next he => exact he.symm
    next => rfl
  cases e with
  | named n => exact mem_singleton.mpr (((hread n).symm.trans (some.inj h)).symm)
  | generic head args => exact mem_singleton.mpr (((hread head).symm.trans (some.inj h)).symm)
  | _ => cases h

theorem BelowUnread.accepted {s t : TypeExpr} (h : BelowUnread model s t) (c : String) : Below model c s t := by
  induction h with
  | object => exact .object
  | @alike s t name hs ht =>
    have hread {e : TypeExpr} (he : nominalHead e "Self" = some name) :
        nominalHead e c = some (if name = "Self" then c else name) := by rw [nominalHead_reads, he, map_some]
    exact .nominal (hread hs) (hread ht) Relation.ReflTransGen.refl
  | nominal hs ht hs' ht' h =>
    refine .nominal ?_ ?_ h
    · rw [nominalHead_reads, hs, map_some, if_neg hs']
    · rw [nominalHead_reads, ht, map_some, if_neg ht']
  | defLeft _ ih => exact .defLeft ih
  | defRight _ ih => exact .defRight ih
  | unionLeft _ ih => exact .unionLeft ih
  | unionRight hv _ ih => exact .unionRight hv ih
  | block hl _ _ iha ihr => exact .block hl iha ihr

/-- A name that is no class of the world, nor the superclass of one. -/
def Unknown (model : WorldModel) (c : String) : Prop := ∀ name, ¬ model.Super c name ∧ ¬ model.Super name c

/-- A name that neither type reads, `Self` or the caller's own, plays no part in a comparison. -/
theorem Below.unread {c name : String} {s t : TypeExpr} (h : Below model c s t)
    (hname : name = "Self" ∨ name = c ∧ Unknown model c) (hs : name ∉ s.heads) (ht : name ∉ t.heads) :
    BelowUnread model s t := by
  induction h with
  | object => exact .object
  | @nominal s t sName tName hsn htn hin =>
    rw [nominalHead_reads] at hsn htn
    obtain ⟨a, ha, hsn⟩ := map_eq_some_iff.mp hsn
    obtain ⟨b, hb, htn⟩ := map_eq_some_iff.mp htn
    have has : name ≠ a := fun he => hs (he ▸ nominalHead_mem ha)
    have hbt : name ≠ b := fun he => ht (he ▸ nominalHead_mem hb)
    by_cases haS : a = "Self"
    · rcases hname with rfl | ⟨rfl, hunknown⟩
      · exact absurd haS.symm has
      -- nothing is above a class that is unknown
      rw [if_pos haS] at hsn
      subst hsn
      rcases Relation.ReflTransGen.cases_head hin with he | ⟨superName, hsuper, -⟩
      · by_cases hbS : b = "Self"
        · exact .alike ha (hb.trans (by rw [hbS, haS]))
        · rw [if_neg hbS] at htn
          exact absurd (he.trans htn.symm) hbt
      · exact absurd hsuper (hunknown superName).1
    · rw [if_neg haS] at hsn
      subst hsn
      by_cases hbS : b = "Self"
      · rcases hname with rfl | ⟨rfl, hunknown⟩
        · exact absurd hbS.symm hbt
        -- and nothing below it
        rw [if_pos hbS] at htn
        subst htn
        rcases Relation.ReflTransGen.cases_tail hin with he | ⟨subName, -, hsuper⟩
        · exact absurd he has
        · exact absurd hsuper (hunknown subName).2
      · rw [if_neg hbS] at htn
        subst htn
        exact .nominal ha hb haS hbS hin
  | defLeft _ ih => exact .defLeft (ih hs ht)
  | defRight _ ih => exact .defRight (ih hs ht)
  | unionLeft _ ih => exact .unionLeft fun v hv => ih v hv (fun hn => hs (mem_headsAll hv hn)) ht
  | unionRight hv _ ih => exact .unionRight hv (ih hs fun hn => ht (mem_headsAll hv hn))
  | @block sa ta sr tr hl _ _ iha ihr =>
    have hleft (e : TypeExpr) (he : e ∈ sa ∨ sr = some e) : name ∉ e.heads := by
      intro hn
      rcases he with he | rfl
      · apply hs
        cases sr with
        | none => exact mem_headsAll he hn
        | some r => exact mem_append_left _ (mem_headsAll he hn)
      · exact hs (mem_append_right _ hn)
    have hright (e : TypeExpr) (he : e ∈ ta ∨ tr = some e) : name ∉ e.heads := by
      intro hn
      rcases he with he | rfl
      · apply ht
        cases tr with
        | none => exact mem_headsAll he hn
        | some r => exact mem_append_left _ (mem_headsAll he hn)
      · exact ht (mem_append_right _ hn)
    refine .block hl (fun p hp => ?_) fun a b ha hb => ?_
    · obtain ⟨hp1, hp2⟩ := of_mem_zip hp
      exact iha p hp (hright _ (.inl hp2)) (hleft _ (.inl hp1))
    · exact ihr a b ha hb (hleft _ (.inr ha)) (hright _ (.inr hb))

/-- Accepted, whatever class `Self` is. -/
inductive AcceptsUnread (model : WorldModel) : ResolvedType → ResolvedType → Prop
  | dynamicLeft {t : ResolvedType} : AcceptsUnread model .dynamic t
  | dynamicRight {s : ResolvedType} : AcceptsUnread model s .dynamic
  | written {s t : TypeExpr} (h : BelowUnread model s t) : AcceptsUnread model (.written s) (.written t)

theorem AcceptsUnread.accepted {s t : ResolvedType} (h : AcceptsUnread model s t) (c : String) :
    subtypeOf model c [] s t = true := by
  cases h with
  | dynamicLeft => cases t <;> simp [subtypeOf]
  | dynamicRight => cases s <;> simp [subtypeOf]
  | written h => exact subtypeOf_iff_below.mpr (h.accepted c)

end WinArmVm.Types
