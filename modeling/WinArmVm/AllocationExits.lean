import WinArmVm.RawAllocation

namespace WinArmVm

open List

/-- What the VM asks of the raw layer outside genesis. -/
inductive InternalRequest
  | intern (bytes : List UInt8)
  | newKlass (superclass : Nat) (name : List UInt8) (format : Format) (untagged : Bool) (nisWords : Nat)

namespace InternalRequest

def run : InternalRequest → Raw Unit
  | .intern bytes => do
    let _ ← WinArmVm.intern bytes
  | .newKlass superclass name format untagged nisWords => do
    let _ ← WinArmVm.newKlass superclass name format untagged nisWords

end InternalRequest

namespace Raw

variable {α β : Type}

def Ends (requests : List WordRequest) : Outcome α → Prop
  | .done _ _ => ∀ q ∈ requests, q.Fits
  | .exit70 => ∃ before q, requests = before ++ [q] ∧ (∀ q ∈ before, q.Fits) ∧ ¬ q.Fits
  | .panic => ∀ q ∈ requests, q.Fits

def Lawful (x : Raw α) : Prop := ∀ s, Ends (x s).requests (x s).outcome

namespace Lawful

theorem nothing_fits : ∀ q ∈ ([] : List WordRequest), q.Fits := by
  intro q hq
  cases hq

theorem modify (f : RawState → RawState) : Lawful (Raw.modify f) := fun _ => nothing_fits

theorem pure (a : α) : Lawful (Raw.pure a) := fun _ => nothing_fits

theorem get : Lawful Raw.get := fun _ => nothing_fits

theorem expect (o : Option α) : Lawful (Raw.expect o) := by
  intro s
  unfold Raw.expect
  cases o with
  | none => exact nothing_fits
  | some a => exact nothing_fits

theorem bind {x : Raw α} {f : α → Raw β} (hx : Lawful x) (hf : ∀ a, Lawful (f a)) : Lawful (Raw.bind x f) := by
  intro s
  have hends := hx s
  unfold Raw.bind
  cases hout : (x s).outcome with
  | done a s' =>
    rw [hout] at hends
    have hends' := hf a s'
    dsimp only
    have hall {l : List WordRequest} (hl : ∀ q ∈ l, q.Fits) : ∀ q ∈ (x s).requests ++ l, q.Fits := by
      intro q hq
      rcases mem_append.mp hq with hq | hq
      · exact hends q hq
      · exact hl q hq
    cases hout' : (f a s').outcome with
    | done b s'' =>
      rw [hout'] at hends'
      exact hall hends'
    | exit70 =>
      rw [hout'] at hends'
      obtain ⟨before, q, he, hbefore, hq⟩ := hends'
      exact ⟨(x s).requests ++ before, q, by rw [he, append_assoc], hall hbefore, hq⟩
    | panic =>
      rw [hout'] at hends'
      exact hall hends'
  | exit70 =>
    rw [hout] at hends
    exact hends
  | panic =>
    rw [hout] at hends
    exact hends

theorem allocWordsRaw (words : Nat) (klass : Word) (tagged : Bool) : Lawful (allocWordsRaw words klass tagged) := by
  intro s
  unfold WinArmVm.allocWordsRaw VmHeap.tryBumpEden
  by_cases hfull : s.heap.u.eden.stop < s.heap.u.eden.top + words * wordSize
  · rw [if_pos hfull]
    exact ⟨[], _, rfl, nothing_fits, Nat.not_le.mpr hfull⟩
  · rw [if_neg hfull]
    intro q hq
    cases mem_singleton.mp hq
    exact Nat.not_lt.mp hfull

theorem setBodyWord (a index : Nat) (w : Word) : Lawful (setBodyWord a index w) := modify _

theorem allocIndexableBytesRaw (klass nis nbytes : Nat) : Lawful (allocIndexableBytesRaw klass nis nbytes) :=
  (allocWordsRaw _ _ _).bind fun _ => (setBodyWord _ _ _).bind fun _ => pure _

theorem enterSymbol (bytes : List UInt8) (addr : Nat) : Lawful (enterSymbol bytes addr) := by
  unfold WinArmVm.enterSymbol
  apply (modify _).bind
  intro _
  apply (modify _).bind
  intro _
  apply get.bind
  intro s
  apply (expect _).bind
  intro symbols
  split
  · apply (expect _).bind
    intro symbols
    exact modify _
  · exact modify _

theorem intern (bytes : List UInt8) : Lawful (intern bytes) := by
  apply get.bind
  intro s
  apply (expect _).bind
  intro found
  cases found with
  | some found => exact pure found
  | none =>
    apply (expect _).bind
    intro nis
    apply (allocIndexableBytesRaw _ _ _).bind
    intro addr
    exact (enterSymbol bytes addr).bind fun _ => pure _

theorem newKlassCore (superclass : Nat) (format : Format) (untagged : Bool) (nisWords : Nat) :
    Lawful (newKlassCore superclass format untagged nisWords) := by
  apply get.bind
  intro s
  apply (allocWordsRaw _ _ _).bind
  intro meta_
  apply (setBodyWord _ _ _).bind
  intro _
  apply (setBodyWord _ _ _).bind
  intro _
  apply (allocWordsRaw _ _ _).bind
  intro klass
  apply (setBodyWord _ _ _).bind
  intro _
  apply (setBodyWord _ _ _).bind
  intro _
  apply (setBodyWord _ _ _).bind
  intro _
  apply get.bind
  intro s
  apply (expect _).bind
  intro superMeta
  exact (setBodyWord _ _ _).bind fun _ => pure _

theorem newKlass (superclass : Nat) (name : List UInt8) (format : Format) (untagged : Bool) (nisWords : Nat) :
    Lawful (newKlass superclass name format untagged nisWords) := by
  apply (newKlassCore superclass format untagged nisWords).bind
  rintro ⟨meta_, klass⟩
  apply (intern name).bind
  intro plain
  apply (setBodyWord _ _ _).bind
  intro _
  apply (intern _).bind
  intro metaName
  exact (setBodyWord _ _ _).bind fun _ => pure _

theorem run (op : InternalRequest) : Lawful op.run := by
  cases op with
  | intern bytes => exact (intern bytes).bind fun _ => pure _
  | newKlass superclass name format untagged nisWords =>
    exact (newKlass superclass name format untagged nisWords).bind fun _ => pure _

end Lawful

end Raw

namespace InternalRequest

def GivesUpEarly (op : InternalRequest) (s : RawState) : Prop :=
  (op.run s).outcome = .exit70 ∧ ∃ q, (op.run s).requests.getLast? = some q ∧ q.Served

/-- The VM gives up early but where every object finds room in eden, or would not find any elsewhere. -/
theorem gives_up_early_iff (op : InternalRequest) (s : RawState) :
    ¬ op.GivesUpEarly s ↔ ∀ q ∈ (op.run s).requests, q.Fits ∨ ¬ q.Served := by
  have hends := Raw.Lawful.run op s
  constructor
  · intro hearly q hq
    by_cases hfits : q.Fits
    · exact .inl hfits
    refine .inr fun hserved => hearly ?_
    cases hout : (op.run s).outcome with
    | done a s' =>
      rw [hout] at hends
      exact absurd (hends q hq) hfits
    | exit70 =>
      rw [hout] at hends
      obtain ⟨before, last, he, hbefore, -⟩ := hends
      refine ⟨hout, q, ?_, hserved⟩
      rw [he, getLast?_append, getLast?_singleton]
      rw [he] at hq
      rcases mem_append.mp hq with hq | hq
      · exact absurd (hbefore q hq) hfits
      · rw [mem_singleton.mp hq]
        rfl
    | panic =>
      rw [hout] at hends
      exact absurd (hends q hq) hfits
  · rintro hall ⟨hout, q, hlast, hserved⟩
    rw [hout] at hends
    obtain ⟨before, last, he, -, hfits⟩ := hends
    rw [he, getLast?_append, getLast?_singleton] at hlast
    cases hlast
    rcases hall q (by rw [he]; simp) with h | h
    · exact hfits h
    · exact h hserved

end InternalRequest

def fullEden : RawState where
  heap := {
    u := {
      eden := ⟨0, 64, 64⟩, fromSpace := ⟨64, 64, 128⟩, toSpace := ⟨128, 128, 192⟩
      old := ⟨4096, 8192, 8192, 4160⟩
      nCards := 8, cards := fun _ => false, offsets := fun _ => 0
      tenuringThreshold := 127, bytesAtAge := fun _ => 0, pendingStall := false }
    m := fun x =>
      ([(4096, .mark Mark.pristine), (4104, .mem 4096), (4112, .smi 4), (4120, .smi 4),
        (4128, .mark Mark.pristine), (4136, .mem 4096), (4144, .smi 2), (4152, .smi 2)].lookup x).getD (.bits 0)
    roots := ⟨[.mem 4128], [], []⟩
    gcEnabled := true, gcStress := false, gcStressFullPeriod := none, fullStressAllocCount := 0
    promotionGuaranteeMet := false }
  symbolHeap := ⟨fun _ => [], fun _ => 0⟩
  symbols := .withCapacity 4
  metaclassKlass := 4096
  symbolKlass := 4128

theorem intern_gives_up_early : (InternalRequest.intern [120]).GivesUpEarly fullEden :=
  ⟨rfl, ⟨fullEden.heap, 4, .mem 4128, false⟩, rfl, by unfold WordRequest.Served; decide⟩

end WinArmVm
