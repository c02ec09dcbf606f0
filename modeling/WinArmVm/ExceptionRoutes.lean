import WinArmVm.ExceptionDiscipline

namespace WinArmVm.Exceptions

open List Option

/-- The handler run of an exception that goes on: its innermost signal activation. An error
that has ended the computation below has ended its handler runs. -/
def currentRun (e : Nat) : List Frame → Option (Nat × Entry × List Entry)
  | [] => none
  | .signal id e' entry popped :: below => if e' = e then some (id, entry, popped) else currentRun e below
  | .curtailment .. :: _ => none
  | _ :: below => currentRun e below

def stops (home : Home) : List Frame → List (List Frame)
  | [] => []
  | f :: below =>
    if f.isHome home then [below]
    else
      match f with
      | .block _ (.handler _ _) _ => (f :: below) :: stops home below
      | .curtailment .. => []
      | _ => stops home below

/-- The home is live, and no error has ended it. -/
def reaches (home : Home) : List Frame → Bool
  | [] => false
  | f :: below => f.isHome home || !f.isCurtailment && reaches home below

def Frame.isRun : Frame → Bool
  | signal .. => true
  | curtailment .. => true
  | _ => false

namespace State

def signalled (w : Hierarchy) (s : State) : Action → Option Nat
  | .signal e => s.exceptions[e]?.map ExceptionObject.cls
  | .outer e => s.exceptions[e]?.map ExceptionObject.cls
  | .pass e => s.exceptions[e]?.map fun x => if x.handlerReturn = none then w.error else x.cls
  | .returnWith e _ => s.exceptions[e]?.bind fun x => if x.handlerReturn = none then some w.error else none
  | .retry e => s.exceptions[e]?.bind fun x => if x.handlerRetry = none then some w.error else none
  | .resume e _ =>
    s.exceptions[e]?.bind fun x =>
      if w.isResumable x.cls = false ∨ x.handlerResume = none then some w.error else none
  | _ => none

def FindsLive (w : Hierarchy) (s : State) (cls : Nat) : Prop :=
  ∀ index entry, findHandlerFor w s.handlers cls s.handlers.length = some (index, entry) →
    reaches (.protect entry.returnBlock) s.frames = true

/-- No signal finds a handler of an activation that is over; and where a return leaves a handler
run, no user code runs again inside an older handler run of the same exception. -/
structure RoutesKept (w : Hierarchy) (s : State) (a : Action) : Prop where
  finds : ∀ cls, s.signalled w a = some cls → s.FindsLive w cls
  leaves : ∀ home v cs id e entry popped below, s.mode = .unwinding home v cs →
    s.frames = .signal id e entry popped :: below → ∀ rest ∈ stops home s.frames, currentRun e rest = none

def Own (e : Nat) (xs : List ExceptionObject) (frames : List Frame) : Prop :=
  ∀ id entry popped, currentRun e frames = some (id, entry, popped) →
    ∃ x, xs[e]? = some x ∧ x.handlerReturn = some entry.returnBlock ∧
      x.handlerRetry = some entry.retryBlock ∧ x.handlerResume = some (id, popped)

/-- While a return is on its way, an exception's routes may be those of a run that it has left,
where no older run is seen again. -/
def OwnRoutes (s : State) : Prop :=
  match s.mode with
  | .run _ => ∀ e, Own e s.exceptions s.frames
  | .returning _ => ∀ e, Own e s.exceptions s.frames
  | .unwinding home _ _ =>
    ∀ e, Own e s.exceptions s.frames ∨ ∀ rest ∈ stops home s.frames, currentRun e rest = none
  | .curtailing _ _ => True
  | .stopped => True

end State

def Entry.Twin (e : Entry) : Prop := e.retryBlock = e.returnBlock

/-- Every handler run is for an activation below it, and every activation is on its `on:do:`. -/
def Frame.Rooted (below : List Frame) : Frame → Prop
  | signal _ _ entry _ => entry.Twin ∧ reaches (.protect entry.returnBlock) below = true
  | protect _ r c h _ => ∃ rest, below = .onDo r c h :: rest
  | _ => True

def Rooted : List Frame → Prop
  | [] => True
  | f :: below => f.Rooted below ∧ Rooted below

structure Grounded (frames : List Frame) (handlers : List Entry) (xs : List ExceptionObject) : Prop where
  rooted : Rooted frames
  handlers : ∀ e ∈ handlers, e.Twin
  popped : ∀ x ∈ xs, ∀ id popped, x.handlerResume = some (id, popped) → ∀ e ∈ popped, e.Twin

variable {handlers : List Entry} {xs : List ExceptionObject} {f : Frame} {frames : List Frame}

theorem mem_kept {e : Entry} (he : e ∈ State.kept handlers f) : e ∈ handlers := by
  cases f with
  | protect id r c b depth => exact mem_of_mem_take he
  | _ => exact he

theorem Grounded.pop (h : Grounded (f :: frames) handlers xs) : Grounded frames (State.kept handlers f) xs := ⟨h.rooted.2, fun e he => h.handlers e (mem_kept he), h.popped⟩

theorem Grounded.push (hf : f.Rooted frames) (h : Grounded frames handlers xs) : Grounded (f :: frames) handlers xs := ⟨⟨hf, h.rooted⟩, h.handlers, h.popped⟩

structure State.Routed (s : State) : Prop where
  grounded : Grounded s.frames s.handlers s.exceptions
  own : s.OwnRoutes

namespace State

variable {w : Hierarchy} {s t : State} {home : Home} {v : Value} {answer : Option Value} {e : Nat}
  {f : Frame} {below frames : List Frame} {xs : List ExceptionObject}

theorem currentRun_plain (hf : f.isRun = false) : currentRun e (f :: below) = currentRun e below := by
  cases f with
  | signal id e' entry popped => cases hf
  | curtailment gone left => cases hf
  | _ => rfl

theorem Own.plain (hf : f.isRun = false) (h : Own e xs below) : Own e xs (f :: below) := by
  unfold Own
  rw [currentRun_plain hf]
  exact h

theorem Own.pop (hf : f.isRun = false) (h : Own e xs (f :: below)) : Own e xs below := by
  unfold Own at h
  rw [currentRun_plain hf] at h
  exact h

theorem Own.of_none (h : currentRun e frames = none) : Own e xs frames := by
  intro id entry popped hrun
  rw [h] at hrun
  cases hrun

theorem primError_routed (h : Grounded s.frames s.handlers s.exceptions) : s.primError.Routed := by
  unfold primError
  split
  next => exact ⟨⟨trivial, h.handlers, h.popped⟩, trivial⟩
  next => exact ⟨h, trivial⟩

section Returns

variable (h : Grounded s.frames s.handlers s.exceptions) (hown : ∀ e, Own e s.exceptions s.frames)

include h hown

theorem continueUnwind_routed {cs : List Nat} : (s.continueUnwind home v cs).Routed := by
  unfold continueUnwind
  split
  next => exact ⟨h, fun e => .inl (hown e)⟩
  next => exact primError_routed h

theorem protect_routed {r c b : Nat} {rest : List Frame} (hframes : s.frames = .onDo r c b :: rest) :
    (s.protect r c b).Routed := by
  refine ⟨⟨⟨trivial, ⟨rest, hframes⟩, h.rooted⟩, fun e he => ?_, h.popped⟩, fun e => ?_⟩
  · rcases mem_append.mp he with he | he
    · exact h.handlers e he
    · rw [mem_singleton.mp he]
      rfl
  · exact Own.plain rfl (Own.plain rfl (hown e))

end Returns

theorem Own.append (ys : List ExceptionObject) (h : Own e xs frames) : Own e (xs ++ ys) frames := by
  intro id entry popped hrun
  obtain ⟨x, hx, hroutes⟩ := h id entry popped hrun
  refine ⟨x, ?_, hroutes⟩
  rw [List.getElem?_append_left (List.getElem?_eq_some_iff.mp hx).1]
  exact hx

theorem stops_home (hhome : f.isHome home = true) : stops home (f :: below) = [below] := if_pos hhome

theorem stops_plain (hhome : f.isHome home = false) (hcurt : f.isCurtailment = false)
    (hblock : ∀ body b k saved, f ≠ .block body (.handler b k) saved) :
    stops home (f :: below) = stops home below := by
  have hnot : ¬ f.isHome home = true := by
    rw [hhome]
    exact Bool.false_ne_true
  cases f with
  | block body marker saved =>
    cases marker with
    | handler b k => exact absurd rfl (hblock body b k saved)
    | _ => exact if_neg hnot
  | curtailment gone left => cases hcurt
  | _ => exact if_neg hnot

variable {popped : List Entry} {x : ExceptionObject} {cs : List Nat} {a : Nat} {handlers : List Entry} {entry : Entry}
  {id : Nat} {n : Nat}

theorem currentRun_other {e' id : Nat} (hne : e ≠ e') :
    currentRun e' (.signal id e entry popped :: below) = currentRun e' below := if_neg hne

section Signals

variable (h : Grounded s.frames s.handlers s.exceptions) (hown : ∀ e, Own e s.exceptions s.frames)

include h hown

theorem signal_routed (hfinds : ∀ x, s.exceptions[e]? = some x → s.FindsLive w x.cls) (hrun : s.signal w e = some t) :
    t.Routed := by
  unfold signal at hrun
  split at hrun
  next => cases hrun
  next x hx =>
    split at hrun
    next =>
      split at hrun
      next =>
        cases hrun
        exact ⟨h, hown⟩
      next =>
        cases hrun
        exact primError_routed h
    next index entry hfind =>
      cases hrun
      have hmem : entry ∈ s.handlers := mem_of_getElem? (findHandlerFor_spec hfind).2.2.1
      have hlen : e < s.exceptions.length := (List.getElem?_eq_some_iff.mp hx).1
      refine ⟨⟨⟨trivial, ⟨h.handlers entry hmem, hfinds x hx index entry hfind⟩, h.rooted⟩,
        fun e' he' => h.handlers e' (mem_of_mem_take he'), ?_⟩, ?_⟩
      · intro y hy id popped hresume
        rcases mem_or_eq_of_mem_set hy with hy | hy
        · exact h.popped y hy id popped hresume
        · rw [hy] at hresume
          cases hresume
          exact fun e' he' => h.handlers e' (mem_of_mem_drop he')
      · intro e'
        apply Own.plain rfl
        intro id entry' popped hcur
        by_cases he : e = e'
        · rw [← he] at hcur ⊢
          unfold currentRun at hcur
          rw [if_pos rfl] at hcur
          cases hcur
          exact ⟨_, List.getElem?_set_self hlen, rfl, rfl, rfl⟩
        · unfold currentRun at hcur
          rw [if_neg he] at hcur
          rw [List.getElem?_set_ne he]
          exact hown e' id entry' popped hcur

theorem signalError_routed (hfinds : s.FindsLive w w.error) (hrun : s.signalError w = some t) : t.Routed := by
  refine signal_routed (s := s.new w.error) ⟨h.rooted, h.handlers, ?_⟩ ?_ ?_ hrun
  · intro x hx id popped hresume
    rcases mem_append.mp hx with hx | hx
    · exact h.popped x hx id popped hresume
    · rw [mem_singleton] at hx
      rw [hx] at hresume
      cases hresume
  · exact fun e => (hown e).append _
  · intro x hx
    have hlast : (s.new w.error).exceptions[s.exceptions.length]? = some ⟨w.error, none, none, none⟩ :=
      List.getElem?_concat_length
    cases (hx.symm.trans hlast)
    exact hfinds

end Signals

theorem Own.leave (hnot : f.isHome home = false) (hcurt : f.isCurtailment = false)
    (hblock : ∀ body b k saved, f ≠ .block body (.handler b k) saved)
    (hleaves : ∀ id e entry popped, f = .signal id e entry popped →
      ∀ rest ∈ stops home (f :: below), currentRun e rest = none)
    (hown : Own e xs (f :: below) ∨ ∀ rest ∈ stops home (f :: below), currentRun e rest = none) :
    Own e xs below ∨ ∀ rest ∈ stops home below, currentRun e rest = none := by
  rw [stops_plain hnot hcurt hblock] at hown hleaves
  rcases hown with hown | hown
  · cases f with
    | signal id e' entry popped =>
      by_cases he : e' = e
      · rw [← he]
        exact .inr (hleaves id e' entry popped rfl)
      · left
        unfold Own at hown
        rw [currentRun_other he] at hown
        exact hown
    | curtailment gone left => cases hcurt
    | _ => exact .inl (hown.pop rfl)
  · exact .inr hown

theorem Own.arrive (hin : f.isHome home = true) (hleaves : ∀ id e entry popped, f = .signal id e entry popped →
      ∀ rest ∈ stops home (f :: below), currentRun e rest = none)
    (hown : Own e xs (f :: below) ∨ ∀ rest ∈ stops home (f :: below), currentRun e rest = none) : Own e xs below := by
  rw [stops_home hin] at hown hleaves
  rcases hown with hown | hown
  · cases f with
    | signal id e' entry popped =>
      by_cases he : e' = e
      · rw [← he]
        exact Own.of_none (hleaves id e' entry popped rfl below mem_cons_self)
      · unfold Own at hown
        rw [currentRun_other he] at hown
        exact hown
    | curtailment gone left => cases hin
    | _ => exact hown.pop rfl
  · exact Own.of_none (hown below mem_cons_self)

theorem unwind_routed (hmode : s.mode = .unwinding home v cs)
    (h : Grounded s.frames s.handlers s.exceptions) (hown : s.OwnRoutes)
    (hleaves : ∀ id e entry popped below, s.frames = .signal id e entry popped :: below →
      ∀ rest ∈ stops home s.frames, currentRun e rest = none)
    (hrun : s.unwind home v cs = some t) : t.Routed := by
  obtain ⟨f, below, hframes, hcase⟩ := unwind_cases hmode hrun
  have hg := h
  unfold OwnRoutes at hown
  rw [hmode] at hown
  rw [hframes] at hg hown hleaves
  have hleave : ∀ id e entry popped, f = .signal id e entry popped →
      ∀ rest ∈ stops home (f :: below), currentRun e rest = none := by
    intro id e entry popped hf
    exact hleaves id e entry popped below (by rw [hf])
  rcases hcase with ⟨id, rfl, hin, rfl⟩ | ⟨hin, -, rfl⟩ | ⟨body, b, k, saved, rfl, rfl⟩ | ⟨gone, left, rfl, rfl⟩ |
    ⟨hnot, hcurt, hblock, rfl⟩
  · refine ⟨h, fun e => ?_⟩
    rw [hframes]
    exact (Own.arrive hin hleave (hown e)).plain rfl
  · exact ⟨hg.pop, fun e => Own.arrive hin hleave (hown e)⟩
  · refine ⟨⟨⟨trivial, trivial, hg.rooted.2⟩, hg.handlers, hg.popped⟩, fun e => Own.plain rfl (Own.plain rfl ?_)⟩
    rcases hown e with hown | hown
    · exact hown.pop rfl
    · apply Own.of_none
      have hnone := hown (.block body (.handler b k) saved :: below) mem_cons_self
      rw [currentRun_plain rfl] at hnone
      exact hnone
  · exact ⟨hg.pop, trivial⟩
  · exact ⟨hg.pop, fun e => Own.leave hnot hcurt hblock hleave (hown e)⟩

theorem curtail_routed {gone : List Home} (hmode : s.mode = .curtailing gone cs)
    (h : Grounded s.frames s.handlers s.exceptions) (hrun : s.curtail gone cs = some t) : t.Routed := by
  rcases curtail_cases hmode hrun with ⟨-, rfl⟩ | ⟨f, below, hframes, hcase⟩
  · exact ⟨h, trivial⟩
  · rw [hframes] at h
    rcases hcase with ⟨body, b, k, saved, rfl, rfl⟩ | ⟨gone', rfl⟩
    · exact ⟨⟨⟨trivial, trivial, h.rooted.2⟩, h.handlers, h.popped⟩, fun e => Own.plain rfl (Own.of_none rfl)⟩
    · exact ⟨h.pop, trivial⟩

section Verbs

variable (h : Grounded s.frames s.handlers s.exceptions) (hown : ∀ e, Own e s.exceptions s.frames)

include h hown

theorem doReturn_routed (hmode : s.mode = .returning v) (hrun : s.doReturn v = some t) : t.Routed := by
  obtain ⟨frames, mode, handlers, exceptions, next⟩ := s
  subst hmode
  unfold doReturn at hrun
  dsimp only at hrun
  split at hrun
  next id =>
    cases some.inj hrun
    exact ⟨h.pop, trivial⟩
  next id below _ =>
    cases some.inj hrun
    exact ⟨h.pop, fun e => (hown e).pop rfl⟩
  next body b saved below =>
    cases some.inj hrun
    refine ⟨⟨⟨trivial, trivial, h.rooted.2⟩, h.handlers, h.popped⟩, fun e => ?_⟩
    exact (((hown e).pop rfl).plain rfl).plain rfl
  next body b saved below =>
    cases some.inj hrun
    exact ⟨h.pop.push trivial, fun e => ((hown e).pop rfl).plain rfl⟩
  next body below =>
    cases some.inj hrun
    exact ⟨h.pop, fun e => (hown e).pop rfl⟩
  next body result below =>
    cases some.inj hrun
    exact ⟨h.pop, fun e => (hown e).pop rfl⟩
  next body body' home value left saved below =>
    cases some.inj hrun
    exact continueUnwind_routed (s := ⟨.block body' .nil saved :: below, .returning v, handlers, exceptions, next⟩)
      (h.pop.pop.push trivial)
      (fun e => (((hown e).pop rfl).pop rfl).plain rfl)
  next => cases hrun

theorem returnWith_routed (hfinds : ∀ cls, s.signalled w (.returnWith e v) = some cls → s.FindsLive w cls)
    (hrun : s.returnWith w e v = some t) : t.Routed := by
  unfold returnWith at hrun
  split at hrun
  next => cases hrun
  next x hx =>
    split at hrun
    next hnone =>
      apply signalError_routed h hown (hfinds w.error _) hrun
      unfold signalled
      dsimp only
      rw [hx, bind_some, if_pos hnone]
    next home _ =>
      cases hrun
      exact continueUnwind_routed h hown

theorem retry_routed (hfinds : ∀ cls, s.signalled w (.retry e) = some cls → s.FindsLive w cls)
    (hrun : s.retry w e = some t) : t.Routed := by
  unfold retry at hrun
  split at hrun
  next => cases hrun
  next x hx =>
    split at hrun
    next hnone =>
      apply signalError_routed h hown (hfinds w.error _) hrun
      unfold signalled
      dsimp only
      rw [hx, bind_some, if_pos hnone]
    next home _ =>
      cases hrun
      exact continueUnwind_routed h hown

theorem pass_routed (hfinds : ∀ cls, s.signalled w (.pass e) = some cls → s.FindsLive w cls)
    (hrun : s.pass w e = some t) : t.Routed := by
  unfold pass at hrun
  split at hrun
  next => cases hrun
  next x hx =>
    split at hrun
    next hnone =>
      apply signalError_routed h hown (hfinds w.error _) hrun
      unfold signalled
      dsimp only
      rw [hx, map_some, if_pos hnone]
    next mine hmine =>
      have hcls : s.signalled w (.pass e) = some x.cls := by
        unfold signalled
        dsimp only
        rw [hx, map_some, if_neg (by rw [hmine]; exact some_ne_none _)]
      refine signal_routed (s := { s with frames := .pass mine :: s.frames })
        (h.push trivial) (fun e => (hown e).plain rfl) ?_ hrun
      intro y hy
      cases (hx.symm.trans hy)
      exact hfinds x.cls hcls

theorem resume_routed (hfinds : ∀ cls, s.signalled w (.resume e v) = some cls → s.FindsLive w cls)
    (hrun : s.resume w e v = some t) : t.Routed := by
  unfold resume at hrun
  split at hrun
  next => cases hrun
  next x hx =>
    have herror : w.isResumable x.cls = false ∨ x.handlerResume = none →
        s.signalled w (.resume e v) = some w.error := by
      intro hcase
      unfold signalled
      dsimp only
      rw [hx, bind_some, if_pos hcase]
    split at hrun
    next hnot => exact signalError_routed h hown (hfinds _ (herror (.inl (by simpa using hnot)))) hrun
    next =>
      split at hrun
      next hnone => exact signalError_routed h hown (hfinds _ (herror (.inr hnone))) hrun
      next home popped hresume =>
        cases hrun
        refine continueUnwind_routed (s := { s with handlers := restoreHandlers s.handlers popped }) ⟨h.rooted, fun e' he' => ?_, h.popped⟩ hown
        rcases mem_append.mp he' with he' | he'
        · exact h.handlers e' he'
        · exact h.popped x (mem_of_getElem? hx) home popped hresume e' he'

theorem deliver_routed (hmode : s.mode = .run answer) (hrun : s.deliver w v = some t) : t.Routed := by
  obtain ⟨frames, mode, handlers, exceptions, next⟩ := s
  subst hmode
  unfold deliver at hrun
  dsimp only at hrun
  split at hrun
  next r c b below =>
    split at hrun
    next =>
      cases some.inj hrun
      exact protect_routed h hown rfl
    next =>
      cases some.inj hrun
      exact ⟨h.pop, fun e => (hown e).pop rfl⟩
  next id r c b depth below =>
    cases some.inj hrun
    exact ⟨h.pop, fun e => (hown e).pop rfl⟩
  next id e entry popped below =>
    -- the route is bound: the run on top is the current one
    obtain ⟨x, hx, hreturn, _⟩ := hown e id entry popped (if_pos rfl)
    apply returnWith_routed h hown (fun cls hcls => ?_) hrun
    unfold signalled at hcls
    dsimp only at hcls
    rw [hx, bind_some, if_neg (by rw [hreturn]; exact some_ne_none _)] at hcls
    cases hcls
  next mine below =>
    cases some.inj hrun
    exact continueUnwind_routed h hown
  next gone left below =>
    cases some.inj hrun
    exact ⟨h.pop, trivial⟩
  next => cases hrun

theorem activate_routed (hf : f.isRun = false) (hroot : f.Rooted s.frames) : (s.activate f).Routed :=
  ⟨h.push hroot, fun e => (hown e).plain hf⟩

theorem userStep_routed {a : Action} (hmode : s.mode = .run answer)
    (hfinds : ∀ cls, s.signalled w a = some cls → s.FindsLive w cls) (hrun : s.userStep w a = some t) :
    t.Routed := by
  have hcls : ∀ e, a = .signal e ∨ a = .outer e → ∀ x, s.exceptions[e]? = some x → s.FindsLive w x.cls := by
    intro e hcase x hx
    apply hfinds
    rcases hcase with rfl | rfl
    · unfold signalled
      dsimp only
      rw [hx, map_some]
    · unfold signalled
      dsimp only
      rw [hx, map_some]
  cases a with
  | library => cases hrun
  | send =>
    cases hrun
    have hr := activate_routed h hown (f := .method s.next) rfl trivial
    exact ⟨hr.grounded, hr.own⟩
  | value body =>
    cases hrun
    exact activate_routed h hown rfl trivial
  | ensure body b =>
    cases hrun
    exact activate_routed h hown rfl trivial
  | ifCurtailed body b =>
    cases hrun
    exact activate_routed h hown rfl trivial
  | answer v =>
    obtain ⟨-, hrun⟩ := ite_none_left_eq_some.mp hrun
    cases hrun
    exact ⟨h, hown⟩
  | nonLocalReturn id v =>
    obtain ⟨-, hrun⟩ := ite_none_left_eq_some.mp hrun
    cases hrun
    exact continueUnwind_routed h hown
  | onDo r c b =>
    cases hrun
    exact protect_routed (s := { s with frames := .onDo r c b :: s.frames }) (h.push trivial)
      (fun e => (hown e).plain rfl) rfl
  | new cls =>
    cases hrun
    refine ⟨⟨h.rooted, h.handlers, fun x hx id popped hresume => ?_⟩, ?_⟩
    · rcases mem_append.mp hx with hx | hx
      · exact h.popped x hx id popped hresume
      · rw [mem_singleton] at hx
        rw [hx] at hresume
        cases hresume
    · unfold OwnRoutes new
      rw [hmode]
      exact fun e => (hown e).append _
  | signal e => exact signal_routed h hown (hcls e (.inl rfl)) hrun
  | returnWith e v =>
    obtain ⟨-, hrun⟩ := ite_none_left_eq_some.mp hrun
    exact returnWith_routed h hown hfinds hrun
  | retry e => exact retry_routed h hown hfinds hrun
  | pass e => exact pass_routed h hown hfinds hrun
  | outer e => exact signal_routed h hown (hcls e (.inr rfl)) hrun
  | resume e v =>
    obtain ⟨-, hrun⟩ := ite_none_left_eq_some.mp hrun
    exact resume_routed h hown hfinds hrun

end Verbs

theorem step_routed {a : Action} (h : s.Routed) (hok : s.RoutesKept w a) (hstep : s.step w a = some t) : t.Routed := by
  obtain ⟨hg, ho⟩ := h
  rcases step_cases hstep with ⟨huser, answer, hmode, hrun⟩ | ⟨_, rfl, hrun⟩
  · unfold OwnRoutes at ho
    rw [hmode] at ho
    exact userStep_routed hg ho hmode hok.finds hrun
  · unfold libraryStep at hrun
    cases hmode : s.mode with
    | run answer =>
      unfold OwnRoutes at ho
      rw [hmode] at ho hrun
      exact deliver_routed hg ho hmode hrun
    | returning v =>
      unfold OwnRoutes at ho
      rw [hmode] at ho hrun
      exact doReturn_routed hg ho hmode hrun
    | unwinding home v cs =>
      rw [hmode] at hrun
      exact unwind_routed hmode hg ho (fun id e entry popped below => hok.leaves home v cs id e entry popped
        below hmode) hrun
    | curtailing gone cs =>
      rw [hmode] at hrun
      exact curtail_routed hmode hg hrun
    | stopped =>
      rw [hmode] at hrun
      cases hrun

theorem run_routed (h : Run w (RoutesKept w) s) : s.Routed := by
  induction h with
  | start =>
    refine ⟨⟨⟨trivial, trivial⟩, fun e he => ?_, fun x hx => ?_⟩, fun e => Own.of_none rfl⟩
    · cases he
    · cases hx
  | step a _ hok hstep ih => exact step_routed ih hok hstep

/-- The library's steps lead to `P`, when each cleanup block on the way ends by returning. -/
inductive Arrives (w : Hierarchy) (P : State → Prop) : State → Prop
  | here {s : State} (h : P s) : Arrives w P s
  | library {s t : State} (hstep : s.step w .library = some t) (h : Arrives w P t) : Arrives w P s
  | cleanup {s : State} (b : Nat) (below : List Frame) (hframes : s.frames = .block b .nil .resumeUnwind :: below)
    (hmode : s.mode = .run none)
    (h : ∀ u v, u.frames = s.frames → u.mode = .returning v → Arrives w P u) : Arrives w P s

variable {P : State → Prop}

theorem reaches_live (h : reaches home frames = true) : frames.any (Frame.holds home) = true := by
  induction frames with
  | nil => cases h
  | cons f below ih =>
    rw [any_cons, Bool.or_eq_true]
    rcases Bool.or_eq_true_iff.mp h with hhome | hbelow
    · left
      cases f with
      | curtailment gone left => cases hhome
      | _ => exact hhome
    · exact .inr (ih (Bool.and_eq_true_iff.mp hbelow).2)

theorem unwind_arrives (hhome : ∀ id, home ≠ .method id) (hreach : reaches home frames = true)
    (h : ∀ handlers xs n, Arrives w P ⟨belowHome home frames, .run (some v), handlers, xs, n⟩) :
    Arrives w P ⟨frames, .unwinding home v cs, handlers, xs, n⟩ := by
  induction frames generalizing cs handlers xs n with
  | nil => cases hreach
  | cons f below ih =>
    unfold reaches at hreach
    have hgo : f.isHome home = false → reaches home below = true ∧ ∀ cs handlers xs n,
        Arrives w P ⟨below, .unwinding home v cs, handlers, xs, n⟩ := by
      intro hnot
      rw [hnot, Bool.false_or, Bool.and_eq_true] at hreach
      have hbelow : belowHome home (f :: below) = belowHome home below :=
        if_neg (by rw [hnot]; exact Bool.false_ne_true)
      rw [hbelow] at h
      exact ⟨hreach.2, fun cs handlers xs n => ih hreach.2 h⟩
    cases f with
    | method id =>
      have hnot : ¬ home = .method id := hhome id
      exact Arrives.library (if_neg hnot) ((hgo (decide_eq_false hnot)).2 ..)
    | onDo r c b => exact Arrives.library rfl ((hgo rfl).2 ..)
    | protect id r c b d =>
      by_cases hid : home = .protect id
      · have hbelow : belowHome home (.protect id r c b d :: below) = below := if_pos (decide_eq_true hid)
        rw [hbelow] at h
        exact Arrives.library (if_pos hid) (h ..)
      · exact Arrives.library (if_neg hid) ((hgo (decide_eq_false hid)).2 ..)
    | signal id e entry popped =>
      by_cases hid : home = .signal id
      · have hbelow : belowHome home (.signal id e entry popped :: below) = below := if_pos (decide_eq_true hid)
        rw [hbelow] at h
        exact Arrives.library (if_pos hid) (h ..)
      · exact Arrives.library (if_neg hid) ((hgo (decide_eq_false hid)).2 ..)
    | pass mine => exact Arrives.library rfl ((hgo rfl).2 ..)
    | curtailment gone left => cases hreach
    | block body marker saved =>
      cases marker with
      | nil => exact Arrives.library rfl ((hgo rfl).2 ..)
      | token home' v' left => exact Arrives.library rfl ((hgo rfl).2 ..)
      | handler b k =>
        -- the cleanup block returns into the suspended return, which goes on
        refine Arrives.library rfl (Arrives.cleanup b _ rfl rfl fun u v' hframes hmode => ?_)
        obtain ⟨frames', mode, handlers', xs', n'⟩ := u
        subst hframes
        subst hmode
        have hlive : (Frame.block body .nil saved :: below).any (Frame.holds home) = true := by
          rw [any_cons, reaches_live (hgo rfl).1, Bool.or_true]
        have hstep : step w ⟨.block b .nil .resumeUnwind :: .block body (.token home v cs) saved :: below,
            .returning v', handlers', xs', n'⟩ .library =
            some ⟨.block body .nil saved :: below, .unwinding home v cs, handlers', xs', n'⟩ := by
          have hgoes : continueUnwind ⟨.block body .nil saved :: below, .returning v', handlers', xs', n'⟩
              home v cs = ⟨.block body .nil saved :: below, .unwinding home v cs, handlers', xs', n'⟩ :=
            if_pos hlive
          exact congrArg some hgoes
        exact Arrives.library hstep (Arrives.library rfl ((hgo rfl).2 ..))

theorem reaches_cons (hcurt : f.isCurtailment = false) (h : reaches home below = true) :
    reaches home (f :: below) = true := by
  unfold reaches
  rw [hcurt, h]
  exact Bool.or_true _

theorem reaches_onDo (hr : Rooted frames) (h : reaches (.protect a) frames = true) :
    ∃ r c b below, belowHome (.protect a) frames = .onDo r c b :: below := by
  induction frames with
  | nil => cases h
  | cons f below ih =>
    by_cases hhome : f.isHome (.protect a) = true
    · have hbelow : belowHome (.protect a) (f :: below) = below := if_pos hhome
      rw [hbelow]
      cases f with
      | protect id r c b d =>
        obtain ⟨rest, hrest⟩ := hr.1
        exact ⟨r, c, b, rest, hrest⟩
      | method id =>
        have hsame : Home.protect a = .method id := of_decide_eq_true hhome
        cases hsame
      | signal id e entry popped =>
        have hsame : Home.protect a = .signal id := of_decide_eq_true hhome
        cases hsame
      | _ => cases hhome
    · have hbelow : belowHome (.protect a) (f :: below) = belowHome (.protect a) below := if_neg hhome
      rw [hbelow]
      unfold reaches at h
      rw [Bool.eq_false_iff.mpr hhome, Bool.false_or, Bool.and_eq_true] at h
      exact ih hr.2 h.2

theorem currentRun_reaches (hr : Rooted frames) (h : currentRun e frames = some (id, entry, popped)) :
    entry.Twin ∧ reaches (.protect entry.returnBlock) frames = true ∧ reaches (.signal id) frames = true := by
  induction frames with
  | nil => cases h
  | cons f below ih =>
    cases f with
    | signal id' e' entry' popped' =>
      by_cases he : e' = e
      · have hrun : currentRun e (.signal id' e' entry' popped' :: below) = some (id', entry', popped') := if_pos he
        rw [hrun] at h
        cases h
        refine ⟨hr.1.1, reaches_cons rfl hr.1.2, ?_⟩
        exact Bool.or_eq_true_iff.mpr (.inl (decide_eq_true rfl))
      · rw [currentRun_other he] at h
        obtain ⟨htwin, hprotect, hsignal⟩ := ih hr.2 h
        exact ⟨htwin, reaches_cons rfl hprotect, reaches_cons rfl hsignal⟩
    | curtailment gone left => cases h
    | _ =>
      obtain ⟨htwin, hprotect, hsignal⟩ := ih hr.2 h
      exact ⟨htwin, reaches_cons rfl hprotect, reaches_cons rfl hsignal⟩

theorem protect_arrives {r c b : Nat} (hv : v ≠ .retryToken) (hreach : reaches (.protect a) frames = true)
    (hon : belowHome (.protect a) frames = .onDo r c b :: below) :
    Arrives w (fun u => u.frames = below ∧ u.mode = .run (some v))
      ⟨frames, .unwinding (.protect a) v [], handlers, xs, n⟩ := by
  apply unwind_arrives (by intro id he; cases he) hreach
  intro handlers xs n
  rw [hon]
  exact Arrives.library (if_neg hv) (Arrives.here ⟨rfl, rfl⟩)

/-- What a handler run does: falling off its end or `return:` makes the run's own `on:do:` answer,
`retry` runs its protected block again, and `resume:` goes on from the run's own signal. -/
structure OwnVerbs (w : Hierarchy) (s : State) (e id : Nat) (entry : Entry) : Prop where
  fallsOff : ∀ body popped rest v, v ≠ .retryToken →
    s.frames = .block body .nil .bytecode :: .signal id e entry popped :: rest →
    ∃ t r c h below, s.step w (.answer v) = some t ∧
      belowHome (.protect entry.returnBlock) s.frames = .onDo r c h :: below ∧
      Arrives w (fun u => u.frames = below ∧ u.mode = .run (some v)) t
  returns : ∀ v, v ≠ .retryToken → ∃ t r c h below, s.step w (.returnWith e v) = some t ∧
    belowHome (.protect entry.returnBlock) s.frames = .onDo r c h :: below ∧
    Arrives w (fun u => u.frames = below ∧ u.mode = .run (some v)) t
  retries : ∃ t r c h below, s.step w (.retry e) = some t ∧
    belowHome (.protect entry.returnBlock) s.frames = .onDo r c h :: below ∧
    Arrives w (fun u => ∃ id depth,
      u.frames = .block r .nil .bytecode :: .protect id r c h depth :: .onDo r c h :: below ∧ u.mode = .run none) t
  resumes : ∀ x v, v ≠ .retryToken → s.exceptions[e]? = some x → w.isResumable x.cls = true →
    ∃ t, s.step w (.resume e v) = some t ∧
      Arrives w (fun u => u.frames = belowHome (.signal id) s.frames ∧ u.mode = .run (some v)) t

theorem returnWith_eq (hx : s.exceptions[e]? = some x) (hreturn : x.handlerReturn = some a) :
    s.returnWith w e v = some (s.continueUnwind (.protect a) v []) := by
  unfold returnWith
  rw [hx]
  dsimp only
  rw [hreturn]

theorem retry_eq (hx : s.exceptions[e]? = some x) (hretry : x.handlerRetry = some a) :
    s.retry w e = some (s.continueUnwind (.protect a) .retryToken []) := by
  unfold retry
  rw [hx]
  dsimp only
  rw [hretry]

theorem resume_eq (hx : s.exceptions[e]? = some x)
    (hresumable : w.isResumable x.cls = true) (hresume : x.handlerResume = some (id, popped)) :
    s.resume w e v =
      some (continueUnwind { s with handlers := restoreHandlers s.handlers popped } (.signal id) v []) := by
  unfold resume
  rw [hx]
  dsimp only
  rw [hresumable, Bool.not_true, if_neg Bool.false_ne_true, hresume]

/-- In every handler run its verbs act on its own activation and on its own signal. -/
theorem verbs_own (h : Run w (RoutesKept w) s) (hruns : s.userRuns = true) {id : Nat} {entry : Entry}
    {popped : List Entry} (hcur : currentRun e s.frames = some (id, entry, popped)) :
    s.OwnVerbs w e id entry := by
  have hrouted := run_routed h
  obtain ⟨frames, mode, handlers, xs, n⟩ := s
  have hown : ∀ e, Own e xs frames := by
    have ho := hrouted.own
    cases mode with
    | run answer => exact ho
    | _ => cases hruns
  obtain ⟨x, hx, hreturn, hretry, hresume⟩ := hown e id entry popped hcur
  obtain ⟨htwin, hprotect, hsignal⟩ := currentRun_reaches hrouted.grounded.rooted hcur
  obtain ⟨r, c, b, below, hon⟩ := reaches_onDo hrouted.grounded.rooted hprotect
  have hlive := reaches_live hprotect
  have hgoes : ∀ v, continueUnwind ⟨frames, mode, handlers, xs, n⟩ (.protect entry.returnBlock) v [] =
      ⟨frames, .unwinding (.protect entry.returnBlock) v [], handlers, xs, n⟩ := fun v => if_pos hlive
  have huser : ∀ a, a ≠ .library → step w ⟨frames, mode, handlers, xs, n⟩ a =
      userStep w ⟨frames, mode, handlers, xs, n⟩ a := by
    intro a ha
    cases a with
    | library => exact absurd rfl ha
    | _ => exact if_pos hruns
  constructor
  case fallsOff =>
    intro body popped' rest v hv hframes
    subst hframes
    have hon' : belowHome (.protect entry.returnBlock) (.signal id e entry popped' :: rest) =
        .onDo r c b :: below := hon
    have hprotect' : reaches (.protect entry.returnBlock) (.signal id e entry popped' :: rest) = true := hprotect
    have hanswer : userStep w ⟨.block body .nil .bytecode :: .signal id e entry popped' :: rest, mode,
        handlers, xs, n⟩ (.answer v) = some ⟨.block body .nil .bytecode :: .signal id e entry popped' :: rest,
        .returning v, handlers, xs, n⟩ := if_neg hv
    have hend : step w ⟨.signal id e entry popped' :: rest, .run (some v), handlers, xs, n⟩ .library =
        some ⟨.signal id e entry popped' :: rest, .unwinding (.protect entry.returnBlock) v [], handlers, xs,
          n⟩ := by
      have hret := returnWith_eq (w := w) (v := v)
        (s := ⟨.signal id e entry popped' :: rest, .run (some v), handlers, xs, n⟩) hx hreturn
      have hgo : continueUnwind ⟨.signal id e entry popped' :: rest, .run (some v), handlers, xs, n⟩
          (.protect entry.returnBlock) v [] = ⟨.signal id e entry popped' :: rest,
          .unwinding (.protect entry.returnBlock) v [], handlers, xs, n⟩ := if_pos (reaches_live hprotect')
      rw [hgo] at hret
      exact hret
    refine ⟨_, r, c, b, below, (huser _ (by intro ha; cases ha)).trans hanswer, hon, ?_⟩
    exact Arrives.library rfl (Arrives.library hend (protect_arrives hv hprotect' hon'))
  case returns =>
    intro v hv
    have hrun : userStep w ⟨frames, mode, handlers, xs, n⟩ (.returnWith e v) =
        returnWith w ⟨frames, mode, handlers, xs, n⟩ e v := if_neg hv
    have hret := returnWith_eq (w := w) (v := v) (s := ⟨frames, mode, handlers, xs, n⟩) hx hreturn
    rw [hgoes] at hret
    exact ⟨_, r, c, b, below, ((huser _ (by intro ha; cases ha)).trans hrun).trans hret, hon,
      protect_arrives hv hprotect hon⟩
  case retries =>
    rw [htwin] at hretry
    have hret := retry_eq (w := w) (s := ⟨frames, mode, handlers, xs, n⟩) hx hretry
    rw [hgoes] at hret
    refine ⟨_, r, c, b, below, (huser _ (by intro ha; cases ha)).trans hret, hon, ?_⟩
    apply unwind_arrives (by intro id he; cases he) hprotect
    intro handlers xs n
    rw [hon]
    have hagain : step w ⟨.onDo r c b :: below, .run (some .retryToken), handlers, xs, n⟩ .library =
        some (protect ⟨.onDo r c b :: below, .run (some .retryToken), handlers, xs, n⟩ r c b) := rfl
    exact Arrives.library hagain (Arrives.here ⟨n, handlers.length, rfl, rfl⟩)
  case resumes =>
    intro y v hv hy hresumable
    cases (hx.symm.trans hy)
    have hrun : userStep w ⟨frames, mode, handlers, xs, n⟩ (.resume e v) =
        resume w ⟨frames, mode, handlers, xs, n⟩ e v := if_neg hv
    have hret := resume_eq (v := v) (s := ⟨frames, mode, handlers, xs, n⟩) hx hresumable hresume
    have hgo : continueUnwind ⟨frames, mode, restoreHandlers handlers popped, xs, n⟩ (.signal id) v [] =
        ⟨frames, .unwinding (.signal id) v [], restoreHandlers handlers popped, xs, n⟩ :=
      if_pos (reaches_live hsignal)
    rw [hgo] at hret
    refine ⟨_, ((huser _ (by intro ha; cases ha)).trans hrun).trans hret, ?_⟩
    apply unwind_arrives (by intro id he; cases he) hsignal
    intro handlers xs n
    exact Arrives.here ⟨rfl, rfl⟩

/-- The handler of `[Warning signal] on: Warning do: [:w | ...]`. -/
theorem verbs_own_in_handler :
    ∃ s, Run twoKinds (RoutesKept twoKinds) s ∧ s.userRuns = true ∧ s.OwnVerbs twoKinds 0 2 ⟨0, 2, 1, 1⟩ := by
  have h₁ := Run.step (.onDo 1 0 2) (Run.start : Run twoKinds (RoutesKept twoKinds) start)
    ⟨fun cls hcls => (by cases hcls), fun home v cs id e entry popped below hmode => (by cases hmode)⟩ rfl
  have h₂ := Run.step (.new 0) h₁
    ⟨fun cls hcls => (by cases hcls), fun home v cs id e entry popped below hmode => (by cases hmode)⟩ rfl
  have h₃ := Run.step (.signal 0) h₂
    (by
      refine ⟨fun cls hcls index entry hfind => ?_,
        fun home v cs id e entry popped below hmode => (by cases hmode)⟩
      cases hcls
      cases hfind
      rfl) rfl
  exact ⟨_, h₃, rfl, verbs_own h₃ rfl rfl⟩

/-- `[[Warning signal] on: Warning do: [:w | w outer. w return: 5]] on: Warning do: [:w | w resume: nil]`:
in the inner handler, run for the activation 2, `return:` makes the outer `on:do:` answer. -/
theorem return_after_outer_answers_outer :
    ((start.steps twoKinds [.onDo 1 0 2, .onDo 3 0 4, .new 0, .signal 0, .outer 0, .resume 0 .nil,
        .library, .library]).map fun s => (s.userRuns, currentRun 0 s.frames)) =
      some (true, some (3, ⟨0, 4, 2, 2⟩, [⟨0, 4, 2, 2⟩])) ∧
    ((start.steps twoKinds ([.onDo 1 0 2, .onDo 3 0 4, .new 0, .signal 0, .outer 0, .resume 0 .nil,
        .library, .library, .returnWith 0 (.object 5)] ++ List.replicate 8 .library)).map
          fun s => (s.mode, s.frames)) =
      some (.run (some (.object 5)), [.method 0]) := by
  decide

end State

end WinArmVm.Exceptions
