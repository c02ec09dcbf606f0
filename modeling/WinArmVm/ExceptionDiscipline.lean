import WinArmVm.ExceptionStack
import Mathlib.Data.List.TakeWhile

namespace WinArmVm.Exceptions

open List Option

/-- The entries before the first of an activation in `cs`. -/
def cut (cs : List Nat) (l : List Entry) : List Entry := l.takeWhile fun e => e.returnBlock ∉ cs

variable {cs ds : List Nat} {l : List Entry} {e : Entry}

theorem cut_nil (l : List Entry) : cut [] l = l := by
  unfold cut
  rw [takeWhile_eq_self_iff]
  intro e _
  simp

theorem cut_cut (cs ds : List Nat) (l : List Entry) : cut cs (cut ds l) = cut (ds ++ cs) l := by
  unfold cut
  rw [takeWhile_takeWhile]
  congr 1
  funext e
  simp [not_or, and_comm]

theorem cut_eq_self (h : ∀ c ∈ cs, c ∉ l.map Entry.returnBlock) : cut cs l = l := by
  unfold cut
  rw [takeWhile_eq_self_iff]
  intro e he
  simp only [decide_eq_true_eq]
  exact fun hc => h _ hc (mem_map_of_mem he)

theorem take_cut (cs : List Nat) (l : List Entry) (e : Entry) : (cut cs (l ++ [e])).take l.length = cut cs l := by
  induction l with
  | nil => rfl
  | cons a l ih =>
    unfold cut at ih ⊢
    rw [cons_append, takeWhile_cons, takeWhile_cons, length_cons]
    split
    next => rw [take_succ_cons, ih]
    next => rfl

theorem take_eq_cut {i : Nat} (hn : (l.map Entry.returnBlock).Nodup) (h : l[i]? = some e) :
    l.take i = cut [e.returnBlock] l := by
  induction l generalizing i with
  | nil => cases h
  | cons a l ih =>
    rw [map_cons, nodup_cons] at hn
    unfold cut
    rw [takeWhile_cons]
    cases i with
    | zero =>
      cases h
      simp
    | succ i =>
      rw [List.getElem?_cons_succ] at h
      have hne : a.returnBlock ≠ e.returnBlock := by
        intro he
        rw [he] at hn
        exact hn.1 (mem_map_of_mem (mem_of_getElem? h))
      rw [take_succ_cons, ih hn.2 h]
      simp [hne, cut]

theorem findHandlerFor_spec {w : Hierarchy} {handlers : List Entry} {cls i index : Nat}
    (h : findHandlerFor w handlers cls i = some (index, e)) :
    1 ≤ index ∧ index ≤ i ∧ handlers[index - 1]? = some e ∧ w.isKindOf cls e.exceptionClass = true := by
  induction i with
  | zero => cases h
  | succ i ih =>
    unfold findHandlerFor at h
    split at h
    next => cases h
    next entry hentry =>
      split at h
      next hkind =>
        cases h
        exact ⟨by omega, by omega, hentry, hkind⟩
      next =>
        obtain ⟨h₁, h₂, h₃⟩ := ih h
        exact ⟨h₁, by omega, h₃⟩

def Frame.left : Frame → List Nat
  | signal _ _ entry _ => [entry.returnBlock]
  | block _ (.token _ _ abandoned) _ => abandoned
  | curtailment _ abandoned => abandoned
  | _ => []

def Frame.entries : Frame → List Entry
  | protect id _ cls h _ => [⟨cls, h, id, id⟩]
  | _ => []

/-- The enclosing `on:do:` activations whose protected block runs, the innermost last, without
those from an activation on whose handler is running, or being left. -/
def armed : List Frame → List Entry
  | [] => []
  | f :: below => cut f.left (armed below) ++ f.entries

/-- A return to `home` leaves no handler behind whose activation it returns into; `cs` are the
activations whose handlers it has left so far. -/
def Lands (home : Home) : List Nat → List Frame → Prop
  | _, [] => True
  | cs, f :: below =>
    if f.isHome home then ∀ c ∈ cs, c ∉ (armed below).map Entry.returnBlock
    else if f.isCurtailment then True
    else Lands home (f.left ++ cs) below

/-- The signal `id` is live, and from it to the top there is no protected block, no armed
cleanup block and no other handler run. -/
def Resumes (id : Nat) : List Frame → Prop
  | .signal id' .. :: _ => id' = id
  | .method _ :: below => Resumes id below
  | .block _ .nil _ :: below => Resumes id below
  | .block _ (.token _ _ []) _ :: below => Resumes id below
  | .pass _ :: below => Resumes id below
  | _ => False

namespace State

def Disciplined (w : Hierarchy) (s : State) : Action → Prop
  | .nonLocalReturn id _ => Lands (.method id) [] s.frames
  | .returnWith e _ =>
    ∀ x home, s.exceptions[e]? = some x → x.handlerReturn = some home → Lands (.protect home) [] s.frames
  | .retry e =>
    ∀ x home, s.exceptions[e]? = some x → x.handlerRetry = some home → Lands (.protect home) [] s.frames
  | .resume e _ =>
    ∀ x id popped, s.exceptions[e]? = some x → w.isResumable x.cls = true →
      x.handlerResume = some (id, popped) → Resumes id s.frames
  | .library =>
    match s.mode, s.frames with
    | .run _, .signal _ e _ _ :: _ =>
      ∀ x home, s.exceptions[e]? = some x → x.handlerReturn = some home → Lands (.protect home) [] s.frames
    | .run _, .pass mine :: _ => Lands (.protect mine) [] s.frames
    | _, _ => True
  | _ => True

end State

/-- A protected block's depth and a signal's popped slice are what they were when they were taken, and a
suspended return can still be finished. -/
def Frame.Sound (n : Nat) (below : List Frame) : Frame → Prop
  | protect id _ _ _ depth =>
    depth = (armed below).length ∧ id ∉ (armed below).map Entry.returnBlock ∧ id < n
  | signal id _ entry popped => armed below = cut [entry.returnBlock] (armed below) ++ popped ∧ id < n
  | block _ (.token home _ abandoned) _ =>
    (∀ id, home ≠ .signal id) ∧ Lands home abandoned below ∧ below.any (Frame.holds home) = true
  | _ => True

def Shape (n : Nat) : List Frame → Prop
  | [] => True
  | f :: below => f.Sound n below ∧ Shape n below

def Captured (xs : List ExceptionObject) (n : Nat) (frames : List Frame) : Prop :=
  ∀ x ∈ xs, ∀ id popped, x.handlerResume = some (id, popped) →
    id < n ∧ ∀ e entry popped', Frame.signal id e entry popped' ∈ frames → popped' = popped

def belowHome (home : Home) : List Frame → List Frame
  | [] => []
  | f :: below => if f.isHome home then below else belowHome home below

/-- In every mode: the handlers are the armed ones, less those that the return on its way, or
the cleanup, has left. A resume goes to a signal whose handlers are back already. -/
def State.Follows (s : State) : Prop :=
  match s.mode with
  | .run _ => s.handlers = armed s.frames
  | .returning _ => s.handlers = armed s.frames
  | .unwinding home _ cs =>
    ((∀ id, home ≠ .signal id) ∧ s.handlers = cut cs (armed s.frames) ∧ Lands home cs s.frames ∧
        s.frames.any (Frame.holds home) = true) ∨
      ∃ id, home = .signal id ∧ cs = [] ∧ Resumes id s.frames ∧ s.handlers = armed (belowHome (.signal id) s.frames)
  | .curtailing _ cs => s.handlers = cut cs (armed s.frames)
  | .stopped => True

structure State.Inv (s : State) : Prop where
  shape : Shape s.next s.frames
  captured : Captured s.exceptions s.next s.frames
  follows : s.Follows

variable {n m : Nat} {f : Frame} {below frames : List Frame} {xs : List ExceptionObject}

theorem armed_plain (hl : f.left = []) (he : f.entries = []) : armed (f :: below) = armed below := by
  rw [armed, hl, he, cut_nil, append_nil]

theorem armed_cut (he : f.entries = []) : armed (f :: below) = cut f.left (armed below) := by
  rw [armed, he, append_nil]

theorem armed_protect {id r c b d : Nat} : armed (.protect id r c b d :: below) = armed below ++ [⟨c, b, id, id⟩] := by
  show cut [] (armed below) ++ [⟨c, b, id, id⟩] = _
  rw [cut_nil]

theorem Shape.mono (hle : n ≤ m) (h : Shape n frames) : Shape m frames := by
  induction frames with
  | nil => trivial
  | cons f below ih =>
    refine ⟨?_, ih h.2⟩
    have hf := h.1
    unfold Frame.Sound at hf ⊢
    split
    next => exact ⟨hf.1, hf.2.1, Nat.lt_of_lt_of_le hf.2.2 hle⟩
    next => exact ⟨hf.1, Nat.lt_of_lt_of_le hf.2 hle⟩
    next => exact hf
    next => trivial

theorem Captured.tail (h : Captured xs n (f :: below)) : Captured xs n below := by
  intro x hx id popped hr
  obtain ⟨hid, hall⟩ := h x hx id popped hr
  exact ⟨hid, fun e entry popped' hmem => hall e entry popped' (mem_cons_of_mem f hmem)⟩

def Frame.isSignal : Frame → Bool
  | signal .. => true
  | _ => false

theorem Captured.cons (hf : f.isSignal = false) (h : Captured xs n below) : Captured xs n (f :: below) := by
  intro x hx id popped hr
  obtain ⟨hid, hall⟩ := h x hx id popped hr
  refine ⟨hid, fun e entry popped' hmem => ?_⟩
  rcases mem_cons.mp hmem with he | hmem
  · rw [← he] at hf
    cases hf
  · exact hall e entry popped' hmem

theorem Captured.mono (hle : n ≤ m) (h : Captured xs n frames) : Captured xs m frames := by
  intro x hx id popped hr
  obtain ⟨hid, hall⟩ := h x hx id popped hr
  exact ⟨Nat.lt_of_lt_of_le hid hle, hall⟩

theorem cut_sublist (cs : List Nat) (l : List Entry) : (cut cs l).Sublist l := takeWhile_sublist _

theorem Frame.Sound.entries (h : f.Sound n below) (he : e ∈ f.entries) :
    f.entries = [e] ∧ e.returnBlock < n ∧ e.returnBlock ∉ (armed below).map Entry.returnBlock := by
  cases f with
  | protect id r c b d =>
    cases mem_singleton.mp he
    exact ⟨rfl, h.2.2, h.2.1⟩
  | _ => cases he

theorem armed_lt (h : Shape n frames) : ∀ e ∈ armed frames, e.returnBlock < n := by
  induction frames with
  | nil =>
    intro e he
    cases he
  | cons f below ih =>
    intro e he
    rcases mem_append.mp he with he | he
    · exact ih h.2 e ((cut_sublist _ _).subset he)
    · exact (h.1.entries he).2.1

theorem armed_nodup (h : Shape n frames) : ((armed frames).map Entry.returnBlock).Nodup := by
  induction frames with
  | nil => exact nodup_nil
  | cons f below ih =>
    have hb := (ih h.2).sublist ((cut_sublist f.left _).map _)
    unfold armed
    cases hf : f.entries with
    | nil =>
      rw [append_nil]
      exact hb
    | cons e rest =>
      obtain ⟨hone, _, hnew⟩ := h.1.entries (e := e) (by rw [hf]; exact mem_cons_self)
      rw [hf] at hone
      cases hone
      rw [map_append, map_singleton, nodup_append]
      refine ⟨hb, nodup_singleton _, fun x hx y hy he => ?_⟩
      rw [mem_singleton] at hy
      rw [he, hy] at hx
      exact hnew (((cut_sublist f.left _).map _).subset hx)

theorem signal_lt {id e : Nat} {entry : Entry} {popped : List Entry} (h : Shape n frames)
    (hmem : Frame.signal id e entry popped ∈ frames) : id < n := by
  induction frames with
  | nil => cases hmem
  | cons f below ih =>
    rcases mem_cons.mp hmem with rfl | hmem
    · exact h.1.2
    · exact ih h.2 hmem

namespace State

variable {w : Hierarchy} {s t : State} {home : Home} {v : Value} {answer : Option Value}

section Armed

variable (hs : Shape s.next s.frames) (hc : Captured s.exceptions s.next s.frames) (h : s.handlers = armed s.frames)

include hs hc h

theorem primError_inv : s.primError.Inv := by
  unfold primError
  split
  next =>
    refine ⟨trivial, fun x hx id popped hr => ?_, trivial⟩
    exact ⟨(hc x hx id popped hr).1, fun e entry popped' hmem => by cases hmem⟩
  next => exact ⟨hs, hc, h.trans (cut_nil _).symm⟩

theorem continueUnwind_inv (hhome : ∀ id, home ≠ .signal id) (hlands : Lands home [] s.frames) :
    (s.continueUnwind home v []).Inv := by
  unfold continueUnwind
  split
  next hlive => exact ⟨hs, hc, .inl ⟨hhome, h.trans (cut_nil _).symm, hlands, hlive⟩⟩
  next => exact primError_inv hs hc h

theorem protect_inv {receiver cls handler : Nat} : (s.protect receiver cls handler).Inv := by
  have hfresh : s.next ∉ (armed s.frames).map Entry.returnBlock := by
    intro hmem
    obtain ⟨e, he, hid⟩ := mem_map.mp hmem
    have := armed_lt hs e he
    omega
  refine ⟨⟨trivial, ⟨?_, hfresh, Nat.lt_succ_self _⟩, hs.mono (Nat.le_succ _)⟩, ?_, ?_⟩
  · rw [h]
  · apply Captured.cons rfl
    apply Captured.cons rfl
    exact hc.mono (Nat.le_succ _)
  · show s.handlers ++ _ = armed (.block receiver .nil .bytecode :: .protect s.next receiver cls handler _ :: s.frames)
    rw [armed_plain rfl rfl, armed_protect, h]

theorem signal_inv {e : Nat} (hrun : s.signal w e = some t) : t.Inv := by
  unfold signal at hrun
  split at hrun
  next => cases hrun
  next x hx =>
    split at hrun
    next =>
      split at hrun
      next =>
        cases hrun
        exact ⟨hs, hc, h⟩
      next =>
        cases hrun
        exact primError_inv hs hc h
    next index entry hfind =>
      cases hrun
      obtain ⟨hpos, _, hentry, _⟩ := findHandlerFor_spec hfind
      have hcut : s.handlers.take (index - 1) = cut [entry.returnBlock] (armed s.frames) := by
        rw [h] at hentry ⊢
        exact take_eq_cut (armed_nodup hs) hentry
      have hpopped : handlersFrom s.handlers (index - 1 + 1) = s.handlers.drop (index - 1) := rfl
      refine ⟨⟨trivial, ⟨?_, Nat.lt_succ_self _⟩, hs.mono (Nat.le_succ _)⟩, ?_, ?_⟩
      · rw [← hcut, hpopped, take_append_drop, h]
      · apply Captured.cons rfl
        intro y hy id popped hr
        rcases mem_or_eq_of_mem_set hy with hy | hy
        · obtain ⟨hid, hall⟩ := hc y hy id popped hr
          refine ⟨Nat.lt_succ_of_lt hid, fun e' entry' popped' hmem => ?_⟩
          rcases mem_cons.mp hmem with hf | hmem
          · cases hf
            exact absurd hid (Nat.lt_irrefl _)
          · exact hall e' entry' popped' hmem
        · rw [hy] at hr
          cases hr
          refine ⟨Nat.lt_succ_self _, fun e' entry' popped' hmem => ?_⟩
          rcases mem_cons.mp hmem with hf | hmem
          · cases hf
            rfl
          · exact absurd (signal_lt hs hmem) (Nat.lt_irrefl _)
      · show s.handlers.take (index - 1) =
          armed (.block entry.handlerBlock .nil .bytecode :: .signal s.next e entry _ :: s.frames)
        rw [armed_plain rfl rfl, armed_cut rfl, hcut]
        rfl

end Armed

variable {cs : List Nat}

theorem lands_pop (hhome : f.isHome home = false) (hf : f.isCurtailment = false)
    (h : Lands home cs (f :: below)) : Lands home (f.left ++ cs) below := by
  unfold Lands at h
  rw [hhome, hf, if_neg Bool.false_ne_true, if_neg Bool.false_ne_true] at h
  exact h

theorem live_pop (hhome : f.isHome home = false) (hf : f.isCurtailment = false)
    (h : (f :: below).any (Frame.holds home) = true) : below.any (Frame.holds home) = true := by
  have hholds : f.holds home = f.isHome home := by
    cases f with
    | curtailment gone left => cases hf
    | _ => rfl
  rw [any_cons, hholds, hhome, Bool.false_or] at h
  exact h

theorem lands_home (hhome : f.isHome home = true) (h : Lands home cs (f :: below)) :
    cut cs (armed below) = armed below := by
  unfold Lands at h
  rw [if_pos hhome] at h
  exact cut_eq_self h

def kept (handlers : List Entry) : Frame → List Entry
  | .protect _ _ _ _ depth => popHandlerTo handlers depth
  | _ => handlers

theorem kept_cut {handlers : List Entry} (hf : f.Sound n below)
    (h : handlers = cut cs (armed (f :: below))) : kept handlers f = cut (f.left ++ cs) (armed below) := by
  cases f with
  | protect id r c b depth =>
    show popHandlerTo handlers depth = cut cs (armed below)
    unfold popHandlerTo
    rw [h, hf.1, armed_protect, take_cut]
  | _ =>
    rw [armed_cut rfl, cut_cut] at h
    exact h

theorem unwind_cases (hmode : s.mode = .unwinding home v cs) (hrun : s.unwind home v cs = some t) :
    ∃ f below, s.frames = f :: below ∧
      ((∃ id, f = .method id ∧ f.isHome home = true ∧ t = { s with mode := .returning v }) ∨
        (f.isHome home = true ∧ ((∃ id r c b depth, f = .protect id r c b depth ∧ home = .protect id) ∨
            ∃ id e entry popped, f = .signal id e entry popped ∧ home = .signal id) ∧
          t = { s with frames := below, mode := .run (some v), handlers := kept s.handlers f }) ∨
        (∃ body b k saved, f = .block body (.handler b k) saved ∧ t = { s with
          frames := .block b .nil .resumeUnwind :: .block body (.token home v cs) saved :: below
          mode := .run none }) ∨
        (∃ gone left, f = .curtailment gone left ∧
          t = { s with frames := below, mode := .curtailing gone (left ++ cs) }) ∨
        (f.isHome home = false ∧ f.isCurtailment = false ∧ (∀ body b k saved, f ≠ .block body (.handler b k) saved) ∧
          t = { s with frames := below, mode := .unwinding home v (f.left ++ cs), handlers := kept s.handlers f })) := by
  obtain ⟨frames, mode, handlers, exceptions, next⟩ := s
  subst hmode
  cases frames with
  | nil => cases hrun
  | cons f below =>
    refine ⟨f, below, rfl, ?_⟩
    unfold unwind at hrun
    cases f with
    | method id =>
      dsimp only at hrun
      split at hrun
      next hid =>
        cases some.inj hrun
        exact .inl ⟨id, rfl, decide_eq_true hid, rfl⟩
      next hid =>
        cases some.inj hrun
        exact .inr (.inr (.inr (.inr ⟨decide_eq_false hid, rfl, nofun, rfl⟩)))
    | protect id r c b depth =>
      dsimp only at hrun
      split at hrun
      next hid =>
        cases some.inj hrun
        exact .inr (.inl ⟨decide_eq_true hid, .inl ⟨_, _, _, _, _, rfl, hid⟩, rfl⟩)
      next hid =>
        cases some.inj hrun
        exact .inr (.inr (.inr (.inr ⟨decide_eq_false hid, rfl, nofun, rfl⟩)))
    | signal id e entry popped =>
      dsimp only at hrun
      split at hrun
      next hid =>
        cases some.inj hrun
        exact .inr (.inl ⟨decide_eq_true hid, .inr ⟨_, _, _, _, rfl, hid⟩, rfl⟩)
      next hid =>
        cases some.inj hrun
        exact .inr (.inr (.inr (.inr ⟨decide_eq_false hid, rfl, nofun, rfl⟩)))
    | curtailment gone left =>
      cases some.inj hrun
      exact .inr (.inr (.inr (.inl ⟨gone, left, rfl, rfl⟩)))
    | block body marker saved =>
      cases marker with
      | handler b k =>
        cases some.inj hrun
        exact .inr (.inr (.inl ⟨body, b, k, saved, rfl, rfl⟩))
      | _ =>
        cases some.inj hrun
        exact .inr (.inr (.inr (.inr ⟨rfl, rfl, nofun, rfl⟩)))
    | _ =>
      cases some.inj hrun
      exact .inr (.inr (.inr (.inr ⟨rfl, rfl, nofun, rfl⟩)))

theorem curtail_cases {gone : List Home} (hmode : s.mode = .curtailing gone cs) (hrun : s.curtail gone cs = some t) :
    (s.frames = [] ∧ t = { s with mode := .stopped }) ∨
      ∃ f below, s.frames = f :: below ∧
        ((∃ body b k saved, f = .block body (.handler b k) saved ∧ t = { s with
            frames := .block b .nil .bytecode :: .curtailment gone cs :: below
            mode := .run none }) ∨
          ∃ gone', t = { s with frames := below, mode := .curtailing gone' (f.left ++ cs), handlers := kept s.handlers f }) := by
  obtain ⟨frames, mode, handlers, exceptions, next⟩ := s
  subst hmode
  cases frames with
  | nil =>
    cases hrun
    exact .inl ⟨rfl, rfl⟩
  | cons f below =>
    refine .inr ⟨f, below, rfl, ?_⟩
    cases f with
    | curtailment gone' left => cases hrun
    | block body marker saved =>
      cases marker with
      | handler b k =>
        cases hrun
        exact .inl ⟨body, b, k, saved, rfl, rfl⟩
      | _ =>
        cases hrun
        exact .inr ⟨_, rfl⟩
    | _ =>
      cases hrun
      exact .inr ⟨_, rfl⟩

section

variable (hs : Shape s.next s.frames) (hc : Captured s.exceptions s.next s.frames)

include hs hc

theorem unwind_inv (hmode : s.mode = .unwinding home v cs)
    (hhome : ∀ id, home ≠ .signal id) (h : s.handlers = cut cs (armed s.frames))
    (hlands : Lands home cs s.frames) (hlive : s.frames.any (Frame.holds home) = true)
    (hrun : s.unwind home v cs = some t) : t.Inv := by
  obtain ⟨f, below, hframes, hcase⟩ := unwind_cases hmode hrun
  rw [hframes] at hs hc h hlands hlive
  have hkept := kept_cut hs.1 h
  rcases hcase with ⟨id, rfl, hin, rfl⟩ | ⟨hin, hat, rfl⟩ | ⟨body, b, k, saved, rfl, rfl⟩ | ⟨gone, left, rfl, rfl⟩ |
    ⟨hnot, hcurt, -, rfl⟩
  · rw [← hframes] at hs hc
    refine ⟨hs, hc, ?_⟩
    rw [armed_plain rfl rfl, lands_home hin hlands] at h
    show s.handlers = armed s.frames
    rw [hframes, h, armed_plain rfl rfl]
  · refine ⟨hs.2, hc.tail, ?_⟩
    obtain ⟨id, r, c, b, depth, rfl, -⟩ | ⟨id, e, entry, popped, rfl, hid⟩ := hat
    · exact hkept.trans (lands_home hin hlands)
    · exact absurd hid (hhome id)
  · have hnot : (Frame.block body (.handler b k) saved).isHome home = false := rfl
    refine ⟨⟨trivial, ⟨hhome, lands_pop hnot rfl hlands, live_pop hnot rfl hlive⟩, hs.2⟩, ?_, ?_⟩
    · exact (hc.tail.cons rfl).cons rfl
    · show s.handlers = armed (.block b .nil .resumeUnwind :: .block body (.token home v cs) saved :: below)
      rw [armed_plain rfl rfl, armed_cut rfl]
      exact hkept
  · exact ⟨hs.2, hc.tail, hkept⟩
  · exact ⟨hs.2, hc.tail, .inl ⟨hhome, hkept, lands_pop hnot hcurt hlands, live_pop hnot hcurt hlive⟩⟩

omit hs hc in
theorem resumes_pop {id : Nat} (h : Resumes id (f :: below)) (hnot : f.isHome (.signal id) = false)
    (handlers : List Entry) : f.left = [] ∧ f.entries = [] ∧ kept handlers f = handlers ∧ Resumes id below := by
  cases f with
  | signal id' e entry popped =>
    have hid : id' = id := h
    exact absurd (congrArg Home.signal hid.symm) (of_decide_eq_false hnot)
  | block body marker saved =>
    cases marker with
    | nil => exact ⟨rfl, rfl, rfl, h⟩
    | handler b k => exact absurd h (fun hf => hf)
    | token home' v' left =>
      cases left with
      | nil => exact ⟨rfl, rfl, rfl, h⟩
      | cons a left => exact absurd h (fun hf => hf)
  | method id' => exact ⟨rfl, rfl, rfl, h⟩
  | pass mine => exact ⟨rfl, rfl, rfl, h⟩
  | _ => exact absurd h (fun hf => hf)

theorem unwind_resume_inv {id : Nat} (hresumes : Resumes id s.frames)
    (h : s.handlers = armed (belowHome (.signal id) s.frames))
    (hmode : s.mode = .unwinding (.signal id) v []) (hrun : s.unwind (.signal id) v [] = some t) :
    t.Inv := by
  obtain ⟨f, below, hframes, hcase⟩ := unwind_cases hmode hrun
  rw [hframes] at hs hc h hresumes
  unfold belowHome at h
  rcases hcase with ⟨id', rfl, hin, rfl⟩ | ⟨hin, hat, rfl⟩ | ⟨body, b, k, saved, rfl, rfl⟩ | ⟨gone, left, rfl, rfl⟩ |
    ⟨hnot, -, -, rfl⟩
  · have hid : Home.signal id = .method id' := of_decide_eq_true hin
    cases hid
  · rw [if_pos hin] at h
    obtain ⟨id', r, c, b, depth, -, hid⟩ | ⟨id', e, entry, popped, rfl, -⟩ := hat
    · cases hid
    · exact ⟨hs.2, hc.tail, h⟩
  · exact absurd hresumes (fun hf => hf)
  · exact absurd hresumes (fun hf => hf)
  · obtain ⟨hleft, -, hkept, hres⟩ := resumes_pop hresumes hnot s.handlers
    rw [hnot, if_neg Bool.false_ne_true] at h
    rw [hleft, hkept]
    exact ⟨hs.2, hc.tail, .inr ⟨id, rfl, rfl, hres, h⟩⟩

theorem curtail_inv {gone : List Home} (hmode : s.mode = .curtailing gone cs)
    (h : s.handlers = cut cs (armed s.frames)) (hrun : s.curtail gone cs = some t) : t.Inv := by
  rcases curtail_cases hmode hrun with ⟨-, rfl⟩ | ⟨f, below, hframes, hcase⟩
  · exact ⟨hs, hc, trivial⟩
  · rw [hframes] at hs hc h
    have hkept := kept_cut hs.1 h
    rcases hcase with ⟨body, b, k, saved, rfl, rfl⟩ | ⟨gone', rfl⟩
    · refine ⟨⟨trivial, trivial, hs.2⟩, (hc.tail.cons rfl).cons rfl, ?_⟩
      show s.handlers = armed (.block b .nil .bytecode :: .curtailment gone cs :: below)
      rw [armed_plain rfl rfl, armed_cut rfl]
      exact hkept
    · exact ⟨hs.2, hc.tail, hkept⟩

theorem doReturn_inv (hmode : s.mode = .returning v) (h : s.handlers = armed s.frames) (hrun : s.doReturn v = some t) :
    t.Inv := by
  obtain ⟨frames, mode, handlers, exceptions, next⟩ := s
  dsimp only at hs hc hmode h
  rw [hmode] at hrun
  unfold doReturn at hrun
  have hpop : ∀ {f : Frame} {below : List Frame}, frames = f :: below → f.left = [] → f.entries = [] →
      handlers = armed below := by
    intro f below hframes hleft hentries
    rw [hframes, armed_plain hleft hentries] at h
    exact h
  dsimp only at hrun
  split at hrun
  next id =>
    cases some.inj hrun
    exact ⟨hs.2, hc.tail, trivial⟩
  next id below _ =>
    cases some.inj hrun
    exact ⟨hs.2, hc.tail, hpop rfl rfl rfl⟩
  next body b saved below =>
    cases some.inj hrun
    refine ⟨⟨trivial, trivial, hs.2⟩, ?_, ?_⟩
    · apply Captured.cons rfl
      exact hc.tail.cons rfl
    · show handlers = armed (.block b .nil (.resumeEnsureRet v) :: .block body .nil saved :: below)
      rw [armed_plain rfl rfl, armed_plain rfl rfl]
      exact hpop rfl rfl rfl
  next body b saved below =>
    cases some.inj hrun
    refine ⟨⟨trivial, hs.2⟩, hc.tail.cons rfl, ?_⟩
    show handlers = armed (.block body .nil saved :: below)
    rw [armed_plain rfl rfl]
    exact hpop rfl rfl rfl
  next body below =>
    cases some.inj hrun
    exact ⟨hs.2, hc.tail, hpop rfl rfl rfl⟩
  next body result below =>
    cases some.inj hrun
    exact ⟨hs.2, hc.tail, hpop rfl rfl rfl⟩
  next body body' home value left saved below =>
    -- the suspended return goes on from the frame whose cleanup block has finished
    cases some.inj hrun
    obtain ⟨hhome, hlands, hlive⟩ := hs.2.1
    have hframes : Shape next (.block body' .nil saved :: below) := ⟨trivial, hs.2.2⟩
    have hcap : Captured exceptions next (.block body' .nil saved :: below) := hc.tail.tail.cons rfl
    unfold continueUnwind
    rw [if_pos (by show List.any (_ :: below) _ = true; rw [any_cons, hlive, Bool.or_true])]
    refine ⟨hframes, hcap, .inl ⟨hhome, ?_, hlands, ?_⟩⟩
    · rw [armed_plain rfl rfl, armed_cut rfl] at h
      rw [armed_plain rfl rfl]
      exact h
    · rw [any_cons, hlive, Bool.or_true]
  next => cases hrun

end

theorem armed_resumes {id : Nat} (hs : Shape n frames) (h : Resumes id frames) :
    ∃ e entry popped, Frame.signal id e entry popped ∈ frames ∧
      armed frames ++ popped = armed (belowHome (.signal id) frames) ∧
      frames.any (Frame.holds (.signal id)) = true := by
  induction frames with
  | nil => exact absurd h (fun hf => hf)
  | cons f below ih =>
    have hpop : f.isHome (.signal id) = false → f.left = [] → f.entries = [] → Resumes id below →
        ∃ e entry popped, Frame.signal id e entry popped ∈ f :: below ∧
          armed (f :: below) ++ popped = armed (belowHome (.signal id) (f :: below)) ∧
          (f :: below).any (Frame.holds (.signal id)) = true := by
      intro hnot hleft hentries hres
      obtain ⟨e, entry, popped, hmem, harmed, hlive⟩ := ih hs.2 hres
      refine ⟨e, entry, popped, mem_cons_of_mem f hmem, ?_, ?_⟩
      · rw [armed_plain hleft hentries, belowHome, hnot, if_neg Bool.false_ne_true]
        exact harmed
      · rw [any_cons, hlive, Bool.or_true]
    cases f with
    | method id' => exact hpop rfl rfl rfl h
    | onDo r c b => exact absurd h (fun hf => hf)
    | protect id' r c b d => exact absurd h (fun hf => hf)
    | signal id' e entry popped =>
      have hid : id' = id := h
      have hin : (Frame.signal id' e entry popped).isHome (.signal id) = true := by
        rw [hid]
        exact decide_eq_true rfl
      refine ⟨e, entry, popped, ?_, ?_, ?_⟩
      · rw [hid]
        exact mem_cons_self
      · rw [armed_cut rfl, belowHome, if_pos hin]
        exact hs.1.1.symm
      · rw [any_cons]
        exact Bool.or_eq_true_iff.mpr (.inl hin)
    | pass mine => exact hpop rfl rfl rfl h
    | curtailment gone left => exact absurd h (fun hf => hf)
    | block body marker saved =>
      cases marker with
      | nil => exact hpop rfl rfl rfl h
      | handler b k => exact absurd h (fun hf => hf)
      | token home v left =>
        cases left with
        | nil => exact hpop rfl rfl rfl h
        | cons a left => exact absurd h (fun hf => hf)

section Verbs

variable (hs : Shape s.next s.frames) (hc : Captured s.exceptions s.next s.frames) (h : s.handlers = armed s.frames)

include hs hc h

theorem signalError_inv (hrun : s.signalError w = some t) : t.Inv := by
  refine signal_inv (s := s.new w.error) hs (fun x hx id popped hr => ?_) h hrun
  rcases mem_append.mp hx with hx | hx
  · exact hc x hx id popped hr
  · rw [mem_singleton] at hx
    rw [hx] at hr
    cases hr

variable {e : Nat}

theorem returnWith_inv (hlands : ∀ x home, s.exceptions[e]? = some x → x.handlerReturn = some home →
      Lands (.protect home) [] s.frames)
    (hrun : s.returnWith w e v = some t) : t.Inv := by
  unfold returnWith at hrun
  split at hrun
  next => cases hrun
  next x hx =>
    split at hrun
    next => exact signalError_inv hs hc h hrun
    next home hreturn =>
      cases hrun
      exact continueUnwind_inv hs hc h nofun (hlands x home hx hreturn)

theorem retry_inv (hlands : ∀ x home, s.exceptions[e]? = some x → x.handlerRetry = some home →
      Lands (.protect home) [] s.frames)
    (hrun : s.retry w e = some t) : t.Inv := by
  unfold retry at hrun
  split at hrun
  next => cases hrun
  next x hx =>
    split at hrun
    next => exact signalError_inv hs hc h hrun
    next home hretry =>
      cases hrun
      exact continueUnwind_inv hs hc h nofun (hlands x home hx hretry)

theorem pass_inv (hrun : s.pass w e = some t) : t.Inv := by
  unfold pass at hrun
  split at hrun
  next => cases hrun
  next x hx =>
    split at hrun
    next => exact signalError_inv hs hc h hrun
    next mine hmine =>
      apply signal_inv (s := { s with frames := .pass mine :: s.frames }) ⟨trivial, hs⟩
        (hc.cons rfl) _ hrun
      exact h.trans (armed_plain rfl rfl).symm

theorem resume_inv (hok : ∀ x id popped, s.exceptions[e]? = some x → w.isResumable x.cls = true →
      x.handlerResume = some (id, popped) → Resumes id s.frames)
    (hrun : s.resume w e v = some t) : t.Inv := by
  unfold resume at hrun
  split at hrun
  next => cases hrun
  next x hx =>
    split at hrun
    next => exact signalError_inv hs hc h hrun
    next hresumable =>
      split at hrun
      next => exact signalError_inv hs hc h hrun
      next id popped hresume =>
        cases hrun
        have hres := hok x id popped hx (by simpa using hresumable) hresume
        obtain ⟨e', entry, popped', hmem, harmed, hlive⟩ := armed_resumes hs hres
        have hslice : popped' = popped := (hc x (mem_of_getElem? hx) id popped hresume).2 e' entry popped' hmem
        unfold continueUnwind homeIsLive
        rw [if_pos hlive]
        refine ⟨hs, hc, .inr ⟨id, rfl, rfl, hres, ?_⟩⟩
        rw [← harmed, hslice, ← h]
        rfl

theorem deliver_inv (hmode : s.mode = .run answer) (hok : s.Disciplined w .library)
    (hrun : s.deliver w v = some t) : t.Inv := by
  obtain ⟨frames, mode, handlers, exceptions, next⟩ := s
  dsimp only at hs hc hmode h
  rw [hmode] at hrun hok
  unfold deliver at hrun
  dsimp only at hrun hok
  split at hrun
  next r c b below =>
    split at hrun
    next =>
      cases some.inj hrun
      exact protect_inv hs hc h
    next =>
      cases some.inj hrun
      rw [armed_plain rfl rfl] at h
      exact ⟨hs.2, hc.tail, h⟩
  next id r c b depth below =>
    cases some.inj hrun
    refine ⟨hs.2, hc.tail, ?_⟩
    show handlers.take depth = _
    rw [h, hs.1.1, armed_protect, take_left]
  next id e entry popped below => exact returnWith_inv hs hc h hok hrun
  next mine below =>
    cases some.inj hrun
    exact continueUnwind_inv hs hc h nofun hok
  next gone left below =>
    cases some.inj hrun
    rw [armed_cut rfl] at h
    exact ⟨hs.2, hc.tail, h⟩
  next => cases hrun

theorem activate_inv (hf : f.Sound s.next s.frames) (hleft : f.left = []) (hentries : f.entries = [])
    (hsignal : f.isSignal = false) : (s.activate f).Inv :=
  ⟨⟨hf, hs⟩, hc.cons hsignal, h.trans (armed_plain hleft hentries).symm⟩

theorem userStep_inv {a : Action} (hmode : s.mode = .run answer) (hok : s.Disciplined w a) (hrun : s.userStep w a = some t) :
    t.Inv := by
  cases a with
  | library => cases hrun
  | send =>
    cases hrun
    have hinv := activate_inv hs hc h (f := .method s.next) trivial rfl rfl rfl
    exact ⟨hinv.shape.mono (Nat.le_succ _), hinv.captured.mono (Nat.le_succ _), hinv.follows⟩
  | value body =>
    cases hrun
    exact activate_inv hs hc h trivial rfl rfl rfl
  | ensure body b =>
    cases hrun
    exact activate_inv hs hc h trivial rfl rfl rfl
  | ifCurtailed body b =>
    cases hrun
    exact activate_inv hs hc h trivial rfl rfl rfl
  | answer v =>
    obtain ⟨-, hrun⟩ := ite_none_left_eq_some.mp hrun
    cases hrun
    exact ⟨hs, hc, h⟩
  | nonLocalReturn id v =>
    obtain ⟨-, hrun⟩ := ite_none_left_eq_some.mp hrun
    cases hrun
    exact continueUnwind_inv hs hc h nofun hok
  | onDo r c b =>
    cases hrun
    exact protect_inv (s := { s with frames := .onDo r c b :: s.frames }) ⟨trivial, hs⟩
      (hc.cons rfl) (h.trans (armed_plain rfl rfl).symm)
  | new cls =>
    cases hrun
    refine ⟨hs, fun x hx id popped hr => ?_, ?_⟩
    · rcases mem_append.mp hx with hx | hx
      · exact hc x hx id popped hr
      · rw [mem_singleton] at hx
        rw [hx] at hr
        cases hr
    · unfold Follows new
      rw [hmode]
      exact h
  | signal e => exact signal_inv hs hc h hrun
  | returnWith e v =>
    obtain ⟨-, hrun⟩ := ite_none_left_eq_some.mp hrun
    exact returnWith_inv hs hc h hok hrun
  | retry e => exact retry_inv hs hc h hok hrun
  | pass e => exact pass_inv hs hc h hrun
  | outer e => exact signal_inv hs hc h hrun
  | resume e v =>
    obtain ⟨-, hrun⟩ := ite_none_left_eq_some.mp hrun
    exact resume_inv hs hc h hok hrun

end Verbs

theorem step_cases {a : Action} (hstep : s.step w a = some t) :
    (s.userRuns = true ∧ ∃ answer, s.mode = .run answer ∧ s.userStep w a = some t) ∨
      s.userRuns = false ∧ a = .library ∧ s.libraryStep w = some t := by
  by_cases huser : s.userRuns = true
  · have hrun : s.userStep w a = some t := by
      cases a with
      | library =>
        unfold step at hstep
        rw [if_pos huser] at hstep
        cases hstep
      | _ => exact (if_pos huser).symm.trans hstep
    left
    refine ⟨huser, ?_⟩
    unfold userRuns at huser
    split at huser
    next answer _ _ hmode _ => exact ⟨answer, hmode, hrun⟩
    next => cases huser
  · have hnot : s.userRuns = false := Bool.eq_false_iff.mpr huser
    cases a with
    | library => exact .inr ⟨hnot, rfl, (if_neg huser).symm.trans hstep⟩
    | _ => cases (if_neg huser).symm.trans hstep

theorem step_inv {a : Action} (hinv : s.Inv) (hok : s.Disciplined w a) (hstep : s.step w a = some t) : t.Inv := by
  obtain ⟨hs, hc, hf⟩ := hinv
  unfold Follows at hf
  rcases step_cases hstep with ⟨_, answer, hmode, hrun⟩ | ⟨_, rfl, hrun⟩
  · rw [hmode] at hf
    exact userStep_inv hs hc hf hmode hok hrun
  · unfold libraryStep at hrun
    cases hmode : s.mode with
    | run answer =>
      rw [hmode] at hf hrun
      exact deliver_inv hs hc hf hmode hok hrun
    | returning v =>
      rw [hmode] at hf hrun
      exact doReturn_inv hs hc hmode hf hrun
    | unwinding home v cs =>
      rw [hmode] at hf hrun
      rcases hf with ⟨hhome, h, hlands, hlive⟩ | ⟨id, rfl, rfl, hres, h⟩
      · exact unwind_inv hs hc hmode hhome h hlands hlive hrun
      · exact unwind_resume_inv hs hc hres h hmode hrun
    | curtailing gone cs =>
      rw [hmode] at hf hrun
      exact curtail_inv hs hc hmode hf hrun
    | stopped =>
      rw [hmode] at hrun
      cases hrun

theorem run_inv (h : Run w (Disciplined w) s) : s.Inv := by
  induction h with
  | start =>
    refine ⟨⟨trivial, trivial⟩, fun x hx => ?_, rfl⟩
    cases hx
  | step a _ hok hstep ih => exact step_inv ih hok hstep

/-- Wherever user code runs the handler stack is the list of armed activations, and so it is
the same again whenever the frames are. -/
theorem handlers_armed (h : Run w (Disciplined w) s) (hruns : s.userRuns = true) : s.handlers = armed s.frames ∧
      ∀ t, Run w (Disciplined w) t → t.userRuns = true → t.frames = s.frames → t.handlers = s.handlers := by
  have harmed : ∀ u, Run w (Disciplined w) u → u.userRuns = true → u.handlers = armed u.frames := by
    intro u hu hur
    have hf := (run_inv hu).follows
    unfold Follows at hf
    unfold userRuns at hur
    split at hf
    next => exact hf
    all_goals
      rename_i hmode
      rw [hmode] at hur
      cases hur
  refine ⟨harmed s h hruns, fun t ht htr hframes => ?_⟩
  rw [harmed t ht htr, harmed s h hruns, hframes]

/-- Two classes: 0 is a resumable warning, 1 an error. -/
def twoKinds : Hierarchy := ⟨fun a b => a = b, fun c => c = 0, fun c => c = 0, 1⟩

/-- `[Warning signal. ...] on: Warning do: [:w | w resume: nil]`, after the resume. -/
theorem handlers_armed_after_resume :
    ∃ s, Run twoKinds (Disciplined twoKinds) s ∧ s.userRuns = true ∧ s.handlers = armed s.frames ∧
      s.handlers = [⟨0, 2, 1, 1⟩] := by
  have h₁ := Run.step (.onDo 1 0 2) (Run.start : Run twoKinds (Disciplined twoKinds) start) trivial rfl
  have h₂ := Run.step (.new 0) h₁ trivial rfl
  have h₃ := Run.step (.signal 0) h₂ trivial rfl
  have h₄ := Run.step (.resume 0 .nil) h₃
    (by
      intro x id popped hx _ hresume
      cases hx
      cases hresume
      exact rfl) rfl
  have h₅ := Run.step .library h₄ trivial rfl
  have h₆ := Run.step .library h₅ trivial rfl
  exact ⟨_, h₆, rfl, (handlers_armed h₆ rfl).1, rfl⟩

/-- `[Warning signal. ...] on: Warning do: [:w | [w resume: nil] on: Error do: [...]]`: the inner
protected block, left by the resume, takes the handlers away that the resume has put back. -/
theorem resume_from_protected_block_disarms :
    ((start.steps twoKinds [.onDo 1 0 2, .new 0, .signal 0, .onDo 3 1 4, .resume 0 .nil, .library,
      .library, .library, .library, .library]).map
        fun s => (s.userRuns, s.handlers, armed s.frames)) =
      some (true, [], [⟨0, 2, 1, 1⟩]) := by
  decide

end State

end WinArmVm.Exceptions
