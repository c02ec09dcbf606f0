import Mathlib.Data.List.Basic

namespace DepthFirst

open List

variable {α β : Type}

section Folds

theorem foldlM_flatMap {σ : Type} {f : σ → β → Option σ} (g : α → List β) (l : List α) :
    ∀ s, (l.flatMap g).foldlM f s = l.foldlM (fun s a => (g a).foldlM f s) s := by
  induction l with
  | nil => exact fun _ => rfl
  | cons a rest ih =>
    intro s
    rw [flatMap_cons, foldlM_append, foldlM_cons]
    exact congrArg _ (funext ih)

theorem foldlM_map {σ τ : Type} {f : σ → α → Option σ} {f' : τ → α → Option τ} {p : σ → β} {q : τ → β} :
    ∀ (l : List α), (∀ s t, ∀ a ∈ l, p s = q t → (f s a).map p = (f' t a).map q) →
      ∀ s t, p s = q t → (l.foldlM f s).map p = (l.foldlM f' t).map q := by
  intro l
  induction l with
  | nil => exact fun _ s t h => congrArg some h
  | cons a rest ih =>
    intro hstep s t h
    rw [foldlM_cons, foldlM_cons]
    have h₁ := hstep s t a mem_cons_self h
    cases hs : f s a with
    | none =>
      cases ht : f' t a with
      | none => rfl
      | some t₁ =>
        rw [hs, ht] at h₁
        cases h₁
    | some s₁ =>
      cases ht : f' t a with
      | none =>
        rw [hs, ht] at h₁
        cases h₁
      | some t₁ =>
        rw [hs, ht] at h₁
        exact ih (fun s t b hb => hstep s t b (mem_cons_of_mem _ hb)) s₁ t₁ (Option.some.inj h₁)

theorem foldlM_related {σ : Type} {f : σ → α → Option σ} {R : σ → σ → Prop} (hrefl : ∀ s, R s s)
    (htrans : ∀ s t u, R s t → R t u → R s u) :
    ∀ (l : List α), (∀ a ∈ l, ∀ s t, f s a = some t → R s t) → ∀ s t, l.foldlM f s = some t → R s t := by
  intro l
  induction l with
  | nil =>
    intro _ s t h
    cases h
    exact hrefl s
  | cons a rest ih =>
    intro hstep s t h
    rw [foldlM_cons] at h
    obtain ⟨mid, hm, h⟩ := Option.bind_eq_some_iff.mp h
    exact htrans s mid t (hstep a mem_cons_self s mid hm)
      (ih (fun b hb => hstep b (mem_cons_of_mem _ hb)) mid t h)

theorem foldlM_parallel {σ τ : Type} {f : σ → α → Option σ} {f' : τ → α → Option τ} {R : σ → τ → Prop} :
    ∀ (l : List α), (∀ a ∈ l, ∀ s t s' t', R s t → f s a = some s' → f' t a = some t' → R s' t') →
      ∀ s t s' t', R s t → l.foldlM f s = some s' → l.foldlM f' t = some t' → R s' t' := by
  intro l
  induction l with
  | nil =>
    intro _ s t s' t' hr hs ht
    cases hs
    cases ht
    exact hr
  | cons a rest ih =>
    intro hstep s t s' t' hr hs ht
    rw [foldlM_cons] at hs ht
    obtain ⟨s₁, hs₁, hs⟩ := Option.bind_eq_some_iff.mp hs
    obtain ⟨t₁, ht₁, ht⟩ := Option.bind_eq_some_iff.mp ht
    exact ih (fun b hb => hstep b (mem_cons_of_mem _ hb)) s₁ t₁ s' t'
      (hstep a mem_cons_self s t s₁ t₁ hr hs₁ ht₁) hs ht

end Folds

section Depths

variable {δ : Type} [DecidableEq α] {children : α → δ → List α} {next : δ → δ}

/-- The nodes in the order they are first met, each with its depth then. The depth decides which
children a node has. -/
def visit (children : α → δ → List α) (next : δ → δ) : Nat → δ → α → List (α × δ) → Option (List (α × δ))
  | 0, _, _, _ => none
  | room + 1, d, a, seen =>
    if a ∈ seen.map Prod.fst then some seen
    else (children a d).foldlM (fun s c => visit children next room (next d) c s) (seen ++ [(a, d)])

/-- What a walk from `starts` at depth `d` adds to the nodes seen. -/
structure Visited (children : α → δ → List α) (next : δ → δ) (starts : List α) (d : δ)
    (seen new : List (α × δ)) : Prop where
  source : ∀ p ∈ new, (p.1 ∈ starts ∧ p.2 = d) ∨ ∃ q ∈ new, p.1 ∈ children q.1 q.2 ∧ p.2 = next q.2
  closed : ∀ p ∈ new, ∀ c ∈ children p.1 p.2, c ∈ (seen ++ new).map Prod.fst
  met : ∀ a ∈ starts, a ∈ (seen ++ new).map Prod.fst

theorem visitEach_spec {room : Nat} {d : δ} (hvisit : ∀ a seen out, visit children next room d a seen = some out →
      ∃ new, out = seen ++ new ∧ Visited children next [a] d seen new) :
    ∀ (starts : List α) (seen out : List (α × δ)),
      starts.foldlM (fun s c => visit children next room d c s) seen = some out →
      ∃ new, out = seen ++ new ∧ Visited children next starts d seen new := by
  intro starts
  induction starts with
  | nil =>
    intro seen out h
    cases h
    exact ⟨[], (append_nil seen).symm, by simp, by simp, by simp⟩
  | cons a rest ih =>
    intro seen out h
    rw [foldlM_cons] at h
    obtain ⟨mid, hm, h⟩ := Option.bind_eq_some_iff.mp h
    obtain ⟨new₁, rfl, h₁⟩ := hvisit a seen mid hm
    obtain ⟨new₂, rfl, h₂⟩ := ih (seen ++ new₁) out h
    have hmore {c : α} (hc : c ∈ (seen ++ new₁).map Prod.fst) : c ∈ (seen ++ (new₁ ++ new₂)).map Prod.fst := by
      rw [← append_assoc, map_append]
      exact mem_append_left _ hc
    refine ⟨new₁ ++ new₂, append_assoc .., ?_, ?_, ?_⟩
    · intro p hp
      rcases mem_append.mp hp with hp | hp
      · rcases h₁.source p hp with ⟨hs, hd⟩ | ⟨q, hq, hc⟩
        · cases mem_singleton.mp hs
          exact .inl ⟨mem_cons_self, hd⟩
        · exact .inr ⟨q, mem_append_left _ hq, hc⟩
      · rcases h₂.source p hp with ⟨hs, hd⟩ | ⟨q, hq, hc⟩
        · exact .inl ⟨mem_cons_of_mem _ hs, hd⟩
        · exact .inr ⟨q, mem_append_right _ hq, hc⟩
    · intro p hp c hc
      rcases mem_append.mp hp with hp | hp
      · exact hmore (h₁.closed p hp c hc)
      · rw [← append_assoc]
        exact h₂.closed p hp c hc
    · intro c hc
      rcases mem_cons.mp hc with rfl | hc
      · exact hmore (h₁.met c mem_cons_self)
      · rw [← append_assoc]
        exact h₂.met c hc

theorem visit_spec (room : Nat) : ∀ (d : δ) (a : α) (seen out : List (α × δ)),
    visit children next room d a seen = some out →
    ∃ new, out = seen ++ new ∧ Visited children next [a] d seen new := by
  induction room with
  | zero => exact fun _ _ _ _ h => nomatch h
  | succ room ih =>
    intro d a seen out h
    unfold visit at h
    split at h
    next hmem =>
      cases h
      refine ⟨[], (append_nil seen).symm, by simp, by simp, fun c hc => ?_⟩
      cases mem_singleton.mp hc
      rwa [append_nil]
    next =>
      obtain ⟨new, rfl, hnew⟩ := visitEach_spec (ih (next d)) _ _ _ h
      refine ⟨(a, d) :: new, by simp, ?_, ?_, ?_⟩
      · intro p hp
        rcases mem_cons.mp hp with rfl | hp
        · exact .inl ⟨mem_cons_self, rfl⟩
        · rcases hnew.source p hp with ⟨hs, hd⟩ | ⟨q, hq, hc⟩
          · exact .inr ⟨(a, d), mem_cons_self, hs, hd⟩
          · exact .inr ⟨q, mem_cons_of_mem _ hq, hc⟩
      · intro p hp c hc
        have hin : c ∈ (seen ++ [(a, d)] ++ new).map Prod.fst := by
          rcases mem_cons.mp hp with rfl | hp
          · exact hnew.met c hc
          · exact hnew.closed p hp c hc
        simpa using hin
      · intro c hc
        cases mem_singleton.mp hc
        simp

theorem visit_met {room : Nat} {d : δ} {a : α} {out : List (α × δ)} (h : visit children next room d a [] = some out)
    (b : α) : b ∈ out.map Prod.fst ↔ b = a ∨ ∃ q ∈ out, b ∈ children q.1 q.2 := by
  obtain ⟨new, rfl, hv⟩ := visit_spec room d a [] out h
  constructor
  · intro hb
    obtain ⟨p, hp, rfl⟩ := mem_map.mp hb
    rcases hv.source p hp with ⟨hs, _⟩ | ⟨q, hq, hc, _⟩
    · exact .inl (mem_singleton.mp hs)
    · exact .inr ⟨q, hq, hc⟩
  · rintro (rfl | ⟨q, hq, hc⟩)
    · exact hv.met b mem_cons_self
    · exact hv.closed q hq b hc

def unmet (univ : List α) (seen : List (α × δ)) : List α := univ.filter fun a => a ∉ seen.map Prod.fst

theorem unmet_append_le (univ : List α) (seen new : List (α × δ)) :
    (unmet univ (seen ++ new)).length ≤ (unmet univ seen).length := by
  apply List.Sublist.length_le
  apply monotone_filter_right
  intro a ha
  have ha := of_decide_eq_true ha
  refine decide_eq_true fun hs => ha ?_
  rw [map_append]
  exact mem_append_left _ hs

theorem unmet_insert_lt {univ : List α} {seen : List (α × δ)} {a : α} (ha : a ∈ univ)
    (hs : a ∉ seen.map Prod.fst) (d : δ) : (unmet univ (seen ++ [(a, d)])).length < (unmet univ seen).length := by
  have hsub : unmet univ (seen ++ [(a, d)]) = (unmet univ seen).filter fun b => b ≠ a := by
    unfold unmet
    rw [filter_filter]
    apply filter_congr
    intro b _
    simp only [map_append, map_cons, map_nil, mem_append, mem_singleton, not_or,
      Bool.decide_and]
    rw [Bool.and_comm]
  rw [hsub]
  apply length_filter_lt_length_iff_exists.mpr
  exact ⟨a, mem_filter.mpr ⟨ha, decide_eq_true hs⟩, by simp⟩

theorem visit_total {univ : List α} (hclosed : ∀ a ∈ univ, ∀ d, ∀ c ∈ children a d, c ∈ univ) (room : Nat) :
    ∀ (d : δ) (a : α) (seen : List (α × δ)), a ∈ univ → (unmet univ seen).length < room →
      ∃ out, visit children next room d a seen = some out := by
  induction room with
  | zero => exact fun _ _ _ _ h => absurd h (Nat.not_lt_zero _)
  | succ room ih =>
    intro d a seen ha hroom
    unfold visit
    split
    next => exact ⟨seen, rfl⟩
    next hs =>
      have hlt := unmet_insert_lt ha hs d
      have heach : ∀ (cs : List α) (s : List (α × δ)), (∀ c ∈ cs, c ∈ univ) → (unmet univ s).length < room →
          ∃ out, cs.foldlM (fun s c => visit children next room (next d) c s) s = some out := by
        intro cs
        induction cs with
        | nil => exact fun s _ _ => ⟨s, rfl⟩
        | cons c rest ihc =>
          intro s hcs hr
          obtain ⟨mid, hm⟩ := ih (next d) c s (hcs c mem_cons_self) hr
          obtain ⟨new, rfl, _⟩ := visit_spec room _ _ _ _ hm
          have hle := unmet_append_le univ s new
          obtain ⟨out, ho⟩ := ihc (s ++ new) (fun b hb => hcs b (mem_cons_of_mem _ hb)) (by omega)
          exact ⟨out, by rw [foldlM_cons, hm]; exact ho⟩
      exact heach _ _ (hclosed a ha d) (by omega)

end Depths

section Postorder

variable {succ : α → List α}

/-- What a walk from `starts` puts out: nodes not visited before, every one but the starts ahead of one
that leads to it. -/
structure Walked (succ : α → List α) (starts vis vis' new : List α) : Prop where
  visited : ∀ a, a ∈ vis' ↔ a ∈ vis ∨ a ∈ new
  fresh : ∀ a ∈ new, a ∉ vis
  nodup : new.Nodup
  closed : ∀ a ∈ new, ∀ c ∈ succ a, c ∈ vis'
  met : ∀ a ∈ starts, a ∈ vis'
  parent : ∀ l a r, new = l ++ a :: r → a ∈ starts ∨ ∃ p ∈ r, a ∈ succ p

theorem Walked.nil (vis : List α) : Walked succ [] vis vis [] := by
  refine ⟨by simp, by simp, nodup_nil, by simp, by simp, ?_⟩
  intro l a r h
  cases l <;> cases h

theorem Walked.append {a : α} {rest vis vis₁ vis' new₁ new₂ : List α} (h₁ : Walked succ [a] vis vis₁ new₁)
    (h₂ : Walked succ rest vis₁ vis' new₂) : Walked succ (a :: rest) vis vis' (new₁ ++ new₂) := by
  have hmore {c : α} (hc : c ∈ vis₁) : c ∈ vis' := (h₂.visited c).mpr (.inl hc)
  refine ⟨?_, ?_, ?_, ?_, ?_, ?_⟩
  · intro c
    rw [h₂.visited, h₁.visited, mem_append, or_assoc]
  · intro c hc hv
    rcases mem_append.mp hc with hc | hc
    · exact h₁.fresh c hc hv
    · exact h₂.fresh c hc ((h₁.visited c).mpr (.inl hv))
  · refine nodup_append.mpr ⟨h₁.nodup, h₂.nodup, ?_⟩
    intro c hc d hd he
    subst he
    exact h₂.fresh c hd ((h₁.visited c).mpr (.inr hc))
  · intro c hc d hd
    rcases mem_append.mp hc with hc | hc
    · exact hmore (h₁.closed c hc d hd)
    · exact h₂.closed c hc d hd
  · intro c hc
    rcases mem_cons.mp hc with rfl | hc
    · exact hmore (h₁.met c mem_cons_self)
    · exact h₂.met c hc
  · intro l c r hsplit
    rcases append_eq_append_iff.mp hsplit with ⟨m, rfl, hm⟩ | ⟨m, rfl, hm⟩
    · rcases h₂.parent m c r hm with hs | hp
      · exact .inl (mem_cons_of_mem _ hs)
      · exact .inr hp
    · cases m with
      | nil =>
        rcases h₂.parent [] c r hm.symm with hs | hp
        · exact .inl (mem_cons_of_mem _ hs)
        · exact .inr hp
      | cons d m =>
        obtain ⟨rfl, rfl⟩ := List.cons.inj hm
        rcases h₁.parent l c m rfl with hs | ⟨p, hp, hc⟩
        · exact .inl (mem_cons.mpr (.inl (mem_singleton.mp hs)))
        · exact .inr ⟨p, mem_append_left _ hp, hc⟩

theorem Walked.node {a : α} {vis vis' new : List α} (ha : a ∉ vis)
    (h : Walked succ (succ a) (a :: vis) vis' new) : Walked succ [a] vis vis' (new ++ [a]) := by
  have hself : a ∈ vis' := (h.visited a).mpr (.inl mem_cons_self)
  refine ⟨?_, ?_, ?_, ?_, ?_, ?_⟩
  · intro c
    rw [h.visited, mem_cons, mem_append, mem_singleton]
    tauto
  · intro c hc hv
    rcases mem_append.mp hc with hc | hc
    · exact h.fresh c hc (mem_cons_of_mem _ hv)
    · cases mem_singleton.mp hc
      exact ha hv
  · refine nodup_append.mpr ⟨h.nodup, by simp, ?_⟩
    intro c hc d hd he
    cases mem_singleton.mp hd
    subst he
    exact h.fresh c hc mem_cons_self
  · intro c hc
    rcases mem_append.mp hc with hc | hc
    · exact h.closed c hc
    · cases mem_singleton.mp hc
      exact h.met
  · intro c hc
    cases mem_singleton.mp hc
    exact hself
  · intro l c r hsplit
    rcases append_eq_append_iff.mp hsplit with ⟨m, rfl, hm⟩ | ⟨m, rfl, hm⟩
    · cases m with
      | nil => exact .inl (mem_singleton.mpr (List.cons.inj hm).1.symm)
      | cons d m => cases m <;> cases (List.cons.inj hm).2
    · cases m with
      | nil => exact .inl (mem_singleton.mpr (List.cons.inj hm).1)
      | cons d m =>
        obtain ⟨rfl, rfl⟩ := List.cons.inj hm
        rcases h.parent l c m rfl with hs | ⟨p, hp, hc⟩
        · exact .inr ⟨a, mem_append_right _ mem_cons_self, hs⟩
        · exact .inr ⟨p, mem_append_left _ hp, hc⟩

variable [DecidableEq α]

def postorder (succ : α → List α) : Nat → List α × List α → α → Option (List α × List α)
  | 0, _, _ => none
  | room + 1, s, a =>
    if a ∈ s.1 then some s
    else ((succ a).foldlM (postorder succ room) (a :: s.1, s.2)).map fun s => (s.1, s.2 ++ [a])

theorem postorder_each {room : Nat} (hnode : ∀ (s s' : List α × List α) (a : α), postorder succ room s a = some s' →
      ∃ new, s'.2 = s.2 ++ new ∧ Walked succ [a] s.1 s'.1 new) :
    ∀ (starts : List α) (s s' : List α × List α), starts.foldlM (postorder succ room) s = some s' →
      ∃ new, s'.2 = s.2 ++ new ∧ Walked succ starts s.1 s'.1 new := by
  intro starts
  induction starts with
  | nil =>
    intro s s' h
    cases h
    exact ⟨[], (append_nil _).symm, Walked.nil _⟩
  | cons a rest ih =>
    intro s s' h
    rw [foldlM_cons] at h
    obtain ⟨mid, hm, h⟩ := Option.bind_eq_some_iff.mp h
    obtain ⟨new₁, he₁, h₁⟩ := hnode s mid a hm
    obtain ⟨new₂, he₂, h₂⟩ := ih mid s' h
    exact ⟨new₁ ++ new₂, by rw [he₂, he₁, append_assoc], h₁.append h₂⟩

theorem postorder_spec (room : Nat) : ∀ (s s' : List α × List α) (a : α), postorder succ room s a = some s' →
    ∃ new, s'.2 = s.2 ++ new ∧ Walked succ [a] s.1 s'.1 new ∧ (a ∉ s.1 → ∃ l, new = l ++ [a]) := by
  induction room with
  | zero => exact fun _ _ _ h => nomatch h
  | succ room ih =>
    intro s s' a h
    unfold postorder at h
    split at h
    next hmem =>
      cases h
      refine ⟨[], (append_nil _).symm, ⟨by simp, by simp, nodup_nil, by simp, by simpa using hmem, ?_⟩,
        fun hn => absurd hmem hn⟩
      intro l c r hl
      cases l <;> cases hl
    next hmem =>
      obtain ⟨mid, hm, rfl⟩ := Option.map_eq_some_iff.mp h
      have hnode : ∀ (s s' : List α × List α) (a : α), postorder succ room s a = some s' →
          ∃ new, s'.2 = s.2 ++ new ∧ Walked succ [a] s.1 s'.1 new := by
        intro s s' a h
        obtain ⟨new, he, hw, -⟩ := ih s s' a h
        exact ⟨new, he, hw⟩
      obtain ⟨new, he, hw⟩ := postorder_each hnode _ _ _ hm
      refine ⟨new ++ [a], ?_, Walked.node hmem hw, fun _ => ⟨new, rfl⟩⟩
      show mid.2 ++ [a] = s.2 ++ (new ++ [a])
      rw [he, append_assoc]

def unvisited (univ vis : List α) : Nat := (univ.filter fun a => a ∉ vis).length

theorem unvisited_le {univ vis vis' : List α} (h : ∀ a ∈ vis, a ∈ vis') : unvisited univ vis' ≤ unvisited univ vis := by
  apply List.Sublist.length_le
  apply monotone_filter_right
  intro a ha
  exact decide_eq_true fun hs => of_decide_eq_true ha (h a hs)

theorem unvisited_cons_lt {univ vis : List α} {a : α} (ha : a ∈ univ) (hv : a ∉ vis) :
    unvisited univ (a :: vis) < unvisited univ vis := by
  have hsub : (univ.filter fun b => b ∉ a :: vis) = (univ.filter fun b => b ∉ vis).filter fun b => b ≠ a := by
    rw [filter_filter]
    apply filter_congr
    intro b _
    simp only [mem_cons, not_or, Bool.decide_and]
  unfold unvisited
  rw [hsub]
  apply length_filter_lt_length_iff_exists.mpr
  exact ⟨a, mem_filter.mpr ⟨ha, decide_eq_true hv⟩, by simp⟩

theorem postorder_total {univ : List α} (hclosed : ∀ a, ∀ c ∈ succ a, c ∈ univ) (room : Nat) :
    ∀ (s : List α × List α) (a : α), a ∈ univ → unvisited univ s.1 < room → ∃ s', postorder succ room s a = some s' := by
  induction room with
  | zero => exact fun _ _ _ h => absurd h (Nat.not_lt_zero _)
  | succ room ih =>
    intro s a ha hroom
    unfold postorder
    split
    next => exact ⟨s, rfl⟩
    next hv =>
      have hlt := unvisited_cons_lt ha hv
      have heach : ∀ (cs : List α) (t : List α × List α), (∀ c ∈ cs, c ∈ univ) → unvisited univ t.1 < room →
          ∃ t', cs.foldlM (postorder succ room) t = some t' := by
        intro cs
        induction cs with
        | nil => exact fun t _ _ => ⟨t, rfl⟩
        | cons c rest ihc =>
          intro t hcs ht
          obtain ⟨mid, hm⟩ := ih t c (hcs c mem_cons_self) ht
          obtain ⟨new, -, hw, -⟩ := postorder_spec room t mid c hm
          have hle : unvisited univ mid.1 ≤ unvisited univ t.1 := unvisited_le fun b hb => (hw.visited b).mpr (.inl hb)
          obtain ⟨t', ht'⟩ := ihc mid (fun b hb => hcs b (mem_cons_of_mem _ hb)) (by omega)
          exact ⟨t', by rw [foldlM_cons, hm]; exact ht'⟩
      obtain ⟨t, ht⟩ := heach (succ a) (a :: s.1, s.2) (hclosed a) (Nat.lt_of_lt_of_le hlt (Nat.le_of_lt_succ hroom))
      exact ⟨(t.1, t.2 ++ [a]), by rw [ht]; rfl⟩

end Postorder

end DepthFirst
