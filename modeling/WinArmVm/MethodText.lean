import WinArmVm.MstScanner

namespace WinArmVm.Mst

open List

open Frontend (isWhitespace)
open WinArmVm.Types (CharClass isNameStart isNameCont isNameStart_cont isNameCont_ascii)
open Scan (peek advance takeWhile lookahead attempt loop Progress Steady Reads)

variable {u : CharClass}

theorem triviaTurn_eq (a : Unit) (s : List Char) : triviaTurn a s = if (s.dropWhile isWhitespace).head? = some '"' then
      (.inl (), (skipComment (s.dropWhile isWhitespace)).2) else (.inr (), s.dropWhile isWhitespace) := by
  have hturn : triviaTurn a s = (if (s.dropWhile isWhitespace).head? = some '"' then
      (skipComment >>= fun _ => pure (.inl ())) else pure (.inr ()) : Scan Char (Unit ⊕ Unit))
        (s.dropWhile isWhitespace) := rfl
  rw [hturn]
  split
  next => rfl
  next => rfl

def Mark (c : Char) : Prop := isWhitespace c = false ∧ c ≠ '"'

variable {c : Char} {m : ParsedMethod} {className s r : List Char} {cs : List Char} {s cs : List Char}
  {className x t : List Char} {depth : Nat} {d : Char}

theorem trivia_mark (h : (skipWsAndComments s).2 = c :: cs) : Mark c := by
  revert c cs
  refine Scan.loop_induct triviaTurn_progress (P := fun _ _ r => ∀ {c cs}, r.2 = c :: cs → Mark c) ?_ ?_ () s
  · intro a s b s' hs c cs hr
    rw [triviaTurn_eq] at hs
    split at hs
    next => cases hs
    next hq =>
      have hr : s.dropWhile isWhitespace = c :: cs := (congrArg Prod.snd hs).trans hr
      refine ⟨Scan.dropWhile_stops hr, fun hc => hq ?_⟩
      rw [hr, hc]
      rfl
  · exact fun _ _ _ _ _ _ h => h

theorem trivia_here (h : Mark c) : skipWsAndComments (c :: cs) = ((), c :: cs) := by
  apply Scan.loop_done
  have hdrop : (c :: cs).dropWhile isWhitespace = c :: cs := dropWhile_cons_of_neg (by rw [h.1]; exact Bool.false_ne_true)
  rw [triviaTurn_eq, hdrop, if_neg]
  exact fun hc => h.2 (Option.some.inj hc)

theorem trivia_again (s : List Char) : skipWsAndComments (skipWsAndComments s).2 = skipWsAndComments s := by
  cases hs : (skipWsAndComments s).2 with
  | nil => exact skipWsAndComments_nil.trans (Prod.ext rfl hs.symm)
  | cons c cs => exact (trivia_here (trivia_mark hs)).trans (Prod.ext rfl hs.symm)

theorem readIdentifier_again (s : List Char) : readIdentifier u (skipWsAndComments s).2 = readIdentifier u s := by
  unfold readIdentifier
  rw [Scan.bind_apply, trivia_again, Scan.bind_apply]
  rfl

theorem isNameStart_ascii (h : c.toNat < 128) (ha : c.isAlphanum = false) (hu : c ≠ '_') : isNameStart u c = false := by
  by_contra hc
  have := isNameStart_cont (Bool.eq_true_of_not_eq_false hc)
  rw [isNameCont_ascii h ha hu] at this
  cases this

theorem readIdentifier_here (h : Mark c) (hn : isNameStart u c = false) :
    readIdentifier u (c :: cs) = (none, c :: cs) := by
  rw [readIdentifier_cons u (congrArg Prod.snd (trivia_here h)), hn]
  rfl

def Closer (c : Char) : Prop := c = '[' ∨ c = '^'

theorem Closer.mark (h : Closer c) : Mark c := by
  rcases h with rfl | rfl
  · exact ⟨by decide, by decide⟩
  · exact ⟨by decide, by decide⟩

theorem Closer.noName (h : Closer c) : isNameStart u c = false := by
  rcases h with rfl | rfl
  · exact isNameStart_ascii (by decide) (by decide) (by decide)
  · exact isNameStart_ascii (by decide) (by decide) (by decide)

theorem isBinaryChar.mark (h : isBinaryChar c = true) : Mark c ∧ isNameStart u c = false := by
  unfold isBinaryChar at h
  have h := of_decide_eq_true h
  simp only [mem_cons, not_mem_nil, or_false] at h
  have hall : Mark c ∧ c.toNat < 128 ∧ c.isAlphanum = false ∧ c ≠ '_' := by
    unfold Mark
    rcases h with rfl | rfl | rfl | rfl | rfl | rfl | rfl | rfl | rfl | rfl | rfl | rfl | rfl | rfl | rfl | rfl <;> decide
  exact ⟨hall.1, isNameStart_ascii hall.2.1 hall.2.2.1 hall.2.2.2⟩

theorem nextPart_closer (h : Closer c) : nextPart u (c :: cs) = (none, c :: cs) := by
  unfold nextPart
  rw [Scan.bind_apply, readIdentifier_here h.mark h.noName]
  rfl

def partParameter (u : CharClass) : Scan Char Unit := do
  let _ ← advance
  let _ ← readIdentifier u
  skipOptionalTypeAnnotation
  skipWsAndComments

theorem partParameter_steady : Steady (partParameter u) :=
  .bind .advance fun _ => .bind (readIdentifier_steady u) fun _ => .bind skipOptionalTypeAnnotation_steady fun _ =>
    skipWsAndComments_steady

theorem partTurn_eq (r : List Char × List Char) (s : List Char) :
    partTurn u r s = (match attempt (nextPart u) (partParameter u s).2 with
      | (some part, rest) => (.inl (r.1 ++ r.2 ++ [':'], part), rest)
      | (none, rest) => (.inr (r.1 ++ r.2 ++ [':']), rest)) := by
  unfold partTurn partParameter
  simp only [Scan.bind_apply]
  generalize attempt (nextPart u) _ = turn
  cases turn with
  | mk part rest =>
    cases part with
    | none => rfl
    | some part => rfl

theorem partTurn_suffix (r : List Char × List Char) : Scan.Trims (partTurn u r) :=
  .bind Steady.advance.suffix fun _ => partTurn_trims u r

theorem partTurn_next {r r' : List Char × List Char} {x y t : List Char}
    (h : partTurn u r (x ++ t) = (.inl r', y ++ t)) (hy : y ≠ []) : Reads (partTurn u r) x (.inl r') y := by
  rw [partTurn_eq] at h
  split at h
  next part rest hp =>
    have hp := Scan.attempt_some hp
    obtain ⟨hr, rfl⟩ := Prod.mk.inj h
    have hsuf := (nextPart_steady u).suffix (partParameter u (x ++ t)).2
    rw [hp] at hsuf
    obtain ⟨z, hz, hrest, _⟩ := Scan.rest_before (partParameter_steady.suffix _) hsuf hy
    have hparam : partParameter u (x ++ t) = ((), z ++ t) := Prod.ext rfl hrest
    rw [hrest] at hp
    intro t'
    rw [partTurn_eq, partParameter_steady.reads hparam hz t', ((nextPart_steady u).reads hp hy).attempt_some t', ← hr]
  next => cases h

theorem partTurn_last {r : List Char × List Char} {sel : List Char} {x cs t : List Char}
    (h : partTurn u r (x ++ t) = (.inr sel, c :: cs ++ t)) (hc : Closer c) :
    Reads (partTurn u r) x (.inr sel) (c :: cs) := by
  rw [partTurn_eq] at h
  split at h
  next => cases h
  next rest hp =>
    have hrest := Scan.attempt_none (congrArg Prod.fst hp)
    rw [hp] at hrest
    obtain ⟨hr, rfl⟩ := Prod.mk.inj h
    have hparam : partParameter u (x ++ t) = ((), c :: cs ++ t) := Prod.ext rfl hrest.symm
    intro t'
    rw [partTurn_eq, partParameter_steady.reads hparam (cons_ne_nil _ _) t']
    have hnone : Reads (nextPart u) (c :: cs) none (c :: cs) := fun t' => nextPart_closer hc
    rw [hnone.attempt_none t', ← Sum.inr.inj hr]

theorem partLoop_reads {r : List Char × List Char} {sel x cs t : List Char}
    (h : loop (partTurn u) (partTurn_progress u) r (x ++ t) = (sel, c :: cs ++ t)) (hc : Closer c) :
    Reads (loop (partTurn u) (partTurn_progress u) r) x sel (c :: cs) := by
  have hrun : ∀ s, (loop (partTurn u) (partTurn_progress u) r s).2 <:+ s ∧ ∀ x, s = x ++ t →
      loop (partTurn u) (partTurn_progress u) r s = (sel, c :: cs ++ t) →
        Reads (loop (partTurn u) (partTurn_progress u) r) x sel (c :: cs) := by
    intro s
    refine Scan.loop_induct (partTurn_progress u) (P := fun r s v => v.2 <:+ s ∧ ∀ x, s = x ++ t →
      v = (sel, c :: cs ++ t) → Reads (loop (partTurn u) (partTurn_progress u) r) x sel (c :: cs)) ?_ ?_ r s
    · intro r s b s' hs
      have hsuf := partTurn_suffix (u := u) r s
      rw [hs] at hsuf
      refine ⟨hsuf, fun x hx hv t' => ?_⟩
      rw [hx] at hs
      obtain ⟨rfl, rfl⟩ := Prod.mk.inj hv
      exact Scan.loop_done _ (partTurn_last hs hc t')
    · intro r s r' s' v hs hnext
      have hsuf := partTurn_suffix (u := u) r s
      rw [hs] at hsuf
      refine ⟨hnext.1.trans hsuf, fun x hx hv t' => ?_⟩
      rw [hx] at hs hsuf
      have hrest := hnext.1
      rw [hv] at hrest
      obtain ⟨z, hz, rfl, _⟩ := Scan.rest_before hsuf hrest (cons_ne_nil _ _)
      rw [Scan.loop_next _ (partTurn_next hs hz t')]
      exact hnext.2 z rfl hv t'
  exact (hrun _).2 x rfl h

theorem partLoop_end (r : List Char × List Char) (s : List Char) :
    skipWsAndComments (loop (partTurn u) (partTurn_progress u) r s).2 =
      ((), (loop (partTurn u) (partTurn_progress u) r s).2) := by
  refine Scan.loop_induct (partTurn_progress u) (P := fun _ _ v => skipWsAndComments v.2 = ((), v.2)) ?_
    (fun _ _ _ _ _ _ h => h) r s
  intro r s b s' hs
  rw [partTurn_eq] at hs
  split at hs
  next => cases hs
  next rest hp =>
    have hrest := Scan.attempt_none (congrArg Prod.fst hp)
    rw [hp] at hrest
    obtain ⟨_, rfl⟩ := Prod.mk.inj hs
    have hskip : ∃ s', (partParameter u s).2 = (skipWsAndComments s').2 := ⟨_, rfl⟩
    obtain ⟨s', hs'⟩ := hskip
    have hrest : rest = (skipWsAndComments s').2 := hrest.trans hs'
    rw [hrest, trivia_again]

theorem closer_of_body {w cs : List Char}
    (h : (skipWsAndComments ( skipOptionalReturnTypeAnnotation w).2).2 = '[' :: cs) :
    ∃ c ds, (skipWsAndComments w).2 = c :: ds ∧ Closer c := by
  have hret : skipOptionalReturnTypeAnnotation w = (if (skipWsAndComments w).2.head? = some '^' then
      (advance >>= fun _ => skipOptionalTypeAnnotation) else pure () : Scan Char Unit) (skipWsAndComments w).2 := rfl
  rw [hret] at h
  split at h
  next hc =>
    cases hw : (skipWsAndComments w).2 with
    | nil =>
      rw [hw] at hc
      cases hc
    | cons c ds =>
      rw [hw] at hc
      exact ⟨c, ds, rfl, .inr (Option.some.inj hc)⟩
  next =>
    have h : (skipWsAndComments (skipWsAndComments w).2).2 = '[' :: cs := h
    rw [trivia_again] at h
    exact ⟨'[', cs, h, .inl rfl⟩

def binaryPattern (u : CharClass) : Scan Char (Option (List Char)) := do
  let sel ← takeWhile isBinaryChar
  let _ ← readIdentifier u
  skipOptionalTypeAnnotation
  pure (some sel)

def afterFirst (u : CharClass) (first : List Char) : Scan Char (Option (List Char)) := do
  skipWsAndComments
  if (← peek) = some ':' then do
    let sel ← loop (partTurn u) (partTurn_progress u) ([], first)
    pure (some sel)
  else pure (some first)

def namedPattern (u : CharClass) : Scan Char (Option (List Char)) := do
  match ← readIdentifier u with
  | none => pure none
  | some first => afterFirst u first

theorem binaryPattern_steady : Steady (binaryPattern u) :=
  .bind (.takeWhile _) fun _ => .bind (readIdentifier_steady u) fun _ => .bind skipOptionalTypeAnnotation_steady fun _ =>
    .pure _

def patternAt (u : CharClass) (c : Char) : Scan Char (Option (List Char)) :=
  if isBinaryChar c then binaryPattern u else namedPattern u

theorem readSelector_eq (hw : (skipWsAndComments s).2 = c :: cs) (hc : c ≠ ']') :
    readSelector u s = (match patternAt u c (c :: cs) with
      | (some sel, w) => (some sel, ( skipOptionalReturnTypeAnnotation w).2)
      | (none, w) => (none, w)) := by
  have hsel : readSelector u s = (patternAt u c >>= fun sel => match sel with
      | none => pure none
      | some sel => do
        skipOptionalReturnTypeAnnotation
        pure (some sel) : Scan Char (Option (List Char))) (c :: cs) := by
    unfold readSelector
    rw [Scan.bind_apply, hw, Scan.bind_apply, Scan.bind_apply]
    have hpeek : (peek : Scan Char _) (c :: cs) = (some c, c :: cs) := rfl
    rw [hpeek]
    dsimp only
    rw [if_neg hc]
    unfold patternAt
    split
    next => rfl
    next => rfl
  rw [hsel, Scan.bind_apply]
  cases patternAt u c (c :: cs) with
  | mk sel w =>
    cases sel with
    | none => rfl
    | some sel => rfl

theorem readSelector_none {s : List Char} (hw : ∀ c cs, (skipWsAndComments s).2 = c :: cs → c = ']') :
    (readSelector u s).1 = none := by
  unfold readSelector
  rw [Scan.bind_apply, Scan.bind_apply, Scan.bind_apply]
  cases h : (skipWsAndComments s).2 with
  | nil => rfl
  | cons c cs =>
    have hpeek : (peek : Scan Char _) (c :: cs) = (some c, c :: cs) := rfl
    rw [hpeek]
    dsimp only
    rw [if_pos (hw c cs h)]
    rfl

theorem readSelector_cases {s r sel : List Char} (h : readSelector u s = (some sel, r)) :
    ∃ c cs w, (skipWsAndComments s).2 = c :: cs ∧ c ≠ ']' ∧ patternAt u c (c :: cs) = (some sel, w) ∧
      ( skipOptionalReturnTypeAnnotation w).2 = r := by
  by_cases hw : ∀ c cs, (skipWsAndComments s).2 = c :: cs → c = ']'
  · have hnone := readSelector_none (u := u) hw
    rw [h] at hnone
    cases hnone
  · simp only [not_forall] at hw
    obtain ⟨c, cs, hw, hc⟩ := hw
    rw [readSelector_eq hw hc] at h
    split at h
    next sel' w hp =>
      obtain ⟨hs, hr⟩ := Prod.mk.inj h
      exact ⟨c, cs, w, hw, hc, hs ▸ hp, hr⟩
    next => cases h

theorem afterFirst_eq (first s : List Char) : afterFirst u first s = if (skipWsAndComments s).2.head? = some ':' then
      (some (loop (partTurn u) (partTurn_progress u) ([], first) (skipWsAndComments s).2).1,
        (loop (partTurn u) (partTurn_progress u) ([], first) (skipWsAndComments s).2).2)
      else (some first, (skipWsAndComments s).2) := by
  have hafter : afterFirst u first s = (if (skipWsAndComments s).2.head? = some ':' then
      (loop (partTurn u) (partTurn_progress u) ([], first) >>= fun sel => pure (some sel)) else pure (some first) :
        Scan Char (Option (List Char))) (skipWsAndComments s).2 := rfl
  rw [hafter]
  split
  next => rfl
  next => rfl

theorem afterFirst_reads {first sel x z t : List Char} (h : afterFirst u first (x ++ t) = (some sel, z ++ t))
    (hz : z ≠ []) (hcloser : ∃ c ds, (skipWsAndComments (z ++ t)).2 = c :: ds ∧ Closer c) :
    Reads (afterFirst u first) x (some sel) z := by
  rw [afterFirst_eq] at h
  split at h
  next hcolon =>
    obtain ⟨hsel, hrest⟩ := Prod.mk.inj h
    have hsuf := partLoop_trims (u := u) ([], first) (skipWsAndComments (x ++ t)).2
    have hend := partLoop_end (u := u) ([], first) (skipWsAndComments (x ++ t)).2
    rw [hrest] at hsuf hend
    obtain ⟨y, hy, hw, _⟩ := Scan.rest_before (skipWsAndComments_steady.suffix _) hsuf hz
    obtain ⟨c, ds, hskip, hc⟩ := hcloser
    rw [hend] at hskip
    cases z with
    | nil => exact absurd rfl hz
    | cons d cs =>
      obtain ⟨rfl, _⟩ := List.cons.inj hskip
      have hskipx : skipWsAndComments (x ++ t) = ((), y ++ t) := Prod.ext rfl hw
      rw [hw] at hsel hrest hcolon
      have hloop := partLoop_reads (Prod.ext (Option.some.inj hsel) hrest) hc
      rw [Steady.head_of_ne hy] at hcolon
      intro t'
      rw [afterFirst_eq, skipWsAndComments_steady.reads hskipx hy t', Steady.head_of_ne hy, if_pos hcolon]
      rw [hloop t']
  next hcolon =>
    obtain ⟨hsel, hrest⟩ := Prod.mk.inj h
    have hskipx : skipWsAndComments (x ++ t) = ((), z ++ t) := Prod.ext rfl hrest
    rw [hrest, Steady.head_of_ne hz] at hcolon
    intro t'
    rw [afterFirst_eq, skipWsAndComments_steady.reads hskipx hz t', Steady.head_of_ne hz, if_neg hcolon, hsel]

theorem namedPattern_cases {s w sel : List Char} (h : namedPattern u s = (some sel, w)) :
    ∃ first r, readIdentifier u s = (some first, r) ∧ afterFirst u first r = (some sel, w) := by
  unfold namedPattern at h
  rw [Scan.bind_apply] at h
  cases hn : readIdentifier u s with
  | mk first r =>
    rw [hn] at h
    cases first with
    | none => cases h
    | some first => exact ⟨first, r, rfl, h⟩

theorem afterFirst_trims (first : List Char) : Scan.Trims (afterFirst u first) :=
  .bind skipWsAndComments_steady.suffix fun _ => .bind Steady.peek.suffix fun _ =>
    .ite (.bind (partLoop_trims _) fun _ => (Steady.pure _).suffix) (Steady.pure _).suffix

theorem patternAt_reads {sel x z t : List Char} (h : patternAt u c (x ++ t) = (some sel, z ++ t))
    (hz : z ≠ []) (hcloser : ∃ c ds, (skipWsAndComments (z ++ t)).2 = c :: ds ∧ Closer c) :
    Reads (patternAt u c) x (some sel) z := by
  unfold patternAt at h ⊢
  split at h
  next hb =>
    rw [if_pos hb]
    exact binaryPattern_steady.reads h hz
  next hb =>
    rw [if_neg hb]
    obtain ⟨first, r, hn, hafter⟩ := namedPattern_cases h
    have hsuf := afterFirst_trims (u := u) first r
    rw [hafter] at hsuf
    have hsuf' := (readIdentifier_steady u).suffix (x ++ t)
    rw [hn] at hsuf'
    obtain ⟨y, hy, rfl, _⟩ := Scan.rest_before hsuf' hsuf hz
    exact ((readIdentifier_steady u).reads hn hy).bind (g := fun first => match first with
      | none => pure none
      | some first => afterFirst u first) (afterFirst_reads hafter hz hcloser)

theorem patternAt_trims (c : Char) : Scan.Trims (patternAt u c) := by
  refine .ite binaryPattern_steady.suffix (.bind (readIdentifier_steady u).suffix fun first => ?_)
  cases first with
  | none => exact (Steady.pure _).suffix
  | some first => exact afterFirst_trims first

theorem starts_of_append {y t cs : List Char} (hy : y ≠ []) (h : y ++ t = c :: cs) : ∃ ds, y = c :: ds := by
  cases y with
  | nil => exact absurd rfl hy
  | cons d ds =>
    obtain ⟨rfl, _⟩ := List.cons.inj h
    exact ⟨ds, rfl⟩

theorem readSelector_reads {sel x y t cs : List Char} (h : readSelector u (x ++ t) = (some sel, y ++ t)) (hy : y ≠ [])
    (hbody : (skipWsAndComments (y ++ t)).2 = '[' :: cs) : Reads (readSelector u) x (some sel) y := by
  obtain ⟨c, cs, w, hskip, hc, hpat, hret⟩ := readSelector_cases h
  have hsuf := skipOptionalReturnTypeAnnotation_steady.suffix w
  have hsuf' := patternAt_trims (u := u) c (c :: cs)
  have hsuf'' := skipWsAndComments_steady.suffix (x ++ t)
  rw [hret] at hsuf
  rw [hpat] at hsuf'
  rw [hskip] at hsuf''
  rw [← hret] at hbody
  have hcloser := closer_of_body hbody
  obtain ⟨v, hv, hcs, _⟩ := Scan.rest_before hsuf'' (hsuf.trans hsuf') hy
  obtain ⟨ds, rfl⟩ := starts_of_append hv hcs.symm
  rw [hcs] at hpat hsuf' hskip
  obtain ⟨z, hz, rfl, _⟩ := Scan.rest_before hsuf' hsuf hy
  have hreads := patternAt_reads hpat hz hcloser
  have hskipx : skipWsAndComments (x ++ t) = ((), c :: ds ++ t) := Prod.ext rfl hskip
  have hrets : skipOptionalReturnTypeAnnotation (z ++ t) = ((), y ++ t) := Prod.ext rfl hret
  intro t'
  have hskip' : (skipWsAndComments (x ++ t')).2 = c :: (ds ++ t') :=
    congrArg Prod.snd (skipWsAndComments_steady.reads hskipx hv t')
  have hpat' : patternAt u c (c :: (ds ++ t')) = (some sel, z ++ t') := hreads t'
  rw [readSelector_eq hskip' hc, hpat']
  show (_, ( skipOptionalReturnTypeAnnotation (z ++ t')).2) = _
  rw [skipOptionalReturnTypeAnnotation_steady.reads hrets hy t']

theorem bodyTurn_inr {s s' : List Char} (h : bodyTurn depth s = (.inr (), s')) :
    s = [] ∧ s' = [] ∨ s = ']' :: s' ∧ depth = 1 := by
  unfold bodyTurn at h
  rw [Scan.bind_apply] at h
  cases s with
  | nil => exact .inl ⟨rfl, (congrArg Prod.snd h).symm⟩
  | cons c cs =>
    have hpeek : (peek : Scan Char _) (c :: cs) = (some c, c :: cs) := rfl
    rw [hpeek] at h
    dsimp only at h
    split at h
    next => cases h
    split at h
    next hc =>
      by_cases hd : depth = 1
      · rw [if_pos hd] at h
        have hr : cs = s' := congrArg Prod.snd h
        exact .inr ⟨by rw [hc, hr], hd⟩
      · rw [if_neg hd] at h
        cases h
    split at h
    next => cases h
    split at h
    next => cases h
    split at h
    next => cases h
    next => cases h

theorem bodyTurn_last (cs : List Char) : bodyTurn 1 (']' :: cs) = (.inr (), cs) := rfl

theorem bodyLoop_closes {x t : List Char} (h : (loop bodyTurn bodyTurn_progress depth (x ++ t)).2 = t)
    (ht : t ≠ []) : Reads (loop bodyTurn bodyTurn_progress depth) x () [] := by
  have hrun : ∀ s, ((loop bodyTurn bodyTurn_progress depth s).2 <:+ s ∧
      (s ≠ [] → (loop bodyTurn bodyTurn_progress depth s).2.length < s.length)) ∧
      ∀ x, s = x ++ t → (loop bodyTurn bodyTurn_progress depth s).2 = t →
        Reads (loop bodyTurn bodyTurn_progress depth) x () [] := by
    intro s
    refine Scan.loop_induct bodyTurn_progress (P := fun depth s v => (v.2 <:+ s ∧ (s ≠ [] → v.2.length < s.length)) ∧
      ∀ x, s = x ++ t → v.2 = t → Reads (loop bodyTurn bodyTurn_progress depth) x () []) ?_ ?_ depth s
    · intro depth s b s' hs
      rcases bodyTurn_inr hs with ⟨rfl, rfl⟩ | ⟨rfl, rfl⟩
      · exact ⟨⟨suffix_refl _, fun h => absurd rfl h⟩, fun x hx hv => absurd hv.symm ht⟩
      · refine ⟨⟨suffix_cons _ _, fun _ => Nat.lt_succ_self _⟩, fun x hx hv t' => ?_⟩
        have hv : s' = t := hv
        subst hv
        have hx : [']'] = x := append_cancel_right hx
        subst hx
        exact Scan.loop_done _ (bodyTurn_last t')
    · intro depth s depth' s' v hs hnext
      have hsuf := (bodyTurn_steady depth).suffix s
      rw [hs] at hsuf
      have hlt := bodyTurn_progress _ _ _ _ hs
      have hle := hnext.1.1.length_le
      refine ⟨⟨hnext.1.1.trans hsuf, fun _ => by omega⟩, fun x hx hv t' => ?_⟩
      have hrest := hnext.1.1
      rw [hv] at hrest
      obtain ⟨z, rfl⟩ := hrest
      have hz : z ≠ [] := by
        rintro rfl
        have := hnext.1.2 ht
        rw [hv] at this
        exact absurd this (Nat.lt_irrefl _)
      rw [hx] at hs
      rw [Scan.loop_next _ ((bodyTurn_steady depth).reads hs hz t')]
      exact hnext.2 z rfl hv t'
  exact (hrun _).2 x rfl h

theorem readBracketedBody_eq (h : (skipWsAndComments s).2 = '[' :: cs) :
    readBracketedBody s = (true, (loop bodyTurn bodyTurn_progress 1 cs).2) := by
  unfold readBracketedBody
  rw [Scan.bind_apply, h, Scan.bind_apply]
  rfl

theorem readBracketedBody_reads {x cs t : List Char} (hskip : skipWsAndComments (x ++ t) = ((), '[' :: cs ++ t))
    (h : (loop bodyTurn bodyTurn_progress 1 (cs ++ t)).2 = t) (ht : t ≠ []) : Reads readBracketedBody x true [] := by
  intro t'
  have hskip' : (skipWsAndComments (x ++ t')).2 = '[' :: (cs ++ t') :=
    congrArg Prod.snd (skipWsAndComments_steady.reads hskip (cons_ne_nil _ _) t')
  rw [readBracketedBody_eq hskip', bodyLoop_closes h ht t']

theorem eatStr_reads {lit x y t : List Char} (h : eatStr lit (x ++ t) = (true, y ++ t)) (hy : y ≠ []) :
    Reads (eatStr lit) x true y := by
  have heat : Scan.eat lit (skipWsAndComments (x ++ t)).2 = (true, y ++ t) := h
  have hsuf := Scan.trims_eat lit (skipWsAndComments (x ++ t)).2
  rw [heat] at hsuf
  obtain ⟨z, hz, hw, _⟩ := Scan.rest_before (skipWsAndComments_steady.suffix _) hsuf hy
  rw [hw] at heat
  have hskip : skipWsAndComments (x ++ t) = ((), z ++ t) := Prod.ext rfl hw
  exact (skipWsAndComments_steady.reads hskip hz).bind (Reads.eat heat)

theorem eatStr_false {s ds lit : List Char} {c d : Char} (hs : (skipWsAndComments s).2 = d :: ds) (hd : c ≠ d) :
    eatStr (c :: lit) s = (false, d :: ds) := by
  have heat : eatStr (c :: lit) s = Scan.eat (c :: lit) (skipWsAndComments s).2 := rfl
  rw [heat, hs]
  unfold Scan.eat
  rw [if_neg]
  intro h
  obtain ⟨w, hw⟩ := isPrefixOf_iff_prefix.mp h
  exact hd (List.cons.inj hw).1

def sidePrefix (u : CharClass) (className : List Char) : Scan Char (Option Unit) := do
  match ← readIdentifier u with
  | none => pure none
  | some name =>
    if name = className then do
      if ← eatStr ['c', 'l', 'a', 's', 's'] then do
        if ← eatStr ['>', '>'] then pure (some ())
        else pure none
      else pure none
    else pure none

theorem classSide_eq (className : List Char) : classSide u className = attempt (sidePrefix u className) := rfl

theorem sidePrefix_none (h : readIdentifier u s = (none, r)) : sidePrefix u className s = (none, r) := by
  unfold sidePrefix
  rw [Scan.bind_apply, h]
  rfl

theorem sidePrefix_other {className name s r : List Char} (h : readIdentifier u s = (some name, r))
    (hn : name ≠ className) : sidePrefix u className s = (none, r) := by
  unfold sidePrefix
  rw [Scan.bind_apply, h]
  dsimp only
  rw [if_neg hn]
  rfl

theorem sidePrefix_same (h : readIdentifier u s = (some className, r)) :
    sidePrefix u className s = (match eatStr ['c', 'l', 'a', 's', 's'] r with
      | (true, r) => (match eatStr ['>', '>'] r with
        | (true, r) => (some (), r)
        | (false, r) => (none, r))
      | (false, r) => (none, r)) := by
  unfold sidePrefix
  rw [Scan.bind_apply, h]
  dsimp only
  rw [if_pos rfl, Scan.bind_apply]
  cases eatStr ['c', 'l', 'a', 's', 's'] r with
  | mk b r =>
    cases b with
    | false => rfl
    | true =>
      dsimp only
      rw [if_pos rfl, Scan.bind_apply]
      cases eatStr ['>', '>'] r with
      | mk b r =>
        cases b with
        | false => rfl
        | true => rfl

theorem sidePrefix_some (h : sidePrefix u className s = (some (), r)) :
    ∃ r₁ r₂, readIdentifier u s = (some className, r₁) ∧ eatStr ['c', 'l', 'a', 's', 's'] r₁ = (true, r₂) ∧
      eatStr ['>', '>'] r₂ = (true, r) := by
  cases hn : readIdentifier u s with
  | mk name r₁ =>
    cases name with
    | none =>
      rw [sidePrefix_none hn] at h
      cases h
    | some name =>
      by_cases hname : name = className
      · subst hname
        rw [sidePrefix_same hn] at h
        split at h
        next r₂ h₂ =>
          split at h
          next r₃ h₃ => exact ⟨r₁, r₂, rfl, h₂, by rw [h₃, (Prod.mk.inj h).2]⟩
          next => cases h
        next => cases h
      · rw [sidePrefix_other hn hname] at h
        cases h

theorem classSide_reads_some {className x y t : List Char} (h : classSide u className (x ++ t) = (some (), y ++ t))
    (hy : y ≠ []) : Reads (classSide u className) x (some ()) y := by
  obtain ⟨r₁, r₂, hn, hclass, hsel⟩ := sidePrefix_some (Scan.attempt_some h)
  have hsuf₁ := (readIdentifier_steady u).suffix (x ++ t)
  have hsuf₂ := eatStr_trims ['c', 'l', 'a', 's', 's'] r₁
  have hsuf₃ := eatStr_trims ['>', '>'] r₂
  rw [hn] at hsuf₁
  rw [hclass] at hsuf₂
  rw [hsel] at hsuf₃
  obtain ⟨y₁, hy₁, rfl, _⟩ := Scan.rest_before hsuf₁ (hsuf₃.trans hsuf₂) hy
  obtain ⟨y₂, hy₂, rfl, _⟩ := Scan.rest_before hsuf₂ hsuf₃ hy
  refine Reads.attempt_some (fun t' => ?_)
  show sidePrefix u className (x ++ t') = _
  rw [sidePrefix_same ((readIdentifier_steady u).reads hn hy₁ t'), eatStr_reads hclass hy₂ t']
  dsimp only
  rw [eatStr_reads hsel hy t']

theorem readIdentifier_start {s cs name r : List Char} (hs : (skipWsAndComments s).2 = c :: cs)
    (hn : readIdentifier u s = (some name, r)) : isNameStart u c = true := by
  rw [readIdentifier_cons u hs] at hn
  split at hn
  next hstart => exact hstart
  next => cases hn

theorem readIdentifier_noName {s r : List Char} (hn : readIdentifier u s = (none, r)) : (skipWsAndComments s).2 = r := by
  cases hs : (skipWsAndComments s).2 with
  | nil =>
    rw [readIdentifier_nil u hs] at hn
    exact congrArg Prod.snd hn
  | cons c cs =>
    rw [readIdentifier_cons u hs] at hn
    split at hn
    next => cases hn
    next => exact congrArg Prod.snd hn

theorem selector_name {s r w sel name cs : List Char} (h : readSelector u s = (some sel, w))
    (hn : readIdentifier u s = (some name, r)) (hbody : (skipWsAndComments w).2 = '[' :: cs) :
    ∃ d ds, (skipWsAndComments r).2 = d :: ds ∧ (d = ':' ∨ Closer d) ∧ w <:+ d :: ds := by
  obtain ⟨c, cs', w₁, hskip, _, hpat, hret⟩ := readSelector_cases h
  have hstart := readIdentifier_start hskip hn
  have hsuf := skipOptionalReturnTypeAnnotation_steady.suffix w₁
  rw [hret] at hsuf
  unfold patternAt at hpat
  rw [if_neg (fun hb => by rw [(isBinaryChar.mark hb).2] at hstart; cases hstart)] at hpat
  obtain ⟨first, r', hn', hafter⟩ := namedPattern_cases hpat
  rw [← hskip, readIdentifier_again, hn] at hn'
  obtain ⟨hname, rfl⟩ := Prod.mk.inj hn'
  cases hname
  rw [afterFirst_eq] at hafter
  split at hafter
  next hcolon =>
    cases hr : (skipWsAndComments r).2 with
    | nil =>
      rw [hr] at hcolon
      cases hcolon
    | cons d ds =>
      rw [hr] at hcolon hafter
      have hsuf' := partLoop_trims (u := u) ([], name) (d :: ds)
      rw [congrArg Prod.snd hafter] at hsuf'
      exact ⟨d, ds, rfl, .inl (Option.some.inj hcolon), hsuf.trans hsuf'⟩
  next =>
    have hw₁ : (skipWsAndComments r).2 = w₁ := congrArg Prod.snd hafter
    rw [← hret] at hbody
    obtain ⟨d, ds, hd, hc⟩ := closer_of_body hbody
    rw [← hw₁, trivia_again] at hd
    rw [← hw₁, hd] at hsuf
    exact ⟨d, ds, hd, .inr hc, hsuf⟩

theorem selector_noName {s r w sel : List Char} (h : readSelector u s = (some sel, w))
    (hn : readIdentifier u s = (none, r)) : w <:+ r := by
  obtain ⟨c, cs, w₁, hskip, _, hpat, hret⟩ := readSelector_cases h
  have hsuf := skipOptionalReturnTypeAnnotation_steady.suffix w₁
  rw [hret] at hsuf
  have hsuf' := patternAt_trims (u := u) c (c :: cs)
  rw [hpat] at hsuf'
  rw [← readIdentifier_noName hn, hskip]
  exact hsuf.trans hsuf'

theorem colon_ne_c (h : d = ':' ∨ Closer d) : 'c' ≠ d := by
  rcases h with rfl | rfl | rfl
  · decide
  · decide
  · decide

theorem classSide_reads_none {className x t w sel b : List Char} (h : (classSide u className (x ++ t)).1 = none)
    (hsel : readSelector u (x ++ t) = (some sel, w)) (hbody : (skipWsAndComments w).2 = '[' :: b ++ t) :
    Reads (classSide u className) x none x := by
  have hw : '[' :: b ++ t <:+ w := by
    rw [← hbody]
    exact skipWsAndComments_steady.suffix w
  have hsuf := (readIdentifier_steady u).suffix (x ++ t)
  rw [classSide_eq]
  cases hn : readIdentifier u (x ++ t) with
  | mk name r =>
    rw [hn] at hsuf
    cases name with
    | none =>
      obtain ⟨y, hy, rfl, _⟩ := Scan.rest_before hsuf (hw.trans (selector_noName hsel hn)) (cons_ne_nil _ _)
      have hreads : Reads (sidePrefix u className) x none y := fun t' =>
        sidePrefix_none ((readIdentifier_steady u).reads hn hy t')
      exact hreads.attempt_none
    | some name =>
      obtain ⟨d, ds, hd, hcolon, hwd⟩ := selector_name hsel hn hbody
      have hsufr := skipWsAndComments_steady.suffix r
      rw [hd] at hsufr
      obtain ⟨y, hy, rfl, _⟩ := Scan.rest_before hsuf ((hw.trans hwd).trans hsufr) (cons_ne_nil _ _)
      have hname := (readIdentifier_steady u).reads hn hy
      by_cases hsame : name = className
      · subst hsame
        obtain ⟨v, hv, hds, _⟩ := Scan.rest_before hsufr (hw.trans hwd) (cons_ne_nil _ _)
        obtain ⟨es, rfl⟩ := starts_of_append hv hds.symm
        rw [hds] at hd
        have hskip : skipWsAndComments (y ++ t) = ((), d :: es ++ t) := Prod.ext rfl hd
        have hreads : Reads (sidePrefix u name) x none (d :: es) := by
          intro t'
          have hskip' : (skipWsAndComments (y ++ t')).2 = d :: (es ++ t') :=
            congrArg Prod.snd (skipWsAndComments_steady.reads hskip hv t')
          rw [sidePrefix_same (hname t'), eatStr_false hskip' (colon_ne_c hcolon)]
          rfl
        exact hreads.attempt_none
      · have hreads : Reads (sidePrefix u className) x none y := fun t' => sidePrefix_other (hname t') hsame
        exact hreads.attempt_none

theorem readPattern_of {className s s₁ s₂ r sel : List Char} {side : Option Unit}
    (hside : classSide u className s = (side, s₁)) (hsel : readSelector u s₁ = (some sel, s₂))
    (hbody : readBracketedBody s₂ = (true, r)) : readPattern u className s = (some (side.isSome, sel), r) := by
  unfold readPattern
  rw [Scan.bind_apply, hside, Scan.bind_apply, hsel]
  dsimp only
  rw [Scan.bind_apply, hbody]
  rfl

theorem readMethod_of {className s r sel : List Char} {isClassSide : Bool}
    (h : readPattern u className s = (some (isClassSide, sel), r)) :
    readMethod u className s = (some ⟨sel, isClassSide, trim (s.take (s.length - r.length))⟩, r) := by
  unfold readMethod
  rw [h]

theorem readMethod_cases (h : readMethod u className s = (some m, r)) :
    readPattern u className s = (some (m.isClassSide, m.selector), r) ∧
      m.source = trim (s.take (s.length - r.length)) := by
  unfold readMethod at h
  split at h
  next isClassSide sel rest hp =>
    obtain ⟨hm, rfl⟩ := Prod.mk.inj h
    cases hm
    exact ⟨hp, rfl⟩
  next => cases h

theorem readMethod_reads (h : readMethod u className (x ++ t) = (some m, t)) (ht : t ≠ []) : Reads (readMethod u className) x (some m) [] := by
  obtain ⟨hp, hsource⟩ := readMethod_cases h
  obtain ⟨side, s₁, s₂, hside, hclass, hsel, hbody⟩ := readPattern_cases hp
  obtain ⟨cs, hopen, hend⟩ := readBracketedBody_cases hbody
  have hsuf := (bodyLoop_steady 1).suffix cs
  rw [← hend] at hsuf
  obtain ⟨b, rfl⟩ := hsuf
  have hsuf₂ := skipWsAndComments_steady.suffix s₂
  rw [hopen] at hsuf₂
  have hsuf₁ := readSelector_trims (u := u) s₁
  rw [hsel] at hsuf₁
  have hsuf₀ := classSide_trims (u := u) className (x ++ t)
  rw [hside] at hsuf₀
  obtain ⟨z₁, hz₁, rfl, _⟩ := Scan.rest_before hsuf₀ (y := '[' :: b) (hsuf₂.trans hsuf₁) (cons_ne_nil _ _)
  obtain ⟨z₂, hz₂, rfl, _⟩ := Scan.rest_before hsuf₁ (y := '[' :: b) hsuf₂ (cons_ne_nil _ _)
  have hread : Reads (classSide u className) x side z₁ := by
    cases side with
    | none =>
      have hrest := Scan.attempt_none (congrArg Prod.fst hside)
      have hz : z₁ ++ t = x ++ t := (congrArg Prod.snd hside).symm.trans hrest
      cases append_cancel_right hz
      exact classSide_reads_none (congrArg Prod.fst hside) hsel hopen
    | some _ => exact classSide_reads_some hside hz₁
  have hskip : skipWsAndComments (z₂ ++ t) = ((), '[' :: b ++ t) := Prod.ext rfl hopen
  intro t'
  have hp' := readPattern_of (hread t') (readSelector_reads hsel hz₂ hopen t') (readBracketedBody_reads hskip hend.symm ht t')
  rw [readMethod_of hp', ← hclass]
  rw [nil_append] at *
  have htake : ∀ t : List Char, (x ++ t).take ((x ++ t).length - t.length) = x := by
    intro t
    rw [length_append, Nat.add_sub_cancel, take_left]
  rw [htake] at hsource ⊢
  rw [← hsource]

theorem ivarTurn_eq (vars : List (List Char)) (s : List Char) :
    ivarTurn u vars s = if (skipWsAndComments s).2.head? = some '|' then
      (.inr (some ([' '].intercalate vars)), (skipWsAndComments s).2.tail) else
      (match readIdentifier u s with
        | (some v, r) => (.inl (vars ++ [v]), ( skipOptionalTypeAnnotation r).2)
        | (none, r) => (.inr none, r)) := by
  unfold ivarTurn
  change (if (skipWsAndComments s).2.head? = some '|' then _ else _ : Scan Char _) (skipWsAndComments s).2 = _
  split
  next => rfl
  next =>
    rw [Scan.bind_apply, readIdentifier_again]
    cases readIdentifier u s with
    | mk v r =>
      cases v with
      | none => rfl
      | some v => rfl

def ivarList (u : CharClass) : Scan Char (Option (List Char)) := do
  let _ ← advance
  loop (ivarTurn u) (ivarTurn_progress u) []

theorem tryReadIvarList_eq : tryReadIvarList u = attempt (ivarList u) := rfl

theorem ivarList_steady : Steady (ivarList u) := .bind .advance fun _ => .loop _ (ivarTurn_steady u) _

def pragmaName (u : CharClass) : Scan Char Bool := do
  let _ ← advance
  match ← readIdentifier u with
  | none => pure false
  | some _ => do
    skipWsAndComments
    pure ((← peek) = some ':')

theorem pragmaName_steady : Steady (pragmaName u) := by
  refine .bind .advance fun _ => .bind (readIdentifier_steady u) fun name => ?_
  cases name with
  | none => exact .pure _
  | some _ => exact .bind skipWsAndComments_steady fun _ => .bind .peek fun _ => .pure _

theorem ivar_closer {vars : List (List Char)} {s ds : List Char} (hs : (skipWsAndComments s).2 = d :: ds)
    (hd : Closer d) : ivarTurn u vars s = (.inr none, d :: ds) := by
  have hbar : (skipWsAndComments s).2.head? ≠ some '|' := by
    rw [hs, List.head?_cons]
    intro h
    rw [Option.some.inj h] at hd
    rcases hd with hd | hd
    · cases hd
    · cases hd
  have hn : readIdentifier u s = (none, d :: ds) := by
    rw [← readIdentifier_again, hs]
    exact readIdentifier_here hd.mark hd.noName
  rw [ivarTurn_eq, if_neg hbar, hn]

theorem selector_binary {cs w sel : List Char} (hc : isBinaryChar c = true)
    (h : readSelector u (c :: cs) = (some sel, w)) :
    ( skipOptionalReturnTypeAnnotation ( skipOptionalTypeAnnotation
      (readIdentifier u (cs.dropWhile isBinaryChar)).2).2).2 = w := by
  obtain ⟨d, ds, w₁, hskip, _, hpat, hret⟩ := readSelector_cases h
  rw [trivia_here (isBinaryChar.mark (u := u) hc).1] at hskip
  obtain ⟨rfl, rfl⟩ := List.cons.inj hskip
  unfold patternAt at hpat
  rw [if_pos hc] at hpat
  have hw₁ : ( skipOptionalTypeAnnotation (readIdentifier u ((c :: cs).dropWhile isBinaryChar)).2).2 = w₁ :=
    congrArg Prod.snd hpat
  rw [dropWhile_cons_of_pos hc] at hw₁
  rw [hw₁, hret]

theorem skipReturn_suffix (s : List Char) : ( skipOptionalReturnTypeAnnotation s).2 <:+ (skipWsAndComments s).2 := by
  have htrims : Scan.Trims (do
      if (← peek) = some '^' then do
        let _ ← advance
        skipOptionalTypeAnnotation
      else pure () : Scan Char Unit) :=
    .bind Steady.peek.suffix fun _ => .ite (.bind Steady.advance.suffix fun _ => skipOptionalTypeAnnotation_steady.suffix)
      (Steady.pure _).suffix
  exact htrims _

theorem skipType_suffix (s : List Char) : ( skipOptionalTypeAnnotation s).2 <:+ (skipWsAndComments s).2 := by
  have htrims : Scan.Trims (do
      if (← peek) = some '<' then do
        let _ ← advance
        loop angleTurn angleTurn_progress 1
      else pure () : Scan Char Unit) :=
    .bind Steady.peek.suffix fun _ => .ite (.bind Steady.advance.suffix fun _ =>
      (Steady.loop _ (fun a => .bind .advance (angleTurn_rest_steady a)) _).suffix) (Steady.pure _).suffix
  exact htrims _

theorem operator_rest (cs : List Char) : cs.dropWhile isBinaryChar = cs ∨
    ∃ c ds, cs = c :: ds ∧ isBinaryChar c = true := by
  cases cs with
  | nil => exact .inl rfl
  | cons c ds =>
    by_cases hc : isBinaryChar c = true
    · exact .inr ⟨c, ds, rfl, hc⟩
    · exact .inl (dropWhile_cons_of_neg hc)

theorem binary_suffix {cs w : List Char} (h : ( skipOptionalReturnTypeAnnotation ( skipOptionalTypeAnnotation
      (readIdentifier u (cs.dropWhile isBinaryChar)).2).2).2 = w) : w <:+ cs := by
  rw [← h]
  exact (skipOptionalReturnTypeAnnotation_steady.suffix _).trans ((skipOptionalTypeAnnotation_steady.suffix _).trans
    (((readIdentifier_steady u).suffix _).trans (dropWhile_suffix _)))

theorem ivarList_stops {cs w sel b r : List Char} (h : readSelector u ('|' :: cs) = (some sel, w))
    (hbody : (skipWsAndComments w).2 = '[' :: b) (hlist : ivarList u ('|' :: cs) = (none, r)) : w <:+ r := by
  have hsel := selector_binary (by decide) h
  have hloop : loop (ivarTurn u) (ivarTurn_progress u) [] cs = (none, r) := hlist
  have hbar : (skipWsAndComments cs).2.head? ≠ some '|' := by
    intro hbar
    have hturn : ivarTurn u [] cs = (.inr (some []), (skipWsAndComments cs).2.tail) := by
      rw [ivarTurn_eq, if_pos hbar]
      rfl
    rw [Scan.loop_done _ hturn] at hloop
    cases hloop
  have hfirst := ivarTurn_eq (u := u) [] cs
  rw [if_neg hbar] at hfirst
  rcases operator_rest cs with hcs | ⟨c, ds, rfl, hc⟩
  · rw [hcs] at hsel
    cases hn : readIdentifier u cs with
    | mk v r₂ =>
      rw [hn] at hfirst hsel
      cases v with
      | none =>
        rw [Scan.loop_done _ hfirst] at hloop
        obtain ⟨_, rfl⟩ := Prod.mk.inj hloop
        rw [← hsel]
        exact (skipOptionalReturnTypeAnnotation_steady.suffix _).trans (skipOptionalTypeAnnotation_steady.suffix _)
      | some v =>
        rw [Scan.loop_next _ hfirst] at hloop
        rw [← hsel] at hbody
        obtain ⟨d, ds, hd, hcloser⟩ := closer_of_body hbody
        rw [Scan.loop_done _ (ivar_closer hd hcloser)] at hloop
        obtain ⟨_, rfl⟩ := Prod.mk.inj hloop
        rw [← hsel, ← hd]
        exact skipReturn_suffix _
  · have hmark := isBinaryChar.mark (u := u) hc
    rw [readIdentifier_here hmark.1 hmark.2] at hfirst
    rw [Scan.loop_done _ hfirst] at hloop
    obtain ⟨_, rfl⟩ := Prod.mk.inj hloop
    exact binary_suffix hsel

theorem pragmaName_eq (c : Char) (cs : List Char) : pragmaName u (c :: cs) = (match readIdentifier u cs with
    | (none, r) => (false, r)
    | (some _, r) => (decide ((skipWsAndComments r).2.head? = some ':'), (skipWsAndComments r).2)) := by
  unfold pragmaName
  rw [Scan.bind_apply]
  show ((readIdentifier u >>= _ : Scan Char Bool) cs) = _
  rw [Scan.bind_apply]
  cases readIdentifier u cs with
  | mk name r =>
    cases name with
    | none => rfl
    | some name => rfl

theorem pragmaName_stops {cs w sel : List Char} (h : readSelector u ('<' :: cs) = (some sel, w)) :
    w <:+ (pragmaName u ('<' :: cs)).2 := by
  have hsel := selector_binary (by decide) h
  rw [pragmaName_eq]
  rcases operator_rest cs with hcs | ⟨c, ds, rfl, hc⟩
  · rw [hcs] at hsel
    cases hn : readIdentifier u cs with
    | mk name r =>
      rw [hn] at hsel
      rw [← hsel]
      cases name with
      | none =>
        exact (skipOptionalReturnTypeAnnotation_steady.suffix _).trans (skipOptionalTypeAnnotation_steady.suffix _)
      | some name => exact (skipOptionalReturnTypeAnnotation_steady.suffix _).trans (skipType_suffix _)
  · have hmark := isBinaryChar.mark (u := u) hc
    rw [readIdentifier_here hmark.1 hmark.2]
    exact binary_suffix hsel

theorem readItem_method {className cs : List Char} (hend : c ≠ ']')
    (hlist : c = '|' → (tryReadIvarList u (c :: cs)).1 = none)
    (hpragma : c = '<' → (peekIsClassPragma u (c :: cs)).1 = false) :
    readItem u className (c :: cs) = (match readMethod u className (c :: cs) with
      | (some m, r) => (.method m, r)
      | (none, r) => (.stuck, r)) := by
  have hvars : Scan.given (c = '|') (tryReadIvarList u) none (c :: cs) = (none, c :: cs) := by
    unfold Scan.given
    by_cases hc : c = '|'
    · rw [if_pos hc]
      exact Prod.ext (hlist hc) (Scan.attempt_none (hlist hc))
    · rw [if_neg hc]
      rfl
  have hname : Scan.given (c = '<') (peekIsClassPragma u) false (c :: cs) = (false, c :: cs) := by
    unfold Scan.given
    by_cases hc : c = '<'
    · rw [if_pos hc]
      exact Prod.ext (hpragma hc) rfl
    · rw [if_neg hc]
      rfl
  unfold readItem
  rw [Scan.bind_apply]
  have hpeek : (peek : Scan Char _) (c :: cs) = (some c, c :: cs) := rfl
  rw [hpeek]
  dsimp only
  rw [if_neg hend, Scan.bind_apply, hvars]
  dsimp only
  rw [Scan.bind_apply, hname]
  rw [if_neg Bool.false_ne_true, Scan.bind_apply]
  cases readMethod u className (c :: cs) with
  | mk m r =>
    cases m with
    | none => rfl
    | some m => rfl

theorem classSide_mark {className cs : List Char} (h : Mark c) (hn : isNameStart u c = false) :
    classSide u className (c :: cs) = (none, c :: cs) := by
  rw [classSide_eq]
  unfold attempt
  rw [sidePrefix_none (readIdentifier_here h hn)]

theorem readMethod_operator {className cs t : List Char} (hc : isBinaryChar c = true)
    (h : readMethod u className (c :: cs ++ t) = (some m, t)) :
    ∃ w b, readSelector u (c :: cs ++ t) = (some m.selector, w) ∧ (skipWsAndComments w).2 = '[' :: b ++ t := by
  obtain ⟨side, s₁, s₂, hside, _, hsel, hbody⟩ := readPattern_cases (readMethod_cases h).1
  have hmark := isBinaryChar.mark (u := u) hc
  have hs₁ : c :: cs ++ t = s₁ := congrArg Prod.snd ((classSide_mark hmark.1 hmark.2).symm.trans hside)
  obtain ⟨ds, hopen, hend⟩ := readBracketedBody_cases hbody
  have hsuf := (bodyLoop_steady 1).suffix ds
  rw [← hend] at hsuf
  obtain ⟨b, rfl⟩ := hsuf
  exact ⟨s₂, b, hs₁ ▸ hsel, hopen⟩

theorem ivarList_reads {className cs t : List Char} (h : readMethod u className ('|' :: cs ++ t) = (some m, t))
    (hlist : (tryReadIvarList u ('|' :: cs ++ t)).1 = none) : Reads (tryReadIvarList u) ('|' :: cs) none ('|' :: cs) := by
  obtain ⟨w, b, hsel, hbody⟩ := readMethod_operator (by decide) h
  rw [tryReadIvarList_eq] at hlist ⊢
  cases hl : ivarList u ('|' :: cs ++ t) with
  | mk names r =>
    cases names with
    | some names =>
      unfold attempt at hlist
      rw [hl] at hlist
      cases hlist
    | none =>
      have hw : '[' :: b ++ t <:+ w := by
        rw [← hbody]
        exact skipWsAndComments_steady.suffix w
      have hsuf := (ivarList_steady (u := u)).suffix ('|' :: cs ++ t)
      rw [hl] at hsuf
      obtain ⟨y, hy, rfl, _⟩ := Scan.rest_before hsuf (hw.trans (ivarList_stops hsel hbody hl)) (cons_ne_nil _ _)
      exact Reads.attempt_none (ivarList_steady.reads hl hy)

theorem pragma_reads {className cs t : List Char} (h : readMethod u className ('<' :: cs ++ t) = (some m, t)) :
    Reads (peekIsClassPragma u) ('<' :: cs) (peekIsClassPragma u ('<' :: cs ++ t)).1 ('<' :: cs) := by
  obtain ⟨w, b, hsel, hbody⟩ := readMethod_operator (by decide) h
  have hw : '[' :: b ++ t <:+ w := by
    rw [← hbody]
    exact skipWsAndComments_steady.suffix w
  obtain ⟨y, hy, hr, _⟩ := Scan.rest_before ((pragmaName_steady (u := u)).suffix ('<' :: cs ++ t))
    (hw.trans (pragmaName_stops hsel)) (cons_ne_nil _ _)
  exact Reads.lookahead (pragmaName_steady.reads (Prod.ext rfl hr) hy)

theorem readItem_reads (h : readItem u className (x ++ t) = (.method m, t)) (ht : t ≠ []) : Reads (readItem u className) x (.method m) [] := by
  cases x with
  | nil =>
    cases t with
    | nil => exact absurd rfl ht
    | cons c cs =>
      rcases readItem_cases h with ⟨_, hi, _⟩ | ⟨_, _, _, hi⟩ | ⟨_, _, _, _, hi⟩ | ⟨_, _, _, ⟨m', hm, _⟩ | ⟨_, hi⟩⟩
      · cases hi
      · cases hi
      · cases hi
      · exact absurd (readMethod_shorter hm).1 (Nat.lt_irrefl _)
      · cases hi
  | cons c cs =>
    rcases readItem_cases h with ⟨_, hi, _⟩ | ⟨_, _, _, hi⟩ | ⟨_, _, _, _, hi⟩ | ⟨hend, hlist, hpragma, ⟨m', hm, hi⟩ | ⟨_, hi⟩⟩
    · cases hi
    · cases hi
    · cases hi
    · cases hi
      have hm : readMethod u className (c :: cs ++ t) = (some m, t) := hm
      have hlist : c = '|' → (tryReadIvarList u (c :: cs ++ t)).1 = none := hlist
      have hpragma : c = '<' → (peekIsClassPragma u (c :: cs ++ t)).1 = false := hpragma
      intro t'
      have hlist' : c = '|' → (tryReadIvarList u (c :: (cs ++ t'))).1 = none := by
        rintro rfl
        exact congrArg Prod.fst (ivarList_reads hm (hlist rfl) t')
      have hpragma' : c = '<' → (peekIsClassPragma u (c :: (cs ++ t'))).1 = false := by
        rintro rfl
        exact (congrArg Prod.fst (pragma_reads hm t')).trans (hpragma rfl)
      have hread : readMethod u className (c :: (cs ++ t')) = (some m, t') := readMethod_reads hm ht t'
      show readItem u className (c :: (cs ++ t')) = (.method m, t')
      rw [readItem_method hend hlist' hpragma', hread]
    · cases hi

end WinArmVm.Mst
