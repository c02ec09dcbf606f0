import WinArmVm.ClassRead

namespace WinArmVm.Mst

open List

open Frontend (isWhitespace)
open WinArmVm.Types (CharClass IsName isNameStart isNameCont)
open Scan (peek advance takeWhile lookahead attempt loop Progress Steady Reads)

variable {u : CharClass}

def ink (s : List Char) : Nat := s.countP fun c => !isWhitespace c

theorem ink_append (s t : List Char) : ink (s ++ t) = ink s + ink t := List.countP_append

variable {className s s' : List Char} {c : Char}

theorem ink_cons (h : isWhitespace c = false) (s : List Char) : ink (c :: s) = ink s + 1 :=
  countP_cons_of_pos (by rw [h]; rfl)

theorem ink_blank {s : List Char} (h : Blank s) : ink s = 0 := by
  unfold ink
  rw [countP_eq_zero]
  intro c hc
  rw [h c hc]
  exact Bool.false_ne_true

theorem ink_le {s t : List Char} (h : s <:+ t) : ink s ≤ ink t := h.sublist.countP_le

theorem ink_dropWhile (s : List Char) : ink (s.dropWhile isWhitespace) = ink s := by
  have h := congrArg ink (takeWhile_append_dropWhile (p := isWhitespace) (l := s))
  rw [ink_append, ink_blank fun c hc => mem_takeWhile_imp hc, Nat.zero_add] at h
  exact h

theorem ink_trimEnd (s : List Char) : ink (trimEnd s) = ink s := by
  have h := congrArg ink (rdropWhile_append_rtakeWhile (p := isWhitespace) (l := s))
  rw [ink_append, ink_blank fun c hc => mem_rtakeWhile_imp hc] at h
  exact h

theorem ink_trim (s : List Char) : ink (trim s) = ink s := (ink_trimEnd _).trans (ink_dropWhile s)

theorem quotedTurn_inr {q : Char} {text b s s' : List Char} (h : quotedTurn q text s = (.inr b, s')) :
    s' = [] ∨ s = q :: s' := by
  cases s with
  | nil => exact .inl (congrArg Prod.snd h).symm
  | cons c cs =>
    unfold quotedTurn at h
    rw [Scan.bind_apply] at h
    have hadvance : (advance : Scan Char _) (c :: cs) = (some c, cs) := rfl
    rw [hadvance] at h
    dsimp only at h
    split at h
    next hc =>
      rw [Scan.bind_apply] at h
      split at h
      next => cases h
      next =>
        have hr : cs = s' := congrArg Prod.snd h
        exact .inr (by rw [hc, hr])
    next => cases h

theorem quotedLoop_end (q : Char) (text s : List Char) : (loop (quotedTurn q) (quotedTurn_progress q) text s).2 = [] ∨
      q :: (loop (quotedTurn q) (quotedTurn_progress q) text s).2 <:+ s := by
  refine Scan.loop_induct (quotedTurn_progress q) (P := fun _ s r => r.2 = [] ∨ q :: r.2 <:+ s) ?_ ?_ text s
  · intro text s b s' hs
    rcases quotedTurn_inr hs with h | h
    · exact .inl h
    · exact .inr (h ▸ suffix_refl _)
  · intro text s text' s' r hs hr
    have hsuf := (quotedTurn_steady q text).suffix s
    rw [hs] at hsuf
    exact hr.imp_right fun h => h.trans hsuf

variable {m : ParsedMethod} {className s t : List Char} {b b' : ClassBody} {cs : List Char}

theorem comment_ink (h : (skipComment ('"' :: cs)).2 ≠ []) : ink (skipComment ('"' :: cs)).2 + 2 ≤ ink ('"' :: cs) := by
  have hloop : (skipComment ('"' :: cs)).2 = (loop (quotedTurn '"') (quotedTurn_progress '"') [] cs).2 := rfl
  rw [hloop] at h ⊢
  have hle := ink_le ((quotedLoop_end '"' [] cs).resolve_left h)
  rw [ink_cons (by decide)] at hle ⊢
  omega

theorem skip_ink (s : List Char) : (skipWsAndComments s).2 = [] ∨ ink (skipWsAndComments s).2 = ink s ∨
    ink (skipWsAndComments s).2 + 2 ≤ ink s := by
  have hrun : (skipWsAndComments s).2 <:+ s ∧ ((skipWsAndComments s).2 = [] ∨ ink (skipWsAndComments s).2 = ink s ∨
      ink (skipWsAndComments s).2 + 2 ≤ ink s) := by
    refine Scan.loop_induct triviaTurn_progress
      (P := fun _ s r => r.2 <:+ s ∧ (r.2 = [] ∨ ink r.2 = ink s ∨ ink r.2 + 2 ≤ ink s)) ?_ ?_ () s
    · intro a s b s' hs
      rw [triviaTurn_eq] at hs
      split at hs
      next => cases hs
      next =>
        obtain ⟨_, rfl⟩ := Prod.mk.inj hs
        exact ⟨dropWhile_suffix _, .inr (.inl (ink_dropWhile s))⟩
    · intro a s a' s' r hs hr
      have hsuf := (triviaTurn_steady a).suffix s
      rw [hs] at hsuf
      refine ⟨hr.1.trans hsuf, ?_⟩
      rw [triviaTurn_eq] at hs
      split at hs
      next hq =>
        obtain ⟨_, rfl⟩ := Prod.mk.inj hs
        have hink := ink_dropWhile s
        cases hw : s.dropWhile isWhitespace with
        | nil =>
          rw [hw] at hq
          cases hq
        | cons c cs =>
          rw [hw] at hq hr hink
          cases hq
          by_cases hend : (skipComment ('"' :: cs)).2 = []
          · rw [hend] at hr
            exact .inl (suffix_nil.mp hr.1)
          · have hcomment := comment_ink hend
            rcases hr.2 with h | h | h
            · exact .inl h
            · exact .inr (.inr (by omega))
            · exact .inr (.inr (by omega))
      next => cases hs
  exact hrun.2

theorem ivarLoop_end (vars : List (List Char)) (s : List Char) (h : (loop (ivarTurn u) (ivarTurn_progress u) vars s).1 ≠ none) :
    '|' :: (loop (ivarTurn u) (ivarTurn_progress u) vars s).2 <:+ s := by
  revert h
  refine Scan.loop_induct (ivarTurn_progress u) (P := fun _ s r => r.1 ≠ none → '|' :: r.2 <:+ s) ?_ ?_ vars s
  · intro vars s b s' hs hb
    rw [ivarTurn_eq] at hs
    split at hs
    next hbar =>
      obtain ⟨_, rfl⟩ := Prod.mk.inj hs
      have hsuf := skipWsAndComments_steady.suffix s
      cases hw : (skipWsAndComments s).2 with
      | nil =>
        rw [hw] at hbar
        cases hbar
      | cons c cs =>
        rw [hw] at hbar hsuf
        cases hbar
        exact hsuf
    next =>
      split at hs
      next => cases hs
      next => exact absurd (Sum.inr.inj (congrArg Prod.fst hs)).symm hb
  · intro vars s vars' s' r hs hr hb
    have hsuf := (ivarTurn_steady u vars).suffix s
    rw [hs] at hsuf
    exact (hr hb).trans hsuf

theorem vars_ink {cs r names : List Char} (h : tryReadIvarList u ('|' :: cs) = (some names, r)) :
    ink r + 2 ≤ ink ('|' :: cs) := by
  have hlist := Scan.attempt_some (tryReadIvarList_eq (u := u) ▸ h)
  have hloop : loop (ivarTurn u) (ivarTurn_progress u) [] cs = (some names, r) := hlist
  have hend := ivarLoop_end (u := u) [] cs (by rw [hloop]; exact Option.some_ne_none names)
  rw [hloop] at hend
  have hend : '|' :: r <:+ cs := hend
  have hle := ink_le hend
  rw [ink_cons (by decide)] at hle ⊢
  omega

theorem pragma_ink (h : (readAnglePragma ('<' :: cs)).2 ≠ []) :
    ink (readAnglePragma ('<' :: cs)).2 + 2 ≤ ink ('<' :: cs) := by
  have hread : (readAnglePragma ('<' :: cs)).2 = (cs.dropWhile (· ≠ '>')).tail := rfl
  rw [hread] at h ⊢
  have hsuf := dropWhile_suffix (fun c : Char => decide (c ≠ '>')) (l := cs)
  cases hw : cs.dropWhile (· ≠ '>') with
  | nil =>
    rw [hw] at h
    exact absurd rfl h
  | cons c ds =>
    rw [hw] at hsuf
    have hc : c = '>' := by simpa using Scan.dropWhile_stops hw
    have hle := ink_le hsuf
    rw [hc, ink_cons (by decide)] at hle
    rw [ink_cons (by decide)]
    show ink ds + 2 ≤ _
    omega

theorem bodyLoop_last (depth : Nat) (s : List Char) : (loop bodyTurn bodyTurn_progress depth s).2 = [] ∨
    ']' :: (loop bodyTurn bodyTurn_progress depth s).2 <:+ s := by
  refine Scan.loop_induct bodyTurn_progress (P := fun _ s r => r.2 = [] ∨ ']' :: r.2 <:+ s) ?_ ?_ depth s
  · intro depth s b s' hs
    rcases bodyTurn_inr hs with ⟨_, h⟩ | ⟨h, _⟩
    · exact .inl h
    · exact .inr (h ▸ suffix_refl _)
  · intro depth s depth' s' r hs hr
    have hsuf := (bodyTurn_steady depth).suffix s
    rw [hs] at hsuf
    exact hr.imp_right fun h => h.trans hsuf

theorem patternAt_eats {cs w sel : List Char} (h : patternAt u c (c :: cs) = (some sel, w)) : w <:+ cs := by
  have hsuf := patternAt_trims (u := u) c (c :: cs)
  rw [h] at hsuf
  have hsuf : w <:+ c :: cs := hsuf
  refine (suffix_cons_iff.mp hsuf).resolve_left fun he => ?_
  have hlen : w.length < (c :: cs).length := by
    unfold patternAt at h
    split at h
    next hb =>
      have hw : w = ( skipOptionalTypeAnnotation (readIdentifier u ((c :: cs).dropWhile isBinaryChar)).2).2 :=
        (congrArg Prod.snd h).symm
      rw [dropWhile_cons_of_pos hb] at hw
      have hle := ((skipOptionalTypeAnnotation_steady.suffix _).trans (((readIdentifier_steady u).suffix _).trans
        (dropWhile_suffix (l := cs) isBinaryChar))).length_le
      rw [← hw] at hle
      exact Nat.lt_succ_of_le hle
    next =>
      obtain ⟨first, r, hn, hafter⟩ := namedPattern_cases h
      have hlt := readIdentifier_shorter u hn
      have hle := (afterFirst_trims (u := u) first r).length_le
      rw [hafter] at hle
      exact Nat.lt_of_le_of_lt hle hlt
  rw [he] at hlen
  exact Nat.lt_irrefl _ hlen

theorem readMethod_parts (h : readMethod u className s = (some m, t)) :
    ∃ c cs b, c :: cs <:+ s ∧ Mark c ∧ '[' :: b <:+ cs ∧ t = (loop bodyTurn bodyTurn_progress 1 b).2 := by
  obtain ⟨side, s₁, s₂, hside, _, hsel, hbody⟩ := readPattern_cases (readMethod_cases h).1
  obtain ⟨b, hopen, hend⟩ := readBracketedBody_cases hbody
  obtain ⟨c, cs, w, hskip, _, hpat, hret⟩ := readSelector_cases hsel
  have hsuf₁ := classSide_trims (u := u) className s
  rw [hside] at hsuf₁
  have hsuf₂ := skipWsAndComments_steady.suffix s₁
  rw [hskip] at hsuf₂
  have hsuf₃ := skipOptionalReturnTypeAnnotation_steady.suffix w
  rw [hret] at hsuf₃
  have hsuf₄ := skipWsAndComments_steady.suffix s₂
  rw [hopen] at hsuf₄
  exact ⟨c, cs, b, hsuf₂.trans hsuf₁, trivia_mark hskip, (hsuf₄.trans hsuf₃).trans (patternAt_eats hpat), hend⟩

theorem readMethod_last {className x t : List Char}
    (h : readMethod u className (x ++ t) = (some m, t)) (ht : t ≠ []) : ∃ y, x = y ++ [']'] := by
  obtain ⟨c, cs, b, hcs, _, hb, hend⟩ := readMethod_parts h
  have hlast := bodyLoop_last 1 b
  rw [← hend] at hlast
  obtain ⟨y, hy⟩ := (hlast.resolve_left ht).trans ((suffix_cons _ _).trans (hb.trans ((suffix_cons _ _).trans hcs)))
  have htext : x ++ t = (y ++ [']']) ++ t := by rw [← hy, append_assoc, singleton_append]
  exact ⟨y, append_cancel_right htext⟩

theorem readMethod_ink (h : readMethod u className s = (some m, t)) : ink t + 2 ≤ ink s := by
  obtain ⟨c, cs, b, hcs, hc, hb, hend⟩ := readMethod_parts h
  have hle₁ := ink_le hcs
  have hle₂ := ink_le hb
  have hle₃ := ink_le ((bodyLoop_steady 1).suffix b)
  rw [← hend] at hle₃
  rw [ink_cons hc.1] at hle₁
  rw [ink_cons (by decide)] at hle₂
  omega

theorem wholeMethod_of_closed (hs : s = c :: cs) (hc : Mark c) (h : readItem u className s = (.method m, t)) (ht : t ≠ []) :
    WholeMethod u className m := by
  have hsuf := readItem_trims (u := u) className s
  rw [h] at hsuf
  obtain ⟨x, rfl⟩ := hsuf
  have hread := readItem_reads h ht
  have hsource := readItem_source h
  cases x with
  | nil =>
    have hempty : readItem u className [] = (.method m, []) := hread []
    cases hempty
  | cons d x =>
    have hd : d = c := (List.cons.inj hs).1
    have hm : readMethod u className (d :: x ++ t) = (some m, t) := by
      rcases readItem_cases h with ⟨_, hi, _⟩ | ⟨_, _, _, hi⟩ | ⟨_, _, _, _, hi⟩ | ⟨_, _, _, ⟨m', hm, hi⟩ | ⟨_, hi⟩⟩
      · cases hi
      · cases hi
      · cases hi
      · cases hi
        exact hm
      · cases hi
    obtain ⟨y, hy⟩ := readMethod_last hm ht
    have htrim : trim (d :: x) = d :: x := trim_id rfl (by rw [hd]; exact hc.1) hy (by decide)
    rw [htrim] at hsource
    unfold WholeMethod
    have hskip : skipWsAndComments (d :: x ++ ['\n']) = ((), d :: x ++ ['\n']) := trivia_here (by rw [hd]; exact hc)
    rw [hsource, itemTurn_eq, hskip, hread]
    rfl

def totalInk (ms : List ParsedMethod) : Nat := (ms.map fun m => ink m.source).sum

theorem itemTurn_nil (className : List Char) (b : ClassBody) : itemTurn u className b [] = (.inr b, []) := by
  rw [itemTurn_eq, skipWsAndComments_nil]
  rfl

theorem itemTurn_last (h : itemTurn u className b s = (.inr b', s')) : b'.methods = b.methods := by
  rw [itemTurn_eq] at h
  generalize (readItem u className (skipWsAndComments s).2).1 = item at h
  have hadd : b.add item = .inr b' := congrArg Prod.fst h
  cases item with
  | ended => rw [← Sum.inr.inj hadd]
  | stuck => rw [← Sum.inr.inj hadd]
  | vars names => cases hadd
  | method m => cases hadd
  | pragma inner =>
    unfold ClassBody.add at hadd
    dsimp only at hadd
    split at hadd
    next => cases hadd
    next => cases hadd

theorem add_pragma {inner : List Char} (h : b.add (.pragma inner) = .inl b') : b'.methods = b.methods := by
  unfold ClassBody.add at h
  dsimp only at h
  split at h
  next => rw [← Sum.inl.inj h]
  next => rw [← Sum.inl.inj h]

theorem itemTurn_count (h : itemTurn u className b s = (.inl b', s')) :
    (b'.methods = b.methods ∧ (s' = [] ∨ ink s' + 2 ≤ ink s)) ∨
    ∃ m, b'.methods = b.methods ++ [m] ∧ 2 ≤ ink m.source ∧ (s' = [] ∨ WholeMethod u className m) ∧
      (ink m.source + ink s' = ink s ∨ ink m.source + ink s' + 2 ≤ ink s) := by
  have hskip := skip_ink s
  rw [itemTurn_eq] at h
  cases hw : (skipWsAndComments s).2 with
  | nil =>
    rw [hw] at h
    cases h
  | cons c cs =>
    have hc := trivia_mark hw
    rw [hw] at h hskip
    have hskip := hskip.resolve_left (cons_ne_nil c cs)
    cases hi : readItem u className (c :: cs) with
    | mk item r =>
      rw [hi] at h
      obtain ⟨hadd, hr⟩ := Prod.mk.inj h
      have hr : r = s' := hr
      subst hr
      rcases readItem_cases hi with ⟨_, rfl, _⟩ | ⟨names, rfl, hv, rfl⟩ | ⟨inner, rfl, _, hp, rfl⟩ |
        ⟨_, _, _, ⟨m, hm, rfl⟩ | ⟨_, rfl⟩⟩
      · cases hadd
      · have hink := vars_ink hv
        refine .inl ⟨by rw [← Sum.inl.inj hadd], .inr ?_⟩
        rcases hskip with hskip | hskip
        · omega
        · omega
      · refine .inl ⟨add_pragma hadd, ?_⟩
        by_cases hr : r = []
        · exact .inl hr
        · have hne : (readAnglePragma ('<' :: cs)).2 ≠ [] := by rw [hp]; exact hr
          have hink := pragma_ink hne
          rw [hp] at hink
          have hink : ink r + 2 ≤ ink ('<' :: cs) := hink
          right
          rcases hskip with hskip | hskip
          · omega
          · omega
      · have hsuf := readItem_trims (u := u) className (c :: cs)
        rw [hi] at hsuf
        obtain ⟨x, hx⟩ := hsuf
        have hsource : ink m.source = ink x := by
          rw [← hx] at hi
          rw [readItem_source hi, ink_trim]
        have htwo := readMethod_ink hm
        have hsum : ink m.source + ink r = ink (c :: cs) := by rw [hsource, ← hx, ink_append]
        refine .inr ⟨m, by rw [← Sum.inl.inj hadd], by omega, ?_, ?_⟩
        · by_cases hr : r = []
          · exact .inl hr
          · exact .inr (wholeMethod_of_closed rfl hc hi hr)
        · rcases hskip with hskip | hskip
          · exact .inl (hsum.trans hskip)
          · exact .inr (by omega)
      · cases hadd

/-- Methods are each one on its own, or the last goes to the end of the text: then their sources are all of it,
or all but two characters and more. -/
structure BodyCount (u : CharClass) (className s : List Char) (ms : List ParsedMethod) : Prop where
  nil : s = [] → ms = []
  two : ∀ m ∈ ms, 2 ≤ ink m.source
  count : (∀ m ∈ ms, WholeMethod u className m) ∨ totalInk ms = ink s ∨ totalInk ms + 2 ≤ ink s

theorem BodyCount.empty (className s : List Char) : BodyCount u className s [] :=
  ⟨fun _ => rfl, fun _ hm => (nomatch hm), .inl fun _ hm => (nomatch hm)⟩

namespace BodyCount

variable {className s s' : List Char} {ms : List ParsedMethod}

theorem skip (h : BodyCount u className s' ms) (hs : s ≠ []) (hgap : s' = [] ∨ ink s' + 2 ≤ ink s) :
    BodyCount u className s ms := by
  refine ⟨fun he => absurd he hs, h.two, ?_⟩
  rcases hgap with hgap | hgap
  · rw [h.nil hgap]
    exact .inl fun m hm => (nomatch hm)
  · rcases h.count with hc | hc | hc
    · exact .inl hc
    · exact .inr (.inr (by omega))
    · exact .inr (.inr (by omega))

theorem cons {m : ParsedMethod} (h : BodyCount u className s' ms) (hs : s ≠ []) (hm : 2 ≤ ink m.source)
    (hwhole : s' = [] ∨ WholeMethod u className m)
    (hgap : ink m.source + ink s' = ink s ∨ ink m.source + ink s' + 2 ≤ ink s) : BodyCount u className s (m :: ms) := by
  have htotal : totalInk (m :: ms) = ink m.source + totalInk ms := sum_cons
  refine ⟨fun he => absurd he hs, fun n hn => ?_, ?_⟩
  · rcases mem_cons.mp hn with rfl | hn
    · exact hm
    · exact h.two n hn
  rcases hwhole with hend | hwhole
  · have hnil := h.nil hend
    subst hnil
    have hzero : totalInk [] = 0 := rfl
    have hink : ink s' = 0 := by rw [hend]; rfl
    right
    rcases hgap with hgap | hgap
    · exact .inl (by omega)
    · exact .inr (by omega)
  · rcases h.count with hc | hc | hc
    · left
      intro n hn
      rcases mem_cons.mp hn with rfl | hn
      · exact hwhole
      · exact hc n hn
    · right
      rcases hgap with hgap | hgap
      · exact .inl (by omega)
      · exact .inr (by omega)
    · right
      right
      rcases hgap with hgap | hgap
      · omega
      · omega

end BodyCount

theorem body_count (className : List Char) (b : ClassBody) (s : List Char) :
    ∃ ms, (loop (itemTurn u className) (itemTurn_progress className) b s).1.methods = b.methods ++ ms ∧
      BodyCount u className s ms := by
  refine Scan.loop_induct (itemTurn_progress className)
    (P := fun b s r => ∃ ms, r.1.methods = b.methods ++ ms ∧ BodyCount u className s ms) ?_ ?_ b s
  · intro b s b' s' hs
    exact ⟨[], by rw [itemTurn_last hs, append_nil], .empty className s⟩
  · intro b s b' s' r hs ⟨ms, hms, hcount⟩
    have hne : s ≠ [] := by
      rintro rfl
      rw [itemTurn_nil] at hs
      cases hs
    rcases itemTurn_count hs with ⟨hb, hgap⟩ | ⟨m, hb, hm, hwhole, hgap⟩
    · rw [hb] at hms
      exact ⟨ms, hms, hcount.skip hne hgap⟩
    · rw [hb, append_assoc] at hms
      exact ⟨m :: ms, hms, hcount.cons hne hm hwhole hgap⟩

theorem ink_methodLines (sources : List (List Char)) : ink (methodLines sources) = (sources.map ink).sum := by
  induction sources with
  | nil => rfl
  | cons src rest ih =>
    have hlines : methodLines (src :: rest) = "    ".toList ++ trimEnd src ++ ['\n'] ++ methodLines rest := rfl
    rw [hlines, ink_append, ink_append, ink_append, ink_blank (by decide : Blank "    ".toList),
      ink_blank (by decide : Blank ['\n']), ink_trimEnd, ih, map_cons, sum_cons, Nat.zero_add, Nat.add_zero]

theorem whole_of_sources {className : List Char} {b : ClassBody} {rows : List ParsedMethod} (hn : rows.Nodup)
    (hrows : ∀ m ∈ rows, m ∈ (loop (itemTurn u className) (itemTurn_progress className) b
      ('\n' :: (methodLines (rows.map ParsedMethod.source) ++ "]\n".toList))).1.methods) (hb : b.methods = []) :
    ∀ m ∈ rows, WholeMethod u className m := by
  obtain ⟨ms, hms, hcount⟩ := body_count (u := u) className b
    ('\n' :: (methodLines (rows.map ParsedMethod.source) ++ "]\n".toList))
  rw [hb, nil_append] at hms
  rw [hms] at hrows
  rcases hcount.count with h | h
  · exact fun m hm => h m (hrows m hm)
  exfalso
  obtain ⟨l, hl⟩ : ∃ l, ms.Perm (rows ++ l) := by
    obtain ⟨l', hp, hsub⟩ := subperm_of_subset hn hrows
    obtain ⟨l, hl⟩ := hsub.exists_perm_append
    exact ⟨l, hl.trans (hp.append_right l)⟩
  have htotal : totalInk ms = totalInk rows + totalInk l := by
    have hsum := (hl.map fun m : ParsedMethod => ink m.source).sum_nat
    rw [map_append, sum_append] at hsum
    exact hsum
  have htext : ink ('\n' :: (methodLines (rows.map ParsedMethod.source) ++ "]\n".toList)) = totalInk rows + 1 := by
    rw [← singleton_append, ink_append, ink_append, ink_methodLines, ink_blank (by decide : Blank ['\n']),
      map_map, Nat.zero_add]
    rfl
  have hextra : totalInk l = 0 ∨ 2 ≤ totalInk l := by
    cases l with
    | nil => exact .inl rfl
    | cons m l =>
      right
      have hm := hcount.two m (hl.mem_iff.mpr (mem_append_right _ mem_cons_self))
      have hsum : totalInk (m :: l) = ink m.source + totalInk l := sum_cons
      omega
  omega

end WinArmVm.Mst
