import WinArmVm.MethodText

namespace WinArmVm.Mst

open List

open Frontend (isWhitespace)
open WinArmVm.Types (CharClass IsName isNameStart isNameCont isNameStart_cont isNameCont_ascii isNameCont_whitespace)
open Scan (peek advance takeWhile lookahead attempt loop Progress Steady Reads)

variable {u : CharClass}

def Blank (w : List Char) : Prop := ∀ c ∈ w, isWhitespace c = true

instance (w : List Char) : Decidable (Blank w) := List.decidableBAll _ w

variable {classVars : List Char} {w : List Char} {b : ClassBody} {d : Char}

theorem dropWhile_blank (h : Blank w) (s : List Char) : (w ++ s).dropWhile isWhitespace = s.dropWhile isWhitespace := by
  induction w with
  | nil => rfl
  | cons c w ih =>
    rw [cons_append, dropWhile_cons_of_pos (h c mem_cons_self)]
    exact ih fun d hd => h d (mem_cons_of_mem c hd)

theorem skip_blank (h : Blank w) (s : List Char) : skipWsAndComments (w ++ s) = skipWsAndComments s := by
  have hturn : triviaTurn () (w ++ s) = triviaTurn () s := by
    rw [triviaTurn_eq, triviaTurn_eq, dropWhile_blank h]
  unfold skipWsAndComments
  cases ht : triviaTurn () s with
  | mk a r =>
    rw [ht] at hturn
    cases a with
    | inl a => rw [Scan.loop_next _ hturn, Scan.loop_next _ ht]
    | inr b => rw [Scan.loop_done _ hturn, Scan.loop_done _ ht]

variable {superclass name body : List Char} {c : Char}

theorem skip_to {w t : List Char} (h : Blank w) (hc : Mark c) : skipWsAndComments (w ++ c :: t) = ((), c :: t) := by
  rw [skip_blank h, trivia_here hc]

theorem nameStart_mark (h : isNameStart u c = true) : Mark c := by
  have hcont := isNameStart_cont h
  refine ⟨?_, ?_⟩
  · by_contra hw
    rw [isNameCont_whitespace (Bool.eq_true_of_not_eq_false hw)] at hcont
    cases hcont
  · rintro rfl
    rw [isNameCont_ascii (by decide) (by decide) (by decide)] at hcont
    cases hcont

theorem span_name {cs t : List Char} (hcs : ∀ c ∈ cs, isNameCont u c = true) (hd : isNameCont u d = false) :
    (cs ++ d :: t).takeWhile (isNameCont u) = cs ∧ (cs ++ d :: t).dropWhile (isNameCont u) = d :: t := by
  have hd' : ¬ isNameCont u d = true := by rw [hd]; exact Bool.false_ne_true
  rw [takeWhile_append_of_pos hcs, dropWhile_append_of_pos hcs, takeWhile_cons_of_neg hd',
    dropWhile_cons_of_neg hd', append_nil]
  exact ⟨rfl, rfl⟩

theorem readIdentifier_name {w n t : List Char} (hw : Blank w) (hn : IsName u n)
    (hd : isNameCont u d = false) : readIdentifier u (w ++ (n ++ d :: t)) = (some n, d :: t) := by
  obtain ⟨c, cs, rfl, hc, hcs⟩ := hn
  have hall : ∀ e ∈ c :: cs, isNameCont u e = true := by
    intro e he
    rcases mem_cons.mp he with rfl | he
    · exact isNameStart_cont hc
    · exact hcs e he
  obtain ⟨htake, hdrop⟩ := span_name (t := t) hall hd
  have hskip := congrArg Prod.snd (skip_to (t := cs ++ d :: t) hw (nameStart_mark hc))
  have hread := readIdentifier_cons u hskip
  rw [if_pos hc] at hread
  exact hread.trans (by rw [← cons_append, htake, hdrop])

theorem readIdentifier_isName {s r n : List Char} (h : readIdentifier u s = (some n, r)) : IsName u n := by
  cases hs : (skipWsAndComments s).2 with
  | nil =>
    rw [readIdentifier_nil u hs] at h
    cases h
  | cons c cs =>
    rw [readIdentifier_cons u hs] at h
    split at h
    next hc =>
      have hn : (c :: cs).takeWhile (isNameCont u) = n := Option.some.inj (congrArg Prod.fst h)
      rw [takeWhile_cons_of_pos (isNameStart_cont hc)] at hn
      exact ⟨c, _, hn.symm, hc, fun d hd => (mem_takeWhile_imp hd)⟩
    next => cases h

theorem eatStr_text {w lit rest : List Char} (hw : Blank w) (hc : Mark c) :
    eatStr (c :: lit) (w ++ (c :: lit ++ rest)) = (true, rest) := by
  have heat : eatStr (c :: lit) (w ++ (c :: lit ++ rest)) =
    Scan.eat (c :: lit) (skipWsAndComments (w ++ (c :: lit ++ rest))).2 := rfl
  rw [heat, cons_append, skip_to hw hc]
  unfold Scan.eat
  rw [← cons_append, if_pos ( isPrefixOf_iff_prefix.mpr (prefix_append _ _)), drop_left]

theorem blank_space : Blank [' '] := by decide

theorem space_noName : isNameCont u ' ' = false := isNameCont_whitespace (by decide)

theorem s_mark : Mark 's' := ⟨by decide, by decide⟩

theorem bracket_mark : Mark '[' := ⟨by decide, by decide⟩

def classOpening (superclass name body : List Char) : List Char :=
  superclass ++ ' ' :: ("subclass:".toList ++ ' ' :: (name ++ ' ' :: '[' :: body))

theorem classRest_text (hn : IsName u name) :
    classRest u superclass (' ' :: ("subclass:".toList ++ ' ' :: (name ++ ' ' :: '[' :: body))) =
      (some (superclass, name), body) := by
  have heat : eatStr "subclass:".toList (' ' :: ("subclass:".toList ++ ' ' :: (name ++ ' ' :: '[' :: body))) =
    (true, ' ' :: (name ++ ' ' :: '[' :: body)) := eatStr_text (w := [' ']) blank_space s_mark
  have hname : readIdentifier u (' ' :: (name ++ ' ' :: '[' :: body)) = (some name, ' ' :: '[' :: body) :=
    readIdentifier_name (w := [' ']) blank_space hn space_noName
  have hskip : skipWsAndComments (' ' :: '[' :: body) = ((), '[' :: body) := skip_to (w := [' ']) blank_space bracket_mark
  unfold classRest
  rw [Scan.bind_apply, heat]
  rw [if_pos rfl, Scan.bind_apply, hname]
  dsimp only
  rw [Scan.bind_apply, hskip, Scan.bind_apply]
  rfl

theorem classHead_text (hs : IsName u superclass) (hn : IsName u name) :
    classHead u (classOpening superclass name body) = (some (superclass, name), body) := by
  have hfirst : readIdentifier u (classOpening superclass name body) =
      (some superclass, ' ' :: ("subclass:".toList ++ ' ' :: (name ++ ' ' :: '[' :: body))) :=
    readIdentifier_name (w := []) (by decide) hs space_noName
  unfold classHead
  rw [Scan.bind_apply, hfirst]
  exact classRest_text hn

theorem fileTurn_text (hs : IsName u superclass) (hn : IsName u name) :
    fileTurn u ⟨none, []⟩ (classOpening superclass name body) =
      (.inl ⟨none, [parsedClass superclass name none (readBody (u := u) name body).1]⟩,
        (readBody (u := u) name body).2) := by
  have hhead : classHead u (classOpening superclass name body) = (some (superclass, name), body) := classHead_text hs hn
  obtain ⟨c, cs, rfl, hc, _⟩ := hs
  have hmark := nameStart_mark hc
  have hskip : skipWs (classOpening (c :: cs) name body) = ((), classOpening (c :: cs) name body) := by
    have hdrop : (classOpening (c :: cs) name body).dropWhile isWhitespace = classOpening (c :: cs) name body :=
      dropWhile_cons_of_neg (by rw [hmark.1]; exact Bool.false_ne_true)
    exact Prod.ext rfl hdrop
  unfold fileTurn
  rw [Scan.bind_apply, hskip, Scan.bind_apply]
  have hpeek : (peek : Scan Char _) (classOpening (c :: cs) name body) = (some c, classOpening (c :: cs) name body) := rfl
  rw [hpeek]
  dsimp only
  rw [if_neg hmark.2, Scan.bind_apply, hhead]
  rfl

theorem fileTurn_cases {f : FileSoFar} {s s' : List Char} {a : FileSoFar ⊕ List ParsedClass}
    (h : fileTurn u f s = (a, s')) : a = .inr f.classes ∨ (∃ comment, a = .inl { f with pendingComment := comment }) ∨
      ∃ first superclass name s₁ s₂ w, readIdentifier u w = (some first, s₁) ∧
        classRest u first s₁ = (some (superclass, name), s₂) ∧
        a = .inl ⟨none, f.classes ++ [parsedClass superclass name f.pendingComment (readBody (u := u) name s₂).1]⟩ := by
  unfold fileTurn at h
  rw [Scan.bind_apply] at h
  generalize (skipWs s).2 = w at h
  cases w with
  | nil => exact .inl (congrArg Prod.fst h).symm
  | cons c cs =>
    rw [Scan.bind_apply] at h
    have hpeek : (peek : Scan Char _) (c :: cs) = (some c, c :: cs) := rfl
    rw [hpeek] at h
    dsimp only at h
    by_cases hq : c = '"'
    · rw [if_pos hq] at h
      exact .inr (.inl ⟨_, (congrArg Prod.fst h).symm⟩)
    · rw [if_neg hq, Scan.bind_apply] at h
      cases hc : classHead u (c :: cs) with
      | mk head r =>
        rw [hc] at h
        cases head with
        | none => exact .inl (congrArg Prod.fst h).symm
        | some head =>
          obtain ⟨superclass, name⟩ := head
          obtain ⟨first, s₁, hn, hrest⟩ := classHead_cases hc
          exact .inr (.inr ⟨first, superclass, name, s₁, r, c :: cs, hn, hrest, (congrArg Prod.fst h).symm⟩)

theorem fileLoop_keeps (f : FileSoFar) (s : List Char) : f.classes <+: (loop (fileTurn u) fileTurn_progress f s).1 := by
  refine Scan.loop_induct fileTurn_progress (P := fun f _ r => f.classes <+: r.1) ?_ ?_ f s
  · intro f s b s' hs
    rcases fileTurn_cases hs with h | ⟨_, h⟩ | ⟨_, _, _, _, _, _, _, _, h⟩
    · cases h
      exact prefix_refl _
    · cases h
    · cases h
  · intro f s f' s' r hs hr
    rcases fileTurn_cases hs with h | ⟨_, h⟩ | ⟨_, _, _, _, _, _, _, _, h⟩
    · cases h
    · cases h
      exact hr
    · cases h
      exact (prefix_append _ _).trans hr

theorem parse_text {superclass name : List Char} (hs : IsName u superclass) (hn : IsName u name) (body : List Char) :
    (parseMstSource u (classOpening superclass name body)).head? =
      some (parsedClass superclass name none (readBody (u := u) name body).1) := by
  unfold parseMstSource
  rw [Scan.loop_next _ (fileTurn_text hs hn)]
  obtain ⟨rest, hrest⟩ := fileLoop_keeps (u := u)
    ⟨none, [parsedClass superclass name none (readBody (u := u) name body).1]⟩ (readBody (u := u) name body).2
  rw [← hrest]
  rfl

variable (className : List Char) (vs : List (List Char)) (v : List Char)

theorem itemTurn_eq (b : ClassBody) (s : List Char) :
    itemTurn u className b s = (b.add (readItem u className (skipWsAndComments s).2).1,
      (readItem u className (skipWsAndComments s).2).2) := rfl

variable (vs : List (List Char)) (s : List Char) (r : List Char)

theorem skipType_eq (h : (skipWsAndComments s).2.head? ≠ some '<') :
    skipOptionalTypeAnnotation s = ((), (skipWsAndComments s).2) := by
  have htype : skipOptionalTypeAnnotation s = (if (skipWsAndComments s).2.head? = some '<' then do
      let _ ← advance
      loop angleTurn angleTurn_progress 1
    else pure () : Scan Char Unit) (skipWsAndComments s).2 := rfl
  rw [htype, if_neg h]
  rfl

def spacedNames (vs : List (List Char)) : List Char := vs.flatMap (' ' :: ·)

theorem names_join : spacedNames (v :: vs) = ' ' :: [' '].intercalate (v :: vs) := by
  induction vs generalizing v with
  | nil => simp [spacedNames]
  | cons w vs ih =>
    rw [intercalate_cons_cons, append_assoc, singleton_append, ← ih w]
    rfl

theorem bar_mark : Mark '|' := ⟨by decide, by decide⟩

theorem names_skip (hvs : ∀ v ∈ vs, IsName u v) (r : List Char) :
    ∃ c cs, skipWsAndComments (spacedNames vs ++ ' ' :: '|' :: r) = ((), c :: cs) ∧ (c = '|' ∨ isNameStart u c = true) := by
  cases vs with
  | nil => exact ⟨'|', r, skip_to (w := [' ']) blank_space bar_mark, .inl rfl⟩
  | cons v vs =>
    obtain ⟨c, cs, rfl, hc, _⟩ := hvs v mem_cons_self
    exact ⟨c, cs ++ (spacedNames vs ++ ' ' :: '|' :: r), by
      rw [← append_assoc]
      exact skip_to (w := [' ']) blank_space (nameStart_mark hc), .inr hc⟩

theorem names_head : ∃ t, spacedNames vs ++ ' ' :: '|' :: r = ' ' :: t := by
  cases vs with
  | nil => exact ⟨_, rfl⟩
  | cons v vs => exact ⟨_, rfl⟩

theorem nameStart_ne {c d : Char} (h : isNameStart u c = true) (hd : d.toNat < 128) (ha : d.isAlphanum = false)
    (hu : d ≠ '_') : c ≠ d := by
  rintro rfl
  rw [isNameStart_ascii hd ha hu] at h
  cases h

theorem ivarLoop_text (vs : List (List Char)) : ∀ (vars : List (List Char)) (s : List Char),
    (∀ v ∈ vs, IsName u v) → skipWsAndComments s = skipWsAndComments (spacedNames vs ++ ' ' :: '|' :: r) →
      loop (ivarTurn u) (ivarTurn_progress u) vars s = (some ([' '].intercalate (vars ++ vs)), r) := by
  induction vs with
  | nil =>
    intro vars s _ hs
    have hskip : skipWsAndComments s = ((), '|' :: r) := hs.trans (skip_to (w := [' ']) blank_space bar_mark)
    apply Scan.loop_done
    rw [ivarTurn_eq, hskip, append_nil]
    exact if_pos rfl
  | cons v vs ih =>
    intro vars s hvs hs
    have hname := hvs v mem_cons_self
    have hrest := fun v hv => hvs v (mem_cons_of_mem _ hv)
    obtain ⟨t, ht⟩ := names_head vs r
    have hs' : skipWsAndComments s = skipWsAndComments (v ++ ' ' :: t) := by
      rw [hs, ← ht]
      have htext : spacedNames (v :: vs) ++ ' ' :: '|' :: r = [' '] ++ (v ++ (spacedNames vs ++ ' ' :: '|' :: r)) := by
        rw [← append_assoc v]
        rfl
      rw [htext, skip_blank blank_space]
    have hread : readIdentifier u s = (some v, ' ' :: t) := by
      rw [← readIdentifier_again, hs', readIdentifier_again]
      exact readIdentifier_name (w := []) (by decide) hname space_noName
    have hbar : (skipWsAndComments s).2.head? ≠ some '|' := by
      obtain ⟨c, cs, hv, hc, _⟩ := hname
      rw [hs', hv]
      have hskip : skipWsAndComments (c :: cs ++ ' ' :: t) = ((), c :: (cs ++ ' ' :: t)) := trivia_here (nameStart_mark hc)
      rw [hskip]
      exact fun h => nameStart_ne hc (by decide) (by decide) (by decide) (Option.some.inj h)
    obtain ⟨c, cs, hskip, hc⟩ := names_skip vs hrest r
    rw [ht] at hskip
    have hangle : (skipWsAndComments (' ' :: t)).2.head? ≠ some '<' := by
      rw [hskip]
      intro h
      have hc' : c = '<' := Option.some.inj h
      rcases hc with hc | hc
      · exact absurd (hc'.symm.trans hc) (by decide)
      · exact nameStart_ne hc (by decide) (by decide) (by decide) hc'
    have hturn : ivarTurn u vars s = (.inl (vars ++ [v]), (skipWsAndComments (' ' :: t)).2) := by
      rw [ivarTurn_eq, if_neg hbar, hread]
      dsimp only
      rw [skipType_eq _ hangle]
    rw [Scan.loop_next _ hturn, ih (vars ++ [v]) _ hrest ?_, append_assoc, singleton_append]
    rw [trivia_again, ht]

theorem readItem_vars {className cs r names : List Char} (h : tryReadIvarList u ('|' :: cs) = (some names, r)) :
    readItem u className ('|' :: cs) = (.vars names, r) := by
  unfold readItem
  rw [Scan.bind_apply]
  have hpeek : (peek : Scan Char _) ('|' :: cs) = (some '|', '|' :: cs) := rfl
  rw [hpeek]
  dsimp only
  have hend : ('|' : Char) ≠ ']' := by decide
  have hgiven : Scan.given (('|' : Char) = '|') (tryReadIvarList u) none = tryReadIvarList u := if_pos rfl
  rw [if_neg hend, Scan.bind_apply, hgiven, h]
  rfl

theorem readItem_pragma {className cs : List Char} (h : (peekIsClassPragma u ('<' :: cs)).1 = true) :
    readItem u className ('<' :: cs) = (.pragma (readAnglePragma ('<' :: cs)).1, (readAnglePragma ('<' :: cs)).2) := by
  unfold readItem
  rw [Scan.bind_apply]
  have hpeek : (peek : Scan Char _) ('<' :: cs) = (some '<', '<' :: cs) := rfl
  rw [hpeek]
  dsimp only
  have hend : ('<' : Char) ≠ ']' := by decide
  have hbar : ('<' : Char) ≠ '|' := by decide
  have hvars : Scan.given (('<' : Char) = '|') (tryReadIvarList u) none = pure none := if_neg hbar
  have hgiven : Scan.given (('<' : Char) = '<') (peekIsClassPragma u) false = peekIsClassPragma u := if_pos rfl
  have hpragma : peekIsClassPragma u ('<' :: cs) = (true, '<' :: cs) := Prod.ext h rfl
  rw [if_neg hend, Scan.bind_apply, hvars, Scan.pure_apply]
  dsimp only
  rw [Scan.bind_apply, hgiven, hpragma]
  rfl

theorem readItem_end (className cs : List Char) : readItem u className (']' :: cs) = (.ended, cs) := rfl

theorem blank_line : Blank "\n    ".toList := by decide

/-- The line of the instance variables, written only if there are any. -/
def varLine (instanceVars : List Char) : List Char :=
  if trim instanceVars = [] then [] else "    | ".toList ++ trim instanceVars ++ " |\n".toList

def pragmaLine (classVars : List Char) : List Char :=
  if trim classVars = [] then [] else "    <classVars: ".toList ++ trim classVars ++ ">\n".toList

theorem name_last {n : List Char} (h : IsName u n) : ∃ x c, n = x ++ [c] ∧ isWhitespace c = false := by
  obtain ⟨c, cs, rfl, hc, hcs⟩ := h
  obtain ⟨x, d, hx⟩ := (eq_nil_or_concat (c :: cs)).resolve_left (cons_ne_nil c cs)
  rw [concat_eq_append] at hx
  refine ⟨x, d, hx, ?_⟩
  have hd : d ∈ c :: cs := by
    rw [hx]
    exact mem_append_right _ (mem_singleton_self d)
  have hcont : isNameCont u d = true := by
    rcases mem_cons.mp hd with rfl | hd
    · exact isNameStart_cont hc
    · exact hcs d hd
  by_contra hw
  rw [isNameCont_whitespace (Bool.eq_true_of_not_eq_false hw)] at hcont
  cases hcont

theorem names_last (hv : ∀ n ∈ v :: vs, IsName u n) :
    ∃ x c, [' '].intercalate (v :: vs) = x ++ [c] ∧ isWhitespace c = false := by
  induction vs generalizing v with
  | nil =>
    obtain ⟨x, c, hx, hc⟩ := name_last (hv v mem_cons_self)
    exact ⟨x, c, by rw [intercalate_singleton, hx], hc⟩
  | cons w vs ih =>
    obtain ⟨x, c, hx, hc⟩ := ih w fun n hn => hv n (mem_cons_of_mem v hn)
    exact ⟨v ++ [' '] ++ x, c, by rw [intercalate_cons_cons, hx, append_assoc _ x], hc⟩

theorem trim_id {x : List Char} {c d : Char} {cs : List Char} (hhead : x = c :: cs) (hc : isWhitespace c = false)
    {y : List Char} (hlast : x = y ++ [d]) (hd : isWhitespace d = false) : trim x = x := by
  unfold trim trimEnd
  have hdrop : x.dropWhile isWhitespace = x := by
    rw [hhead]
    exact dropWhile_cons_of_neg (by rw [hc]; exact Bool.false_ne_true)
  rw [hdrop, hlast]
  exact rdropWhile_concat_neg _ _ _ (by rw [hd]; exact Bool.false_ne_true)

theorem names_trim (hv : ∀ n ∈ v :: vs, IsName u n) :
    trim ([' '].intercalate (v :: vs)) = [' '].intercalate (v :: vs) := by
  obtain ⟨x, d, hlast, hd⟩ := names_last v vs hv
  obtain ⟨c, cs, rfl, hc, _⟩ := hv v mem_cons_self
  exact trim_id (intercalate_cons_cons_left) (nameStart_mark hc).1 hlast hd

theorem readBody_vars (hvs : ∀ v ∈ vs, IsName u v) (b : ClassBody) (hb : b.instanceVars = []) (s : List Char) :
    loop (itemTurn u className) (itemTurn_progress className) b ('\n' :: (varLine ([' '].intercalate vs) ++ s)) =
      loop (itemTurn u className) (itemTurn_progress className) { b with instanceVars := [' '].intercalate vs }
        ('\n' :: s) := by
  cases vs with
  | nil =>
    obtain ⟨instanceVars, classVars, methods⟩ := b
    cases hb
    rfl
  | cons v vs =>
    have hne : [' '].intercalate (v :: vs) ≠ [] := by
      obtain ⟨x, c, hx, _⟩ := names_last v vs hvs
      rw [hx]
      exact append_ne_nil_of_right_ne_nil _ (cons_ne_nil _ _)
    have htext : '\n' :: (varLine ([' '].intercalate (v :: vs)) ++ s) =
        "\n    ".toList ++ '|' :: (spacedNames (v :: vs) ++ ' ' :: '|' :: '\n' :: s) := by
      unfold varLine
      rw [names_trim v vs hvs, if_neg hne, names_join]
      simp [append_assoc]
    have hlist : tryReadIvarList u ('|' :: (spacedNames (v :: vs) ++ ' ' :: '|' :: '\n' :: s)) =
        (some ([' '].intercalate (v :: vs)), '\n' :: s) := by
      have hloop := ivarLoop_text (u := u) ('\n' :: s) (v :: vs) [] _ hvs rfl
      rw [tryReadIvarList_eq]
      have hinner : ivarList u ('|' :: (spacedNames (v :: vs) ++ ' ' :: '|' :: '\n' :: s)) =
        (some ([' '].intercalate (v :: vs)), '\n' :: s) := hloop
      unfold attempt
      rw [hinner]
    have hturn : itemTurn u className b ('\n' :: (varLine ([' '].intercalate (v :: vs)) ++ s)) =
        (.inl { b with instanceVars := [' '].intercalate (v :: vs) }, '\n' :: s) := by
      rw [itemTurn_eq, htext, skip_to blank_line bar_mark, readItem_vars hlist]
      rfl
    exact Scan.loop_next _ hturn

theorem readAnglePragma_text {inner s : List Char} (h : '>' ∉ inner) :
    readAnglePragma ('<' :: (inner ++ '>' :: s)) = (inner, s) := by
  have hall : ∀ c ∈ inner, decide (c ≠ '>') = true := fun c hc => decide_eq_true fun he => h (he ▸ hc)
  have hangle : ¬ decide ('>' ≠ '>') = true := by decide
  have hread : readAnglePragma ('<' :: (inner ++ '>' :: s)) = ((inner ++ '>' :: s).takeWhile (· ≠ '>'),
    ((inner ++ '>' :: s).dropWhile (· ≠ '>')).tail) := rfl
  rw [hread, takeWhile_append_of_pos hall, dropWhile_append_of_pos hall,
    takeWhile_cons_of_neg (p := fun c => decide (c ≠ '>')) hangle,
    dropWhile_cons_of_neg (p := fun c => decide (c ≠ '>')) hangle, append_nil]
  rfl

theorem isName_of_ascii {t : List Char} (hc : c.toNat < 128 ∧ c.isAlpha = true)
    (hall : (t.all fun d => decide (d.toNat < 128 ∧ d.isAlphanum = true)) = true) : IsName u (c :: t) := by
  have ht : ∀ d ∈ t, d.toNat < 128 ∧ d.isAlphanum = true := fun d hd => of_decide_eq_true (all_eq_true.mp hall d hd)
  refine ⟨c, t, rfl, ?_, fun d hd => ?_⟩
  · unfold isNameStart
    rw [u.ascii_alphabetic c hc.1, hc.2]
    rfl
  · unfold isNameCont
    rw [u.ascii_alphanumeric d (ht d hd).1, (ht d hd).2]
    rfl

theorem isName_classVars : IsName u "classVars".toList := isName_of_ascii (t := "lassVars".toList) (by decide) rfl

theorem isName_Object : IsName u "Object".toList := isName_of_ascii (t := "bject".toList) (by decide) rfl

theorem angle_mark : Mark '<' := ⟨by decide, by decide⟩

theorem classPragma_text : (peekIsClassPragma u ('<' :: ("classVars".toList ++ ':' :: s))).1 = true := by
  have hname : readIdentifier u ("classVars".toList ++ ':' :: s) = (some "classVars".toList, ':' :: s) :=
    readIdentifier_name (w := []) (by decide) isName_classVars (isNameCont_ascii (by decide) (by decide) (by decide))
  have hcolon : skipWsAndComments (':' :: s) = ((), ':' :: s) := trivia_here ⟨by decide, by decide⟩
  have hpragma : (pragmaName u ('<' :: ("classVars".toList ++ ':' :: s))).1 = true := by
    rw [pragmaName_eq, hname]
    dsimp only
    rw [hcolon]
    rfl
  exact hpragma

theorem readBody_pragma (hcv : '>' ∉ classVars) (b : ClassBody) (s : List Char) :
    ∃ cv, loop (itemTurn u className) (itemTurn_progress className) b ('\n' :: (pragmaLine classVars ++ s)) =
      loop (itemTurn u className) (itemTurn_progress className) { b with classVars := cv } ('\n' :: s) := by
  unfold pragmaLine
  split
  next => exact ⟨b.classVars, rfl⟩
  next =>
    have hinner : '>' ∉ "classVars: ".toList ++ trim classVars := by
      rw [mem_append]
      rintro (h | h)
      · exact absurd h (by decide)
      · exact hcv ((dropWhile_suffix _).subset (( rdropWhile_prefix _ _).subset h))
    have htext : '\n' :: ("    <classVars: ".toList ++ trim classVars ++ ">\n".toList ++ s) =
        "\n    ".toList ++ '<' :: ("classVars: ".toList ++ trim classVars ++ '>' :: '\n' :: s) := by
      simp [append_assoc]
    have hpragma : (peekIsClassPragma u
        ('<' :: ("classVars: ".toList ++ trim classVars ++ '>' :: '\n' :: s))).1 = true := by
      have h := classPragma_text (u := u) (' ' :: (trim classVars ++ '>' :: '\n' :: s))
      rw [append_assoc]
      exact h
    have hturn : itemTurn u className b ('\n' :: ("    <classVars: ".toList ++ trim classVars ++ ">\n".toList ++ s)) =
        (b.add (.pragma ("classVars: ".toList ++ trim classVars)), '\n' :: s) := by
      rw [itemTurn_eq, htext, skip_to blank_line angle_mark, readItem_pragma hpragma, readAnglePragma_text hinner]
    have hadd : ∃ cv, b.add (.pragma ("classVars: ".toList ++ trim classVars)) = .inl { b with classVars := cv } := by
      unfold ClassBody.add
      dsimp only
      split
      next => exact ⟨_, rfl⟩
      next => exact ⟨b.classVars, rfl⟩
    obtain ⟨cv, hadd⟩ := hadd
    rw [hadd] at hturn
    exact ⟨cv, Scan.loop_next _ hturn⟩

def WholeMethod (u : CharClass) (className : List Char) (m : ParsedMethod) : Prop :=
  itemTurn u className .empty (m.source ++ ['\n']) = (.inl ⟨[], [], [m]⟩, ['\n'])

theorem trim_length (x : List Char) : (trim x).length ≤ x.length :=
  Nat.le_trans ( rdropWhile_prefix _ _).length_le (dropWhile_suffix _).length_le

theorem readItem_source {className x t : List Char} {m : ParsedMethod}
    (h : readItem u className (x ++ t) = (.method m, t)) : m.source = trim x := by
  have hm : readMethod u className (x ++ t) = (some m, t) := by
    cases hxt : x ++ t with
    | nil =>
      rw [hxt] at h
      cases h
    | cons c cs =>
      rw [hxt] at h
      rcases readItem_cases h with ⟨_, hi, _⟩ | ⟨_, _, _, hi⟩ | ⟨_, _, _, _, hi⟩ | ⟨_, _, _, ⟨m', hm, hi⟩ | ⟨_, hi⟩⟩
      · cases hi
      · cases hi
      · cases hi
      · cases hi
        exact hm
      · cases hi
  have hsource := (readMethod_cases hm).2
  rw [length_append, Nat.add_sub_cancel, take_left] at hsource
  exact hsource

theorem add_method {item : Item} {m : ParsedMethod} {ivars cvars : List Char}
    (h : b.add item = .inl ⟨ivars, cvars, b.methods ++ [m]⟩) : item = .method m := by
  have hne : b.methods ≠ b.methods ++ [m] := fun he => by
    have := congrArg List.length he
    rw [length_append, length_singleton] at this
    omega
  cases item with
  | ended => cases h
  | vars names => exact absurd (congrArg ClassBody.methods (Sum.inl.inj h)) hne
  | pragma inner =>
    unfold ClassBody.add at h
    dsimp only at h
    split at h
    next => exact absurd (congrArg ClassBody.methods (Sum.inl.inj h)) hne
    next => exact absurd (congrArg ClassBody.methods (Sum.inl.inj h)) hne
  | method m' =>
    have hm := append_cancel_left (congrArg ClassBody.methods (Sum.inl.inj h))
    rw [(List.cons.inj hm).1]
  | stuck => cases h

namespace WholeMethod

variable {className : List Char} {m : ParsedMethod}

theorem item (h : WholeMethod u className m) : skipWsAndComments (m.source ++ ['\n']) = ((), m.source ++ ['\n']) ∧
    readItem u className (m.source ++ ['\n']) = (.method m, ['\n']) ∧ m.source = trim m.source := by
  unfold WholeMethod at h
  rw [itemTurn_eq] at h
  have hsuf := skipWsAndComments_steady.suffix (m.source ++ ['\n'])
  generalize hw : (skipWsAndComments (m.source ++ ['\n'])).2 = w at h hsuf
  obtain ⟨hadd, hrest⟩ := Prod.mk.inj h
  have hitem := add_method (b := .empty) hadd
  have hread : readItem u className w = (.method m, ['\n']) := Prod.ext hitem hrest
  have hsuf' := readItem_trims (u := u) className w
  rw [hread] at hsuf'
  obtain ⟨x, rfl⟩ := hsuf'
  have hx := suffix_append_self_iff.mp hsuf
  have hsource := readItem_source hread
  have hlen := trim_length x
  rw [← hsource] at hlen
  have hx := hx.eq_of_length_le hlen
  subst hx
  exact ⟨Prod.ext rfl hw, hread, hsource⟩

theorem reads (h : WholeMethod u className m) : Reads (readItem u className) m.source (.method m) [] :=
  readItem_reads h.item.2.1 (cons_ne_nil _ _)

theorem head (h : WholeMethod u className m) : ∃ c cs, m.source = c :: cs ∧ Mark c := by
  cases hs : m.source with
  | nil =>
    have hread := h.item.2.1
    rw [hs] at hread
    exact absurd (readItem_reads (x := []) hread (cons_ne_nil _ _) []) (fun h => by cases h)
  | cons c cs =>
    have hskip := h.item.1
    rw [hs] at hskip
    exact ⟨c, cs, rfl, trivia_mark (congrArg Prod.snd hskip)⟩

theorem trimEnd_source (h : WholeMethod u className m) : trimEnd m.source = m.source := by
  have hsource := h.item.2.2
  calc trimEnd m.source = trimEnd (trim m.source) := by rw [← hsource]
    _ = trim m.source := rdropWhile_idempotent _ _
    _ = m.source := hsource.symm

end WholeMethod

def methodLines (sources : List (List Char)) : List Char :=
  sources.flatMap fun src => "    ".toList ++ trimEnd src ++ ['\n']

theorem end_mark : Mark ']' := ⟨by decide, by decide⟩

theorem readBody_methods {className : List Char} (ms : List ParsedMethod) (hms : ∀ m ∈ ms, WholeMethod u className m) :
    ∀ b : ClassBody, loop (itemTurn u className) (itemTurn_progress className) b
      ('\n' :: (methodLines (ms.map ParsedMethod.source) ++ "]\n".toList)) =
        ({ b with methods := b.methods ++ ms }, ['\n']) := by
  induction ms with
  | nil =>
    intro b
    have hskip : skipWsAndComments ('\n' :: ']' :: ['\n']) = ((), ']' :: ['\n']) :=
      skip_to (w := ['\n']) (by decide) end_mark
    apply Scan.loop_done
    show itemTurn u className b ('\n' :: ']' :: ['\n']) = _
    rw [itemTurn_eq, hskip, readItem_end, append_nil]
    rfl
  | cons m ms ih =>
    intro b
    have hm := hms m mem_cons_self
    obtain ⟨c, cs, hsource, hc⟩ := hm.head
    have htext : '\n' :: (methodLines ((m :: ms).map ParsedMethod.source) ++ "]\n".toList) =
        "\n    ".toList ++ (m.source ++ '\n' :: (methodLines (ms.map ParsedMethod.source) ++ "]\n".toList)) := by
      unfold methodLines
      rw [map_cons, flatMap_cons, hm.trimEnd_source]
      simp [append_assoc]
    have hskip : skipWsAndComments ("\n    ".toList ++
        (m.source ++ '\n' :: (methodLines (ms.map ParsedMethod.source) ++ "]\n".toList))) =
          ((), m.source ++ '\n' :: (methodLines (ms.map ParsedMethod.source) ++ "]\n".toList)) := by
      rw [hsource]
      exact skip_to blank_line hc
    have hturn : itemTurn u className b ('\n' :: (methodLines ((m :: ms).map ParsedMethod.source) ++ "]\n".toList)) =
        (.inl { b with methods := b.methods ++ [m] },
          '\n' :: (methodLines (ms.map ParsedMethod.source) ++ "]\n".toList)) := by
      rw [itemTurn_eq, htext, hskip, hm.reads]
      rfl
    rw [Scan.loop_next _ hturn, ih (fun m hm => hms m (mem_cons_of_mem _ hm))]
    rw [append_assoc, singleton_append]

def classBody (instanceVars classVars methods : List Char) : List Char :=
  '\n' :: (varLine instanceVars ++ (pragmaLine classVars ++ methods))

theorem readBody_header (hvs : ∀ v ∈ vs, IsName u v)
    (hcv : '>' ∉ classVars) (s : List Char) : ∃ cv, readBody (u := u) className
      (classBody ([' '].intercalate vs) classVars s) =
        loop (itemTurn u className) (itemTurn_progress className) ⟨[' '].intercalate vs, cv, []⟩ ('\n' :: s) := by
  have hvars := readBody_vars className vs hvs .empty rfl (pragmaLine classVars ++ s)
  obtain ⟨cv, hpragma⟩ := readBody_pragma className hcv { ClassBody.empty with instanceVars := [' '].intercalate vs } s
  exact ⟨cv, hvars.trans hpragma⟩

structure ParsedClass.Named (u : CharClass) (p : ParsedClass) : Prop where
  name : IsName u p.name
  superclass : ∀ s, p.superclass = some s → IsName u s ∧ s ≠ "nil".toList
  instanceVars : ∃ vs, (∀ v ∈ vs, IsName u v) ∧ p.instanceVars = [' '].intercalate vs

theorem ivarLoop_names (vars : List (List Char)) (hv : ∀ v ∈ vars, IsName u v) (s : List Char) (names : List Char)
    (h : (loop (ivarTurn u) (ivarTurn_progress u) vars s).1 = some names) :
    ∃ vs, (∀ v ∈ vs, IsName u v) ∧ names = [' '].intercalate vs := by
  revert hv names
  refine Scan.loop_induct (ivarTurn_progress u) (P := fun vars s r => (∀ v ∈ vars, IsName u v) →
    ∀ names, r.1 = some names → ∃ vs, (∀ v ∈ vs, IsName u v) ∧ names = [' '].intercalate vs) ?_ ?_ vars s
  · intro vars s b s' hs hv names hb
    have hb : b = some names := hb
    subst hb
    rw [ivarTurn_eq] at hs
    split at hs
    next =>
      have hn := Sum.inr.inj (congrArg Prod.fst hs)
      exact ⟨vars, hv, (Option.some.inj hn).symm⟩
    next =>
      split at hs
      next => cases hs
      next => cases hs
  · intro vars s vars' s' r hs hr hv
    apply hr
    rw [ivarTurn_eq] at hs
    split at hs
    next => cases hs
    next =>
      split at hs
      next v t hn =>
        have hvars : vars ++ [v] = vars' := Sum.inl.inj (congrArg Prod.fst hs)
        subst hvars
        intro w hw
        rcases mem_append.mp hw with hw | hw
        · exact hv w hw
        · cases mem_singleton.mp hw
          exact readIdentifier_isName hn
      next => cases hs

def ClassBody.NamedVars (u : CharClass) (b : ClassBody) : Prop :=
  ∃ vs, (∀ v ∈ vs, IsName u v) ∧ b.instanceVars = [' '].intercalate vs

theorem add_named {className s r : List Char} {item : Item} (h : readItem u className s = (item, r))
    (hb : b.NamedVars u) : ∀ b', b.add item = .inl b' ∨ b.add item = .inr b' → b'.NamedVars u := by
  intro b' hadd
  cases item with
  | ended =>
    rcases hadd with hadd | hadd
    · cases hadd
    · cases hadd
      exact hb
  | stuck =>
    rcases hadd with hadd | hadd
    · cases hadd
    · cases hadd
      exact hb
  | method m =>
    rcases hadd with hadd | hadd
    · cases hadd
      exact hb
    · cases hadd
  | pragma inner =>
    unfold ClassBody.add at hadd
    dsimp only at hadd
    rcases hadd with hadd | hadd
    · split at hadd
      next => cases Sum.inl.inj hadd; exact hb
      next => cases Sum.inl.inj hadd; exact hb
    · split at hadd
      next => cases hadd
      next => cases hadd
  | vars names =>
    rcases hadd with hadd | hadd
    · cases Sum.inl.inj hadd
      cases s with
      | nil => cases h
      | cons c cs =>
        rcases readItem_cases h with ⟨_, hi, _⟩ | ⟨names', rfl, hl, hi⟩ | ⟨_, _, _, _, hi⟩ | ⟨_, _, _, ⟨_, _, hi⟩ | ⟨_, hi⟩⟩
        · cases hi
        · cases hi
          have hl := Scan.attempt_some (tryReadIvarList_eq (u := u) ▸ hl)
          exact ivarLoop_names [] (fun v hv => (nomatch hv)) cs _ (congrArg Prod.fst hl)
        · cases hi
        · cases hi
        · cases hi
    · cases hadd

theorem readBody_named (className s : List Char) : (readBody (u := u) className s).1.NamedVars u := by
  have hrun : ∀ b : ClassBody, b.NamedVars u →
      (loop (itemTurn u className) (itemTurn_progress className) b s).1.NamedVars u := by
    intro b
    refine Scan.loop_induct (itemTurn_progress className) (P := fun b _ r => b.NamedVars u → r.1.NamedVars u) ?_ ?_ b s
    · intro b s b' s' hs hb
      rw [itemTurn_eq] at hs
      exact add_named rfl hb b' (.inr (congrArg Prod.fst hs))
    · intro b s b' s' r hs hr hb
      rw [itemTurn_eq] at hs
      exact hr (add_named rfl hb b' (.inl (congrArg Prod.fst hs)))
  exact hrun .empty ⟨[], fun v hv => (nomatch hv), rfl⟩

theorem classRest_name {first superclass name s r : List Char}
    (h : classRest u first s = (some (superclass, name), r)) : superclass = first ∧ IsName u name := by
  unfold classRest at h
  rw [Scan.bind_apply] at h
  split at h
  next =>
    rw [Scan.bind_apply] at h
    cases hn : readIdentifier u (eatStr "subclass:".toList s).2 with
    | mk n w =>
      rw [hn] at h
      cases n with
      | none => cases h
      | some n =>
        dsimp only at h
        rw [Scan.bind_apply, Scan.bind_apply] at h
        split at h
        next =>
          obtain ⟨h₁, h₂⟩ := Prod.mk.inj (Option.some.inj (congrArg Prod.fst h))
          exact ⟨h₁.symm, h₂ ▸ readIdentifier_isName hn⟩
        next => cases h
  next => cases h

theorem parse_named (text : List Char) : ∀ p ∈ parseMstSource u text, p.Named u := by
  have hrun : ∀ f : FileSoFar, (∀ p ∈ f.classes, p.Named u) →
      ∀ p ∈ (loop (fileTurn u) fileTurn_progress f text).1, p.Named u := by
    intro f
    refine Scan.loop_induct fileTurn_progress (P := fun f _ r => (∀ p ∈ f.classes, p.Named u) → ∀ p ∈ r.1, p.Named u)
      ?_ ?_ f text
    · intro f s b s' hs hf
      rcases fileTurn_cases hs with h | ⟨_, h⟩ | ⟨_, _, _, _, _, _, _, _, h⟩
      · cases h
        exact hf
      · cases h
      · cases h
    · intro f s f' s' r hs hr hf
      apply hr
      rcases fileTurn_cases hs with h | ⟨_, h⟩ | ⟨first, superclass, name, s₁, s₂, w, hn, hrest, h⟩
      · cases h
      · cases h
        exact hf
      · cases h
        intro p hp
        rcases mem_append.mp hp with hp | hp
        · exact hf p hp
        · cases mem_singleton.mp hp
          obtain ⟨rfl, hname⟩ := classRest_name hrest
          refine ⟨hname, fun s hs => ?_, readBody_named name s₂⟩
          obtain ⟨hnil, hs⟩ := Option.ite_none_left_eq_some.mp hs
          cases hs
          exact ⟨readIdentifier_isName hn, hnil⟩
  exact hrun ⟨none, []⟩ fun p hp => (nomatch hp)

end WinArmVm.Mst
