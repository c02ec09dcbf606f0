import WinArmVm.TypeSound

namespace WinArmVm.Types

open List Option

open Frontend (isWhitespace)

variable {u : CharClass} {items : List (List Char × TypeExpr)} {e : TypeExpr} {v : List Char} {r : List Char} {t : List Char}
  {c : Char}

theorem skipWs_spaces (r : List Char) (hv : Spaces v) : skipWs (v ++ r) = skipWs r := by
  induction v with
  | nil => rfl
  | cons c v ih =>
    have hc := hv c (by simp)
    rw [cons_append, skipWs, if_pos hc.1, if_pos hc.2]
    exact ih fun d hd => hv d (mem_cons_of_mem c hd)

theorem skipWs_settled (hr : Settled r) : skipWs r = .ok ((), r) := by
  cases r with
  | nil => rfl
  | cons c r =>
    have hc := hr c rfl
    rw [skipWs, if_neg (by simp [hc])]

variable {ret : Option TypeExpr} {args : List TypeExpr} {n : Nat} {s r : List Char} {x t : List Char} {l : Level}

theorem peek_of_skipWs (h : skipWs s = .ok ((), r)) : peek s = .ok (r.head?, r) := by
  rw [peek, h]
  rfl

theorem peek_spaces (r : List Char) (hv : Spaces v) : peek (v ++ r) = peek r := by
  rw [peek, skipWs_spaces r hv]
  rfl

theorem expect_of_skipWs {want : Char} (h : skipWs s = .ok ((), want :: r)) : expect want s = .ok ((), r) := by
  rw [expect, peek_of_skipWs h]
  simp [bump, bind, Except.bind]

theorem settled_cons (hc : isWhitespace c = false) : Settled (c :: r) := by
  intro d hd
  cases some.inj hd
  exact hc

theorem peek_settled (hc : isWhitespace c = false) : peek (c :: r) = .ok (some c, c :: r) :=
  peek_of_skipWs (skipWs_settled (settled_cons hc))

theorem skipWs_to {w r : List Char} (hw : Spaces w) (hr : Settled r) : skipWs (w ++ r) = .ok ((), r) := by
  rw [skipWs_spaces r hw, skipWs_settled hr]

theorem not_whitespace_of_nameCont (h : isNameCont u c = true) : isWhitespace c = false := by
  by_contra hw
  rw [isNameCont_whitespace (by simpa using hw)] at h
  cases h

theorem not_nameCont (h : c.toNat < 128 ∧ c.isAlphanum = false ∧ c ≠ '_') : isNameCont u c = false :=
  isNameCont_ascii h.1 h.2.1 h.2.2

theorem IsName.first {n : List Char} (hn : IsName u n) :
    ∃ c n', n = c :: n' ∧ isWhitespace c = false ∧ ∀ d, isNameCont u d = false → c ≠ d := by
  obtain ⟨c, n', rfl, hc, -⟩ := hn
  have hcont := isNameStart_cont hc
  refine ⟨c, n', rfl, not_whitespace_of_nameCont hcont, ?_⟩
  rintro d hd rfl
  rw [hcont] at hd
  cases hd

theorem readIdent_name {n r : List Char} (hn : IsName u n) (hr : ∀ d, r.head? = some d → isNameCont u d = false) :
    readIdent u (n ++ r) = .ok (some n, r) := by
  obtain ⟨c, cs, rfl, hc, hcs⟩ := hn
  have hset : Settled (c :: (cs ++ r)) := settled_cons (not_whitespace_of_nameCont (isNameStart_cont hc))
  have htake : (cs ++ r).takeWhile (isNameCont u) = cs := by
    rw [takeWhile_append_of_pos hcs]
    cases r with
    | nil => simp
    | cons d r => simp [hr d rfl]
  have hdrop : (cs ++ r).dropWhile (isNameCont u) = r := by
    rw [dropWhile_append_of_pos hcs]
    cases r with
    | nil => simp
    | cons d r => simp [hr d rfl]
  rw [readIdent, cons_append, skipWs_settled hset]
  change (if isNameStart u c then _ else _) = _
  rw [if_pos hc, htake, hdrop]

theorem parseAtom_spaces (n : Nat) (s : List Char) (hv : Spaces v) : parseAtom u n (v ++ s) = parseAtom u n s := by
  cases n with
  | zero => rw [parseAtom, parseAtom]
  | succ n => rw [parseAtom, parseAtom, peek_spaces s hv]

theorem parseUnion_spaces (n : Nat) (s : List Char) (hv : Spaces v) : parseUnion u n (v ++ s) = parseUnion u n s := by
  cases n with
  | zero => rw [parseUnion, parseUnion]
  | succ n => rw [parseUnion, parseUnion, parseAtom_spaces n s hv]

theorem parseTypeExpr_spaces (n : Nat) (s : List Char) (hv : Spaces v) :
    parseTypeExpr u n (v ++ s) = parseTypeExpr u n s := by
  cases n with
  | zero => rw [parseTypeExpr, parseTypeExpr]
  | succ n => rw [parseTypeExpr, parseTypeExpr, parseUnion_spaces n s hv]

def Clear (u : CharClass) (t r : List Char) : Prop :=
  ∀ c, t.getLast? = some c → isNameCont u c = true → ∀ d, r.head? = some d → isNameCont u d = false ∧ d ≠ '['

theorem Clear.of_after {x t r : List Char} (hne : t ≠ []) (h : Clear u (x ++ t) r) : Clear u t r := by
  rcases eq_nil_or_concat t with rfl | ⟨t, c, rfl⟩
  · exact absurd rfl hne
  · rw [Clear, concat_eq_append, ← append_assoc, getLast?_concat] at h
    rw [Clear, concat_eq_append, getLast?_concat]
    exact h

theorem clear_of_head {t r : List Char} (h : ∀ d, r.head? = some d → isNameCont u d = false ∧ d ≠ '[') : Clear u t r :=
  fun _ _ _ => h

def Ender (r : List Char) : Prop := ∀ d, r.head? = some d → d = ',' ∨ d = ']'

theorem Ender.comma : Ender (',' :: r) := by
  intro d hd
  exact .inl (some.inj hd).symm

theorem Ender.bracket : Ender (']' :: r) := by
  intro d hd
  exact .inr (some.inj hd).symm

theorem Ender.head {r : List Char} (h : Ender r) {d : Char} (hd : r.head? = some d) :
    isWhitespace d = false ∧ isNameCont u d = false ∧ d ≠ '[' ∧ d ≠ '|' := by
  rcases h d hd with rfl | rfl
  · exact ⟨by decide, not_nameCont (by decide), by decide, by decide⟩
  · exact ⟨by decide, not_nameCont (by decide), by decide, by decide⟩

theorem Ender.settled (h : Ender r) : Settled r := fun _ hd => (h.head (u := asciiClass) hd).1

def Completes (u : CharClass) : Level → List Char → TypeExpr → Prop
  | .atom, t, e => ∀ n r, 5 * t.length + 1 ≤ n → Settled r → Clear u t r →
      ∃ r', parseAtom u n (t ++ r) = .ok (e, r') ∧ skipWs r' = .ok ((), r)
  | .union, t, e => ∀ n r, 5 * t.length + 2 ≤ n → Settled r → Clear u t r → r.head? ≠ some '|' →
      parseUnion u n (t ++ r) = .ok (e, r)
  | .whole, t, e => ∀ n r, 5 * t.length + 3 ≤ n → Ender r →
      ∃ r', parseTypeExpr u n (t ++ r) = .ok (e, r') ∧ skipWs r' = .ok ((), r)

theorem Reads.starts (h : Reads u l t e) :
    ∃ v c t', t = v ++ c :: t' ∧ Spaces v ∧ isWhitespace c = false ∧ c ≠ '^' ∧ c ≠ ']' := by
  induction h with
  | @name v n w hv hn hw =>
    obtain ⟨c, n', rfl, hc, hne⟩ := hn.first
    exact ⟨v, c, n' ++ w, by simp, hv, hc, hne _ (not_nameCont (by decide)), hne _ (not_nameCont (by decide))⟩
  | @generic v n w items hv hn =>
    obtain ⟨c, n', rfl, hc, hne⟩ := hn.first
    exact ⟨v, c, _, by rw [cons_append], hv, hc, hne _ (not_nameCont (by decide)), hne _ (not_nameCont (by decide))⟩
  | blockEmpty hv => exact ⟨_, '[', _, rfl, hv, by decide, by decide, by decide⟩
  | blockArgs hv => exact ⟨_, '[', _, rfl, hv, by decide, by decide, by decide⟩
  | blockReturn hv => exact ⟨_, '[', _, rfl, hv, by decide, by decide, by decide⟩
  | single _ ih => exact ih
  | @variants items hl _ ih =>
    cases items with
    | nil => simp at hl
    | cons i items =>
      obtain ⟨v, c, t', ht, hc⟩ := ih i (by simp)
      exact ⟨v, c, t' ++ joinedRest '|' (items.map (·.1)), by simp [joined, ht], hc⟩
  | plain _ ih => exact ih
  | @inferenceDef t w e _ _ _ ih =>
    obtain ⟨v, c, t', ht, hc⟩ := ih
    exact ⟨v, c, t' ++ ['d', 'e', 'f'] ++ w, by simp [ht], hc⟩

theorem name_complete {v n w : List Char} (hv : Spaces v) (hn : IsName u n) (hw : Spaces w) :
    Completes u .atom (v ++ (n ++ w)) (.named (String.ofList n)) := by
  intro k r hk hset hclear
  cases k with
  | zero => omega
  | succ k =>
    have hhead : ∀ d, (w ++ r).head? = some d → isNameCont u d = false ∧ d ≠ '[' := by
      intro d hd
      cases w with
      | nil =>
        obtain ⟨c, cs, rfl, hc, hcs⟩ := hn
        have hall : ∀ x ∈ c :: cs, isNameCont u x = true := by
          intro x hx
          rcases mem_cons.mp hx with rfl | hx
          · exact isNameStart_cont hc
          · exact hcs x hx
        rw [append_nil] at hclear
        have hclear' := Clear.of_after (by simp) hclear
        have hl := getLast?_eq_some_getLast (l := c :: cs) (by simp)
        exact hclear' _ hl (hall _ (getLast_mem _)) d hd
      | cons x w =>
        have hx := hw d (by simp [some.inj hd])
        refine ⟨isNameCont_whitespace hx.1, ?_⟩
        rintro rfl
        exact absurd hx.1 (by decide)
    have hpeek : ∃ c, peek (n ++ (w ++ r)) = .ok (some c, n ++ (w ++ r)) ∧ c ≠ '[' := by
      obtain ⟨c, cs, rfl, hc, hne⟩ := hn.first
      exact ⟨c, peek_settled hc, hne '[' (not_nameCont (by decide))⟩
    obtain ⟨c, hpeek, hc⟩ := hpeek
    refine ⟨w ++ r, ?_, ?_⟩
    · rw [append_assoc, append_assoc, parseAtom_spaces (k + 1) _ hv, parseAtom, hpeek]
      change (if some c = some '[' then _ else _) = _
      rw [if_neg (by simpa using hc), readIdent_name hn fun d hd => (hhead d hd).1]
      change (if (w ++ r).head? = some '[' then _ else _) = _
      rw [if_neg]
      intro hd
      exact (hhead '[' hd).2 rfl
    · exact skipWs_to hw hset

theorem variants_complete (items : List (List Char × TypeExpr))
    (hi : ∀ i ∈ items, Reads u .atom i.1 i.2 ∧ Completes u .atom i.1 i.2) (acc : List TypeExpr) (n : Nat)
    (s r : List Char) (hn : 5 * (joinedRest '|' (items.map (·.1))).length + 1 ≤ n)
    (hs : skipWs s = .ok ((), joinedRest '|' (items.map (·.1)) ++ r)) (hset : Settled r)
    (hclear : Clear u (joinedRest '|' (items.map (·.1))) r) (hbar : r.head? ≠ some '|') :
    parseVariants u n acc s = .ok (acc ++ items.map (·.2), r) := by
  induction items generalizing acc n s with
  | nil =>
    cases n with
    | zero => simp at hn
    | succ n =>
      simp only [map_nil, joinedRest, nil_append] at hs
      rw [parseVariants, peek_of_skipWs hs]
      change (if r.head? = some '|' then _ else _) = _
      rw [if_neg hbar]
      simp
  | cons i items ih =>
    obtain ⟨hread, hcomp⟩ := hi i (by simp)
    simp only [map_cons, joinedRest, length_cons, length_append] at hn hs
    cases n with
    | zero => omega
    | succ n =>
      have hne : i.1 ≠ [] := by
        intro hnil
        have := hread.length_pos
        rw [hnil] at this
        simp at this
      rw [map_cons, joinedRest] at hclear
      have hset' : Settled (joinedRest '|' (items.map (·.1)) ++ r) := by
        cases items with
        | nil => exact hset
        | cons j items => exact settled_cons (by decide)
      have hclear' : Clear u i.1 (joinedRest '|' (items.map (·.1)) ++ r) := by
        cases items with
        | nil =>
          simp only [map_nil, joinedRest, append_nil] at hclear
          exact Clear.of_after (x := ['|']) hne hclear
        | cons j items =>
          apply clear_of_head
          intro d hd
          cases some.inj hd
          exact ⟨not_nameCont (by decide), by decide⟩
      obtain ⟨r', hatom, hr'⟩ := hcomp n (joinedRest '|' (items.map (·.1)) ++ r) (by omega) hset' hclear'
      rw [parseVariants, peek_of_skipWs hs]
      change (parseAtom u n (i.1 ++ joinedRest '|' (items.map (·.1)) ++ r) >>= _) = _
      rw [append_assoc, hatom]
      change parseVariants u n (acc ++ [i.2]) r' = _
      rw [ih (fun j hj => hi j (mem_cons_of_mem i hj)) (acc ++ [i.2]) n r' (by omega) hr']
      · simp
      · cases items with
        | nil => simp [Clear, joinedRest]
        | cons j items =>
          have : Clear u (('|' :: i.1) ++ joinedRest '|' ((j :: items).map (·.1))) r := by simpa using hclear
          exact this.of_after (by simp [joinedRest])

theorem args_complete (items : List (List Char × TypeExpr)) (hne : items ≠ [])
    (hi : ∀ i ∈ items, Completes u .whole i.1 i.2) (acc : List TypeExpr) (n : Nat) (r : List Char)
    (hn : 5 * (joined ',' (items.map (·.1))).length + 4 ≤ n) :
    parseArgs u n acc (joined ',' (items.map (·.1)) ++ ']' :: r) = .ok (acc ++ items.map (·.2), ']' :: r) := by
  induction items generalizing acc n with
  | nil => exact absurd rfl hne
  | cons i items ih =>
    cases n with
    | zero => omega
    | succ n =>
      rw [parseArgs]
      simp only [map_cons, joined, length_append] at hn
      cases items with
      | nil =>
        obtain ⟨r', he, hr'⟩ := hi i (by simp) n (']' :: r) (by omega) Ender.bracket
        simp only [map_cons, map_nil, joined, joinedRest, append_nil]
        rw [he]
        change (peek r' >>= _) = _
        rw [peek_of_skipWs hr']
        rfl
      | cons j items =>
        simp only [map_cons, joinedRest, length_cons, length_append] at hn
        obtain ⟨r', he, hr'⟩ := hi i (by simp) n (',' :: (joined ',' ((j :: items).map (·.1)) ++ ']' :: r)) (by omega)
          Ender.comma
        have hrest := ih (by simp) (fun k hk => hi k (mem_cons_of_mem i hk)) (acc ++ [i.2]) n (by
          simp only [map_cons, joined, length_append]
          omega)
        have htext : joined ',' ((i :: j :: items).map (·.1)) ++ ']' :: r =
            i.1 ++ ',' :: (joined ',' ((j :: items).map (·.1)) ++ ']' :: r) := by simp [joined, joinedRest]
        rw [htext, he]
        change (peek r' >>= _) = _
        rw [peek_of_skipWs hr']
        change parseArgs u n (acc ++ [i.2]) (joined ',' ((j :: items).map (·.1)) ++ ']' :: r) = _
        rw [hrest]
        simp

theorem parts_arg {acc : List TypeExpr} {t r : List Char} (hread : Reads u .whole t e)
    (hcomp : Completes u .whole t e) (hn : 5 * t.length + 3 ≤ n) (hr : Ender r) :
    parseBlockParts u (n + 1) acc (t ++ r) =
      if r.head? = some ',' then parseBlockParts u n (acc ++ [e]) (bump r) else .ok ((acc ++ [e], none), r) := by
  obtain ⟨v, c, t', ht, hv, hc, hcaret, _⟩ := hread.starts
  obtain ⟨r', he, hr'⟩ := hcomp n r hn hr
  rw [ht, append_assoc, parseTypeExpr_spaces n _ hv] at he
  rw [parseBlockParts, ht, append_assoc, peek_spaces _ hv, cons_append, peek_settled hc]
  change (if some c = some '^' then _ else _) = _
  rw [if_neg (by simpa using hcaret), ← cons_append, he]
  change (peek r' >>= _) = _
  rw [peek_of_skipWs hr']
  rfl

theorem parts_complete_none (items : List (List Char × TypeExpr)) (hne : items ≠ [])
    (hi : ∀ i ∈ items, Reads u .whole i.1 i.2 ∧ Completes u .whole i.1 i.2) (acc : List TypeExpr) (n : Nat)
    (r : List Char) (hn : 5 * (joined ',' (items.map (·.1))).length + 4 ≤ n) :
    parseBlockParts u n acc (joined ',' (items.map (·.1)) ++ ']' :: r) =
      .ok ((acc ++ items.map (·.2), none), ']' :: r) := by
  induction items generalizing acc n with
  | nil => exact absurd rfl hne
  | cons i items ih =>
    cases n with
    | zero => omega
    | succ n =>
      obtain ⟨hread, hcomp⟩ := hi i (by simp)
      simp only [map_cons, joined, length_append] at hn
      cases items with
      | nil =>
        simp only [map_cons, map_nil, joined, joinedRest, append_nil]
        rw [parts_arg hread hcomp (by omega) Ender.bracket]
        simp
      | cons j items =>
        simp only [map_cons, joinedRest, length_cons, length_append] at hn
        have hrest := ih (by simp) (fun k hk => hi k (mem_cons_of_mem i hk)) (acc ++ [i.2]) n (by
          simp only [map_cons, joined, length_append]
          omega)
        have htext : joined ',' ((i :: j :: items).map (·.1)) ++ ']' :: r =
            i.1 ++ ',' :: (joined ',' ((j :: items).map (·.1)) ++ ']' :: r) := by simp [joined, joinedRest]
        rw [htext, parts_arg hread hcomp (by omega) Ender.comma]
        change (if some ',' = some ',' then
          parseBlockParts u n (acc ++ [i.2]) (joined ',' ((j :: items).map (·.1)) ++ ']' :: r) else _) = _
        rw [if_pos rfl, hrest]
        simp

theorem parts_complete_some (items : List (List Char × TypeExpr))
    (hi : ∀ i ∈ items, Reads u .whole i.1 i.2 ∧ Completes u .whole i.1 i.2)
    (hx : Spaces x) (hcomp : Completes u .whole t e) (acc : List TypeExpr) (n : Nat) (r : List Char)
    (hn : 5 * (commaed (items.map (·.1)) ++ (x ++ '^' :: t)).length + 4 ≤ n) :
    ∃ r', parseBlockParts u n acc (commaed (items.map (·.1)) ++ (x ++ '^' :: t) ++ ']' :: r) =
      .ok ((acc ++ items.map (·.2), some e), r') ∧ skipWs r' = .ok ((), ']' :: r) := by
  induction items generalizing acc n with
  | nil =>
    simp only [map_nil, commaed, nil_append, length_append, length_cons] at hn
    cases n with
    | zero => omega
    | succ n =>
      obtain ⟨r', he, hr'⟩ := hcomp n (']' :: r) (by omega) Ender.bracket
      refine ⟨r', ?_, hr'⟩
      simp only [map_nil, commaed, nil_append, append_assoc, cons_append, append_nil]
      rw [parseBlockParts, peek_spaces _ hx, peek_settled (by decide)]
      change (parseTypeExpr u n (t ++ ']' :: r) >>= _) = _
      rw [he]
      rfl
  | cons i items ih =>
    simp only [map_cons, commaed, append_assoc, cons_append, length_append, length_cons] at hn
    cases n with
    | zero => omega
    | succ n =>
      obtain ⟨hread, hcomp'⟩ := hi i (by simp)
      obtain ⟨r', he, hr'⟩ := ih (fun k hk => hi k (mem_cons_of_mem i hk)) (acc ++ [i.2]) n (by
        simp only [length_append, length_cons]
        omega)
      refine ⟨r', ?_, hr'⟩
      have htext : commaed ((i :: items).map (·.1)) ++ (x ++ '^' :: t) ++ ']' :: r =
          i.1 ++ ',' :: (commaed (items.map (·.1)) ++ (x ++ '^' :: t) ++ ']' :: r) := by simp [commaed]
      rw [htext, parts_arg hread hcomp' (by omega) Ender.comma]
      change (if some ',' = some ',' then
        parseBlockParts u n (acc ++ [i.2]) (commaed (items.map (·.1)) ++ (x ++ '^' :: t) ++ ']' :: r) else _) = _
      rw [if_pos rfl, he]
      simp

theorem parseArgs_spaces (n : Nat) (acc : List TypeExpr) (s : List Char) (hv : Spaces v) :
    parseArgs u n acc (v ++ s) = parseArgs u n acc s := by
  cases n with
  | zero => rw [parseArgs, parseArgs]
  | succ n => rw [parseArgs, parseArgs, parseTypeExpr_spaces n s hv]

theorem parseBlockParts_spaces (n : Nat) (acc : List TypeExpr) (s : List Char) (hv : Spaces v) :
    parseBlockParts u n acc (v ++ s) = parseBlockParts u n acc s := by
  cases n with
  | zero => rw [parseBlockParts, parseBlockParts]
  | succ n => rw [parseBlockParts, parseBlockParts, peek_spaces s hv]

theorem body_of_parts {v t r r' : List Char} (hv : Spaces v) (hc : isWhitespace c = false) (hclose : c ≠ ']')
    (hparts : parseBlockParts u n [] (v ++ c :: t) = .ok ((args, ret), r')) (hr' : skipWs r' = .ok ((), ']' :: r)) :
    parseBlockBody u (n + 1) (v ++ c :: t) = .ok (.block args ret, r) := by
  rw [parseBlockParts_spaces n _ _ hv] at hparts
  rw [parseBlockBody, peek_spaces _ hv, peek_settled hc]
  change (if some c = some ']' then _ else _) = _
  rw [if_neg (by simpa using hclose), hparts]
  change (expect ']' r' >>= _) = _
  rw [expect_of_skipWs hr']
  rfl

theorem atom_of_body {v s r w : List Char} (hv : Spaces v) (hw : Spaces w) (hset : Settled r)
    (hbody : parseBlockBody u n s = .ok (e, w ++ r)) :
    ∃ r', parseAtom u (n + 1) (v ++ '[' :: s) = .ok (e, r') ∧ skipWs r' = .ok ((), r) := by
  refine ⟨w ++ r, ?_, skipWs_to hw hset⟩
  rw [parseAtom, peek_spaces _ hv, peek_settled (by decide)]
  exact hbody

theorem list_complete (hne : items ≠ [])
    (hi : ∀ i ∈ items, Reads u .whole i.1 i.2 ∧ Completes u .whole i.1 i.2) (n : Nat) (r : List Char)
    (hn : 5 * (joined ',' (items.map (·.1))).length + 5 ≤ n) :
    parseTypeList u n (joined ',' (items.map (·.1)) ++ ']' :: r) = .ok (items.map (·.2), ']' :: r) := by
  cases n with
  | zero => omega
  | succ n =>
    have hargs := args_complete items hne (fun i hm => (hi i hm).2) [] n r (by omega)
    cases items with
    | nil => exact absurd rfl hne
    | cons i items =>
      obtain ⟨v, c, t', ht, hv, hc, _, hclose⟩ := (hi i (by simp)).1.starts
      have htext : joined ',' ((i :: items).map (·.1)) ++ ']' :: r =
          v ++ c :: (t' ++ joinedRest ',' (items.map (·.1)) ++ ']' :: r) := by simp [joined, ht]
      rw [htext] at hargs ⊢
      rw [parseArgs_spaces n _ _ hv] at hargs
      rw [parseTypeList, peek_spaces _ hv, peek_settled hc]
      change (if some c = some ']' then _ else _) = _
      rw [if_neg (by simpa using hclose), hargs]
      rfl

theorem generic_complete {v m w : List Char} (hv : Spaces v) (hm : IsName u m)
    (hne : items ≠ []) (hi : ∀ i ∈ items, Reads u .whole i.1 i.2 ∧ Completes u .whole i.1 i.2) (hw : Spaces w) :
    Completes u .atom (v ++ (m ++ '[' :: (joined ',' (items.map (·.1)) ++ ']' :: w)))
      (.generic (String.ofList m) (items.map (·.2))) := by
  intro n r hn hset _
  simp only [length_append, length_cons] at hn
  cases n with
  | zero => omega
  | succ n =>
    refine ⟨w ++ r, ?_, skipWs_to hw hset⟩
    obtain ⟨c, m', hmc, hc, hne'⟩ := hm.first
    have hbr : c ≠ '[' := hne' '[' (not_nameCont (by decide))
    have hopen : ∀ s d, ('[' :: s : List Char).head? = some d → isNameCont u d = false := by
      intro s d hd
      cases some.inj hd
      exact not_nameCont (by decide)
    have hlist := list_complete hne hi n (w ++ r) (by omega)
    have hpeek : peek (m ++ '[' :: (joined ',' (items.map (·.1)) ++ ']' :: (w ++ r))) =
        .ok (some c, m ++ '[' :: (joined ',' (items.map (·.1)) ++ ']' :: (w ++ r))) := by
      rw [hmc]
      exact peek_settled hc
    have htext : v ++ (m ++ '[' :: (joined ',' (items.map (·.1)) ++ ']' :: w)) ++ r =
        v ++ (m ++ '[' :: (joined ',' (items.map (·.1)) ++ ']' :: (w ++ r))) := by simp
    rw [htext, parseAtom, peek_spaces _ hv, hpeek]
    change (if some c = some '[' then _ else _) = _
    rw [if_neg (by simpa using hbr), readIdent_name hm (hopen _)]
    change (parseTypeList u n (joined ',' (items.map (·.1)) ++ ']' :: (w ++ r)) >>= _) = _
    rw [hlist]
    change (if (items.map (·.2)).isEmpty then _ else _) = _
    rw [if_neg (by simpa using hne)]
    rw [expect_of_skipWs (skipWs_settled (settled_cons (by decide)))]
    rfl

theorem block_complete {v w t : List Char} (hv : Spaces v) (hw : Spaces w)
    (hbody : ∀ n r, 5 * t.length + 5 ≤ n → parseBlockBody u n (t ++ ']' :: r) = .ok (.block args ret, r)) :
    Completes u .atom (v ++ '[' :: (t ++ ']' :: w)) (.block args ret) := by
  intro n r hn hset _
  simp only [length_append, length_cons] at hn
  cases n with
  | zero => omega
  | succ n =>
    have := hbody n (w ++ r) (by omega)
    have htext : v ++ '[' :: (t ++ ']' :: w) ++ r = v ++ '[' :: (t ++ ']' :: (w ++ r)) := by simp
    rw [htext]
    exact atom_of_body hv hw hset this

theorem bodyEmpty_complete {x : List Char} (hx : Spaces x) (n : Nat) (r : List Char) (hn : 5 * x.length + 5 ≤ n) :
    parseBlockBody u n (x ++ ']' :: r) = .ok (.block [] none, r) := by
  cases n with
  | zero => omega
  | succ n =>
    have hset : Settled (']' :: r) := settled_cons (by decide)
    rw [parseBlockBody, peek_spaces _ hx, peek_of_skipWs (skipWs_settled hset)]
    change (expect ']' (']' :: r) >>= fun x => Except.ok (TypeExpr.block [] none, x.2)) = _
    rw [expect_of_skipWs (skipWs_settled hset)]
    rfl

theorem bodyArgs_complete (hne : items ≠ [])
    (hi : ∀ i ∈ items, Reads u .whole i.1 i.2 ∧ Completes u .whole i.1 i.2) (n : Nat) (r : List Char)
    (hn : 5 * (joined ',' (items.map (·.1))).length + 5 ≤ n) :
    parseBlockBody u n (joined ',' (items.map (·.1)) ++ ']' :: r) = .ok (.block (items.map (·.2)) none, r) := by
  cases n with
  | zero => omega
  | succ n =>
    have hparts := parts_complete_none items hne hi [] n r (by omega)
    have hclose : skipWs (']' :: r) = .ok ((), ']' :: r) := skipWs_settled (settled_cons (by decide))
    cases items with
    | nil => exact absurd rfl hne
    | cons i items =>
      obtain ⟨v, c, t', ht, hv, hc, _, hcl⟩ := (hi i (by simp)).1.starts
      have htext : joined ',' ((i :: items).map (·.1)) ++ ']' :: r =
          v ++ c :: (t' ++ joinedRest ',' (items.map (·.1)) ++ ']' :: r) := by simp [joined, ht]
      rw [htext] at hparts ⊢
      exact body_of_parts hv hc hcl hparts hclose

theorem bodyReturn_complete (hi : ∀ i ∈ items, Reads u .whole i.1 i.2 ∧ Completes u .whole i.1 i.2)
    (hx : Spaces x) (hcomp : Completes u .whole t e) (n : Nat) (r : List Char)
    (hn : 5 * (commaed (items.map (·.1)) ++ (x ++ '^' :: t)).length + 5 ≤ n) :
    parseBlockBody u n (commaed (items.map (·.1)) ++ (x ++ '^' :: t) ++ ']' :: r) =
      .ok (.block (items.map (·.2)) (some e), r) := by
  cases n with
  | zero => omega
  | succ n =>
    obtain ⟨r', hparts, hr'⟩ := parts_complete_some items hi hx hcomp [] n r (by omega)
    cases items with
    | nil =>
      have htext : commaed (([] : List (List Char × TypeExpr)).map (·.1)) ++ (x ++ '^' :: t) ++ ']' :: r =
          x ++ '^' :: (t ++ ']' :: r) := by simp [commaed]
      rw [htext] at hparts ⊢
      exact body_of_parts hx (by decide) (by decide) hparts hr'
    | cons i items =>
      obtain ⟨v, c, t', ht, hv, hc, _, hcl⟩ := (hi i (by simp)).1.starts
      have htext : commaed ((i :: items).map (·.1)) ++ (x ++ '^' :: t) ++ ']' :: r =
          v ++ c :: (t' ++ ',' :: (commaed (items.map (·.1)) ++ (x ++ '^' :: t) ++ ']' :: r)) := by simp [commaed, ht]
      rw [htext] at hparts ⊢
      exact body_of_parts hv hc hcl hparts hr'

theorem union_complete (hl : 2 ≤ items.length) (hi : ∀ i ∈ items, Reads u .atom i.1 i.2 ∧ Completes u .atom i.1 i.2) :
    Completes u .union (joined '|' (items.map (·.1))) (.union (items.map (·.2))) := by
  intro n r hn hset hclear hbar
  cases items with
  | nil => simp at hl
  | cons i items =>
    obtain ⟨hread, hcomp⟩ := hi i (by simp)
    simp only [map_cons, joined, length_append] at hn hclear ⊢
    cases n with
    | zero => omega
    | succ n =>
      cases items with
      | nil => simp at hl
      | cons j items =>
        have hopen : Clear u i.1 (joinedRest '|' ((j :: items).map (·.1)) ++ r) := by
          apply clear_of_head
          intro d hd
          cases some.inj hd
          exact ⟨not_nameCont (by decide), by decide⟩
        obtain ⟨r', hatom, hr'⟩ := hcomp n (joinedRest '|' ((j :: items).map (·.1)) ++ r) (by omega)
          (settled_cons (by decide)) hopen
        rw [parseUnion, append_assoc, hatom]
        change (parseVariants u n [i.2] r' >>= _) = _
        rw [variants_complete (j :: items) (fun k hk => hi k (mem_cons_of_mem i hk)) [i.2] n r' r (by omega) hr' hset
          (hclear.of_after (by simp [joinedRest])) hbar]
        rfl

theorem single_complete (hcomp : Completes u .atom t e) : Completes u .union t e := by
  intro n r hn hset hclear hbar
  cases n with
  | zero => omega
  | succ n =>
    obtain ⟨r', hatom, hr'⟩ := hcomp n r (by omega) hset hclear
    cases n with
    | zero => omega
    | succ n =>
      have hnone := variants_complete (u := u) [] (by simp) [e] (n + 1) r' r (by simp [joinedRest]) hr' hset
        (by simp [Clear, joinedRest]) hbar
      rw [parseUnion, hatom]
      change (parseVariants u (n + 1) [e] r' >>= _) = _
      rw [hnone]
      rfl

theorem plain_complete (hcomp : Completes u .union t e) : Completes u .whole t e := by
  intro n r hn hend
  cases n with
  | zero => omega
  | succ n =>
    have hunion := hcomp n r (by omega) hend.settled (clear_of_head fun d hd => ⟨(hend.head hd).2.1, (hend.head (u := u) hd).2.2.1⟩) (by
      intro hbar
      exact (hend.head (u := u) hbar).2.2.2 rfl)
    refine ⟨r, ?_, skipWs_settled hend.settled⟩
    rw [parseTypeExpr, hunion]
    change (readIdent u r >>= _) = _
    have hread : readIdent u r = .ok (none, r) := by
      rw [readIdent, skipWs_settled hend.settled]
      cases r with
      | nil => rfl
      | cons d r =>
        change (if isNameStart u d then _ else _) = _
        rw [if_neg]
        intro hstart
        have := isNameStart_cont hstart
        rw [(hend.head rfl).2.1] at this
        cases this
    rw [hread]
    rfl

theorem def_complete {t w : List Char} (hcomp : Completes u .union t e)
    (hl : ∀ c, t.getLast? = some c → isNameCont u c = false) (hw : Spaces w) :
    Completes u .whole (t ++ ['d', 'e', 'f'] ++ w) (.inferenceDef e) := by
  intro n r hn hend
  simp only [length_append, length_cons, length_nil] at hn
  cases n with
  | zero => omega
  | succ n =>
    have hname : IsName u ['d', 'e', 'f'] := by
      refine ⟨'d', ['e', 'f'], rfl, ?_, ?_⟩
      · unfold isNameStart
        rw [u.ascii_alphabetic 'd' (by decide)]
        decide
      · intro d hd
        unfold isNameCont
        simp only [mem_cons, not_mem_nil, or_false] at hd
        rcases hd with rfl | rfl
        · rw [u.ascii_alphanumeric 'e' (by decide)]
          decide
        · rw [u.ascii_alphanumeric 'f' (by decide)]
          decide
    have hafter : ∀ d, (w ++ r).head? = some d → isNameCont u d = false := by
      intro d hd
      cases w with
      | nil => exact (hend.head hd).2.1
      | cons x w => exact isNameCont_whitespace (hw d (by simp [some.inj hd])).1
    have hunion := hcomp n (['d', 'e', 'f'] ++ (w ++ r)) (by omega) (settled_cons (by decide))
      (by
        intro c hc hcont
        rw [hl c hc] at hcont
        cases hcont)
      (by simp)
    refine ⟨w ++ r, ?_, skipWs_to hw hend.settled⟩
    rw [parseTypeExpr, append_assoc, append_assoc, hunion]
    change (readIdent u (['d', 'e', 'f'] ++ (w ++ r)) >>= _) = _
    rw [readIdent_name hname hafter]
    rfl

theorem Reads.completes (h : Reads u l t e) : Completes u l t e := by
  induction h with
  | name hv hn hw => exact name_complete hv hn hw
  | generic hv hn hne hi hw ih => exact generic_complete hv hn hne (fun i hm => ⟨hi i hm, ih i hm⟩) hw
  | blockEmpty hv hx hw => exact block_complete hv hw (bodyEmpty_complete hx)
  | blockArgs hv hne hi hw ih => exact block_complete hv hw (bodyArgs_complete hne fun i hm => ⟨hi i hm, ih i hm⟩)
  | @blockReturn v x t w r items hv hi hx hr hw ih ihr =>
    have := block_complete hv hw (bodyReturn_complete (fun i hm => ⟨hi i hm, ih i hm⟩) hx ihr)
    simpa only [append_assoc, cons_append] using this
  | single _ ih => exact single_complete ih
  | variants hl hi ih => exact union_complete hl fun i hm => ⟨hi i hm, ih i hm⟩
  | plain _ ih => exact plain_complete ih
  | inferenceDef _ hl hw ih => exact def_complete ih hl hw

end WinArmVm.Types
