import WinArmVm.RopeSound

namespace WinArmVm

open List Option

structure StringBuffer (α : Type) where
  text : List α
  undo : List (List α)
  redo : List (List α)
deriving DecidableEq

namespace StringBuffer

variable {α : Type} [DecidableEq α] (nl : α)

def on (str : List α) : StringBuffer α := ⟨str, [], []⟩

def commit (b : StringBuffer α) (text : List α) : StringBuffer α := ⟨text, b.undo ++ [b.text], []⟩

def inserted (text str : List α) (pos : Nat) : List α := text.take (pos - 1) ++ str ++ text.drop (pos - 1)

def deleted (text : List α) (first last : Nat) : List α :=
  if last < first then text else text.take (first - 1) ++ text.drop last

def edit (b : StringBuffer α) : TextBuffer.Edit α → StringBuffer α
  | .insert str pos => b.commit (inserted b.text str pos)
  | .delete first last => b.commit (deleted b.text first last)
  | .replace first last str =>
    if last < first ∧ str = [] then b else b.commit (inserted (deleted b.text first last) str first)
  | .undo =>
    match b.undo.getLast? with
    | none => b
    | some text => ⟨text, b.undo.dropLast, b.redo ++ [b.text]⟩
  | .redo =>
    match b.redo.getLast? with
    | none => b
    | some text => ⟨text, b.undo ++ [b.text], b.redo.dropLast⟩

def run (b : StringBuffer α) (es : List (TextBuffer.Edit α)) : StringBuffer α := es.foldl edit b

def lineCount (text : List α) : Nat := text.count nl + 1

def lineOfOffset (text : List α) (i : Nat) : Nat := 1 + (text.take (i - 1)).count nl

def offsetOfLine (text : List α) (n : Nat) : Option Nat :=
  ((List.range (text.length + 1)).find? fun i => (text.take i).count nl = n - 1).map (· + 1)

/-- The characters from the start of line `a` to the end of line `b`. -/
def linesFrom (text : List α) (a b : Nat) : Option (List α) := do
  let start ← offsetOfLine nl text a
  let last ← if lineCount nl text ≤ b then some text.length else (offsetOfLine nl text (b + 1)).map (· - 1)
  return (text.take last).drop (start - 1)

end StringBuffer

namespace Rope

variable {α : Type} [DecidableEq α] {nl : α}

theorem at?_eq : ∀ {t : Rope α} {i : Nat}, t.Sound nl → t.at? i = if i = 0 then none else t.text[i - 1]? := by
  intro t
  induction t with
  | leaf str n => intro i _; rfl
  | branch l r w n s ns d ihl ihr =>
    intro i h
    have hw : w = l.text.length := h.2.2.1
    show (if i ≤ w then l.at? i else r.at? (i - w)) = if i = 0 then none else (l.text ++ r.text)[i - 1]?
    rw [hw]
    by_cases hz : i = 0
    · rw [if_pos hz, if_pos (by omega), ihl h.1, if_pos hz]
    · rw [if_neg hz]
      by_cases hle : i ≤ l.text.length
      · rw [if_pos hle, ihl h.1, if_neg hz, getElem?_append_left (by omega)]
      · rw [if_neg hle, ihr h.2.1, if_neg (by omega), getElem?_append_right (by omega)]
        congr 1
        omega

theorem newlinesBefore_eq : ∀ {t : Rope α} {i : Nat}, t.Sound nl →
    t.newlinesBefore nl i = (t.text.take (i - 1)).count nl := by
  intro t
  induction t with
  | leaf str n => intro i _; rfl
  | branch l r w n s ns d ihl ihr =>
    intro i h
    have hw : w = l.text.length := h.2.2.1
    have hn : n = l.text.count nl := h.2.2.2.1
    show (if i ≤ w then l.newlinesBefore nl i else n + r.newlinesBefore nl (i - w)) =
      ((l.text ++ r.text).take (i - 1)).count nl
    rw [hw, hn]
    by_cases hle : i ≤ l.text.length
    · rw [if_pos hle, ihl h.1, take_append_of_le_length (by omega)]
    · have htake : l.text.take (i - 1) = l.text := take_of_length_le (by omega)
      have hrest : i - l.text.length - 1 = i - 1 - l.text.length := by omega
      rw [if_neg hle, ihr h.2.1, take_append, count_append, htake, hrest]

theorem afterNewlineFrom_find : ∀ (str : List α) {k seen idx : Nat}, seen < k → afterNewlineFrom nl str k seen idx =
      ((List.range (str.length + 1)).find? fun i => (str.take i).count nl + seen = k).map (· + idx) := by
  intro str
  induction str with
  | nil =>
    intro k seen idx h
    have hne : ¬ seen = k := by omega
    simp [afterNewlineFrom, hne]
  | cons c cs ih =>
    intro k seen idx h
    have hne : ¬ seen = k := by omega
    rw [length_cons, range_succ_eq_map, find?_cons_of_neg (by simpa using hne), find?_map, Option.map_map]
    unfold afterNewlineFrom
    by_cases hc : c = nl
    · subst hc
      rw [if_pos rfl]
      by_cases hk : seen + 1 = k
      · subst hk
        rw [if_pos rfl, range_succ_eq_map, find?_cons_of_pos (by simp [Nat.add_comm])]
        simp [Nat.add_comm]
      · rw [if_neg hk, ih (by omega)]
        have hsame : (fun i => decide ((cs.take i).count c + (seen + 1) = k)) =
            (fun i => decide (((c :: cs).take i).count c + seen = k)) ∘ Nat.succ := by
          funext i
          simp only [Function.comp, Nat.succ_eq_add_one, take_succ_cons, count_cons_self]
          congr 1
          simp only [eq_iff_iff]
          omega
        rw [hsame]
        congr 1
        funext i
        simp only [Function.comp]
        omega
    · rw [if_neg hc, ih h]
      have hsame : (fun i => decide ((cs.take i).count nl + seen = k)) =
          (fun i => decide (((c :: cs).take i).count nl + seen = k)) ∘ Nat.succ := by
        funext i
        simp [count_cons_of_ne hc]
      rw [hsame]
      congr 1
      funext i
      simp only [Function.comp]
      omega

theorem afterNewlineFrom_cons (c : α) (cs : List α) (k seen idx : Nat) : afterNewlineFrom nl (c :: cs) k seen idx =
      if c = nl then
        if seen + 1 = k then some (idx + 1) else afterNewlineFrom nl cs k (seen + 1) (idx + 1)
      else afterNewlineFrom nl cs k seen (idx + 1) :=
  rfl

theorem afterNewlineFrom_append (r : List α) : ∀ (l : List α) {k seen idx : Nat}, seen < k →
    afterNewlineFrom nl (l ++ r) k seen idx =
      if k ≤ seen + l.count nl then afterNewlineFrom nl l k seen idx
      else afterNewlineFrom nl r k (seen + l.count nl) (idx + l.length) := by
  intro l
  induction l with
  | nil =>
    intro k seen idx h
    rw [if_neg (by simp; omega)]
    rfl
  | cons c cs ih =>
    intro k seen idx h
    rw [cons_append, afterNewlineFrom_cons, afterNewlineFrom_cons]
    by_cases hc : c = nl
    · subst hc
      rw [if_pos rfl, if_pos rfl, count_cons_self]
      by_cases hk : seen + 1 = k
      · rw [if_pos hk, if_pos hk, if_pos (by omega)]
      · rw [if_neg hk, if_neg hk, ih (by omega), length_cons]
        have hsum : seen + 1 + cs.count c = seen + (cs.count c + 1) := by omega
        have hidx : idx + 1 + cs.length = idx + (cs.length + 1) := by omega
        rw [hsum, hidx]
    · rw [if_neg hc, if_neg hc, ih h, count_cons_of_ne hc, length_cons]
      have hidx : idx + 1 + cs.length = idx + (cs.length + 1) := by omega
      rw [hidx]

theorem afterNewlineFrom_shift : ∀ (str : List α) {k seen idx w c : Nat}, c ≤ k →
    afterNewlineFrom nl str k (seen + c) (idx + w) = (afterNewlineFrom nl str (k - c) seen idx).map (w + ·) := by
  intro str
  induction str with
  | nil => intro k seen idx w c _; rfl
  | cons x xs ih =>
    intro k seen idx w c h
    rw [afterNewlineFrom_cons, afterNewlineFrom_cons]
    have hseen : seen + c + 1 = seen + 1 + c := by omega
    have hidx : idx + w + 1 = idx + 1 + w := by omega
    rw [hseen, hidx, ih h, ih h]
    by_cases hx : x = nl
    · rw [if_pos hx, if_pos hx]
      by_cases hk : seen + 1 + c = k
      · rw [if_pos hk, if_pos (by omega), map_some, Nat.add_comm]
      · rw [if_neg hk, if_neg (by omega)]
    · rw [if_neg hx, if_neg hx]

theorem offsetAfterNewline_eq : ∀ {t : Rope α} {k : Nat}, t.Sound nl → 0 < k →
    t.offsetAfterNewline nl k = afterNewlineFrom nl t.text k 0 1 := by
  intro t
  induction t with
  | leaf str n => intro k _ _; rfl
  | branch l r w n s ns d ihl ihr =>
    intro k h hk
    have hw : w = l.text.length := h.2.2.1
    have hn : n = l.text.count nl := h.2.2.2.1
    show (if k ≤ n then l.offsetAfterNewline nl k else (r.offsetAfterNewline nl (k - n)).map (w + ·)) =
      afterNewlineFrom nl (l.text ++ r.text) k 0 1
    rw [afterNewlineFrom_append _ _ hk, Nat.zero_add, hn, hw]
    by_cases hle : k ≤ l.text.count nl
    · rw [if_pos hle, if_pos hle, ihl h.1 hk]
    · rw [if_neg hle, if_neg hle, ihr h.2.1 (by omega)]
      have hshift := @afterNewlineFrom_shift _ _ nl r.text _ 0 1 l.text.length _ (Nat.le_of_not_le hle)
      rw [Nat.zero_add] at hshift
      exact hshift.symm

theorem offsetOfLine_eq {t : Rope α} (h : t.Sound nl) (n : Nat) :
    t.offsetOfLine nl n = StringBuffer.offsetOfLine nl t.text n := by
  unfold offsetOfLine StringBuffer.offsetOfLine
  split
  next hn =>
    have hz : n - 1 = 0 := by omega
    rw [hz, range_succ_eq_map, find?_cons_of_pos (by simp)]
    rfl
  next hn =>
    rw [offsetAfterNewline_eq h (by omega), afterNewlineFrom_find _ (by omega)]
    rfl

theorem offsetOfLine_bounds {text : List α} {n i : Nat} (h : StringBuffer.offsetOfLine nl text n = some i) :
    1 ≤ i ∧ i ≤ text.length + 1 := by
  obtain ⟨j, hj, rfl⟩ := map_eq_some_iff.mp h
  have hmem := mem_range.mp (mem_of_find?_eq_some hj)
  omega

theorem mapM_at? {t : Rope α} (h : t.Sound nl) : ∀ {n first : Nat}, 1 ≤ first → first - 1 + n ≤ t.text.length →
    (List.range' first n).mapM t.at? = some ((t.text.drop (first - 1)).take n) := by
  intro n
  induction n with
  | zero => intro first _ _; rfl
  | succ n ih =>
    intro first hfirst hle
    have hlt : first - 1 < t.text.length := by omega
    have hrest := @ih (first + 1) (by omega) (by omega)
    rw [range'_succ, mapM_cons, hrest, at?_eq h, if_neg (by omega), getElem?_eq_getElem hlt,
      drop_eq_getElem_cons hlt, take_succ_cons]
    have hnext : first - 1 + 1 = first + 1 - 1 := by omega
    rw [hnext]
    rfl

theorem copyFrom_eq {t : Rope α} (h : t.Sound nl) {first last : Nat} (hfirst : 1 ≤ first)
    (hlast : last ≤ t.text.length) : t.copyFrom first last = some ((t.text.take last).drop (first - 1)) := by
  unfold copyFrom
  have hcount : last + 1 - first = last - (first - 1) := by omega
  rw [hcount, drop_take]
  rcases Nat.eq_zero_or_pos (last - (first - 1)) with hz | hpos
  · rw [hz]
    rfl
  · exact mapM_at? h hfirst (by omega)

theorem linesFrom_eq {t : Rope α} (h : t.Sound nl) (a b : Nat) :
    t.linesFrom nl a b = StringBuffer.linesFrom nl t.text a b := by
  unfold linesFrom StringBuffer.linesFrom
  have hcount : t.lineCount = StringBuffer.lineCount nl t.text := congrArg (· + 1) h.newlines_eq
  rw [offsetOfLine_eq h, offsetOfLine_eq h, hcount, h.size_eq]
  cases hstart : StringBuffer.offsetOfLine nl t.text a with
  | none => rfl
  | some start =>
    have hfirst := (offsetOfLine_bounds hstart).1
    by_cases hb : StringBuffer.lineCount nl t.text ≤ b
    · simp only [if_pos hb]
      exact copyFrom_eq h hfirst (Nat.le_refl _)
    · simp only [if_neg hb]
      cases hend : StringBuffer.offsetOfLine nl t.text (b + 1) with
      | none => rfl
      | some stop =>
        have hlast : stop - 1 ≤ t.text.length := Nat.sub_le_of_le_add (offsetOfLine_bounds hend).2
        exact copyFrom_eq h hfirst hlast

/-- The ropes that the operations answer, one from another. -/
inductive Made (nl : α) : Rope α → Prop
  | fromString (str) : Made nl (fromString nl str)
  | concat {l r} : Made nl l → Made nl r → Made nl (concat nl l r)
  | splitLeft {t} (i) : Made nl t → Made nl (t.splitAt nl i).1
  | splitRight {t} (i) : Made nl t → Made nl (t.splitAt nl i).2
  | insert {t} (str pos) : Made nl t → Made nl (t.insert nl str pos)
  | delete {t} (first last) : Made nl t → Made nl (t.delete nl first last)
  | balanced {t} : Made nl t → Made nl (t.balanced nl)
  | part {t u} : Part t u → Made nl u → Made nl t

theorem Made.sound {t : Rope α} (h : Made nl t) : t.Sound nl := by
  induction h with
  | fromString str => exact (fromString_spec str).1
  | concat _ _ ihl ihr => exact concat_sound ihl ihr
  | splitLeft i _ ih => exact (splitAt_spec ih).1
  | splitRight i _ ih => exact (splitAt_spec ih).2.1
  | insert str pos _ ih => exact (insert_spec ih str pos).1
  | delete first last _ ih => exact (delete_spec ih first last).1
  | balanced _ ih => exact (balanced_spec ih.chunks).1
  | part hp _ ih => exact ih.part hp

/-- What every node keeps: a bounded leaf, the totals of its text, a depth within its budget. -/
structure WellBuilt (nl : α) (t : Rope α) : Prop where
  leaf : ∀ str n, t = .leaf str n → str.length ≤ leafMax
  size : t.size = t.text.length
  newlines : t.newlines = t.text.count nl
  depth : t.depth = t.height
  budget : t.height ≤ budget t.text.length

theorem Sound.wellBuilt {t : Rope α} (h : t.Sound nl) : t.WellBuilt nl := by
  refine ⟨?_, h.size_eq, h.newlines_eq, h.depth_eq, ?_⟩
  · rintro str n rfl
    exact h.2
  · rw [← h.depth_eq, ← h.size_eq]
    exact h.depth_le

end Rope

namespace TextBuffer

variable {α : Type} [DecidableEq α] {nl : α} {b : TextBuffer α} {s : StringBuffer α}

def roots (b : TextBuffer α) : List (Rope α) := b.undo ++ b.root :: b.redo.reverse

/-- The ropes of the buffer stand for the strings, and an operation answered each of them. -/
structure Refines (nl : α) (b : TextBuffer α) (s : StringBuffer α) : Prop where
  root : b.root.text = s.text
  undo : b.undo.map Rope.text = s.undo
  redo : b.redo.map Rope.text = s.redo
  made : ∀ t ∈ b.roots, Rope.Made nl t

omit [DecidableEq α] in
theorem mem_roots {t : Rope α} : t ∈ b.roots ↔ t ∈ b.undo ∨ t = b.root ∨ t ∈ b.redo := by
  simp [roots]

theorem Refines.commit (h : Refines nl b s) {t : Rope α} {text : List α} (ht : Rope.Made nl t) (htext : t.text = text) :
    Refines nl (b.commit t) (s.commit text) := by
  refine ⟨htext, ?_, rfl, ?_⟩
  · show (b.undo ++ [b.root]).map Rope.text = s.undo ++ [s.text]
    rw [map_append, h.undo, ← h.root]
    rfl
  · intro u hu
    rcases mem_roots.mp hu with hu | rfl | hu
    · rcases mem_append.mp hu with hu | hu
      · exact h.made u (mem_roots.mpr (.inl hu))
      · exact h.made u (mem_roots.mpr (.inr (.inl (mem_singleton.mp hu))))
    · exact ht
    · cases hu

theorem Refines.edit (h : Refines nl b s) (e : Edit α) : Refines nl (b.edit nl e) (s.edit e) := by
  have hroot : Rope.Made nl b.root := h.made _ (mem_roots.mpr (.inr (.inl rfl)))
  have hdelete : ∀ first last, (b.root.delete nl first last).text = StringBuffer.deleted s.text first last := by
    intro first last
    rw [(Rope.delete_spec hroot.sound first last).2, h.root]
    rfl
  cases e with
  | insert str pos =>
    apply h.commit (hroot.insert str pos)
    rw [(Rope.insert_spec hroot.sound str pos).2, h.root]
    rfl
  | delete first last => exact h.commit (hroot.delete first last) (hdelete first last)
  | replace first last str =>
    show Refines nl (if last < first ∧ str = [] then b else _) (if last < first ∧ str = [] then s else _)
    split
    next => exact h
    next =>
      apply h.commit ((hroot.delete first last).insert str first)
      rw [(Rope.insert_spec (hroot.delete first last).sound str first).2, hdelete]
      rfl
  | undo =>
    simp only [TextBuffer.edit, StringBuffer.edit, ← h.undo, getLast?_map]
    cases hlast : b.undo.getLast? with
    | none => exact h
    | some t =>
      obtain ⟨rest, hrest⟩ := getLast?_eq_some_iff.mp hlast
      refine ⟨rfl, ?_, ?_, ?_⟩
      · show b.undo.dropLast.map Rope.text = (b.undo.map Rope.text).dropLast
        rw [map_dropLast]
      · show (b.redo ++ [b.root]).map Rope.text = s.redo ++ [s.text]
        rw [map_append, h.redo, ← h.root]
        rfl
      · intro u hu
        apply h.made u
        rw [mem_roots, hrest]
        rcases mem_roots.mp hu with hu | rfl | hu
        · have hu' : u ∈ b.undo.dropLast := hu
          rw [hrest, dropLast_concat] at hu'
          exact .inl (mem_append_left _ hu')
        · exact .inl (mem_append_right _ (mem_singleton_self _))
        · rcases mem_append.mp hu with hu | hu
          · exact .inr (.inr hu)
          · exact .inr (.inl (mem_singleton.mp hu))
  | redo =>
    simp only [TextBuffer.edit, StringBuffer.edit, ← h.redo, getLast?_map]
    cases hlast : b.redo.getLast? with
    | none => exact h
    | some t =>
      obtain ⟨rest, hrest⟩ := getLast?_eq_some_iff.mp hlast
      refine ⟨rfl, ?_, ?_, ?_⟩
      · show (b.undo ++ [b.root]).map Rope.text = s.undo ++ [s.text]
        rw [map_append, h.undo, ← h.root]
        rfl
      · show b.redo.dropLast.map Rope.text = (b.redo.map Rope.text).dropLast
        rw [map_dropLast]
      · intro u hu
        apply h.made u
        rw [mem_roots, hrest]
        rcases mem_roots.mp hu with hu | rfl | hu
        · rcases mem_append.mp hu with hu | hu
          · exact .inl hu
          · exact .inr (.inl (mem_singleton.mp hu))
        · exact .inr (.inr (mem_append_right _ (mem_singleton_self _)))
        · have hu' : u ∈ b.redo.dropLast := hu
          rw [hrest, dropLast_concat] at hu'
          exact .inr (.inr (mem_append_left _ hu'))

theorem Refines.run : ∀ (es : List (Edit α)) {b : TextBuffer α} {s : StringBuffer α}, Refines nl b s →
    Refines nl (b.run nl es) (s.run es) := by
  intro es
  induction es with
  | nil => intro b s h; exact h
  | cons e es ih => intro b s h; exact ih (h.edit e)

theorem refines_on (str : List α) : Refines nl (on nl str) (StringBuffer.on str) := by
  refine ⟨(Rope.fromString_spec str).2, rfl, rfl, fun t ht => ?_⟩
  rcases mem_roots.mp ht with ht | rfl | ht
  · cases ht
  · exact Rope.Made.fromString str
  · cases ht

theorem roots_edit (b : TextBuffer α) (e : Edit α) :
    (b.edit nl e).roots = b.roots ∨ ∃ t, (b.edit nl e).roots = b.undo ++ [b.root, t] := by
  have hcommit : ∀ t, (b.commit t).roots = b.undo ++ [b.root, t] := by
    intro t
    show b.undo ++ [b.root] ++ [t] = _
    rw [append_assoc]
    rfl
  cases e with
  | insert str pos => exact .inr ⟨_, hcommit _⟩
  | delete first last => exact .inr ⟨_, hcommit _⟩
  | replace first last str =>
    show (if last < first ∧ str = [] then b else _).roots = _ ∨ ∃ t, (if last < first ∧ str = [] then b else _).roots = _
    split
    next => exact .inl rfl
    next => exact .inr ⟨_, hcommit _⟩
  | undo =>
    left
    unfold edit
    dsimp only
    split
    next => rfl
    next t hlast =>
      obtain ⟨rest, hrest⟩ := getLast?_eq_some_iff.mp hlast
      unfold roots
      dsimp only
      rw [hrest, dropLast_concat, reverse_append, append_assoc]
      rfl
  | redo =>
    left
    unfold edit
    dsimp only
    split
    next => rfl
    next t hlast =>
      obtain ⟨rest, hrest⟩ := getLast?_eq_some_iff.mp hlast
      unfold roots
      dsimp only
      rw [hrest, dropLast_concat, reverse_append, append_assoc]
      rfl

structure Answers (nl : α) (t : Rope α) (text : List α) : Prop where
  asString : t.asString = text
  size : t.size = text.length
  lineCount : t.lineCount = StringBuffer.lineCount nl text
  at? : ∀ i, t.at? i = if i = 0 then none else text[i - 1]?
  lineOfOffset : ∀ i, t.lineOfOffset nl i = StringBuffer.lineOfOffset nl text i
  offsetOfLine : ∀ n, t.offsetOfLine nl n = StringBuffer.offsetOfLine nl text n
  linesFrom : ∀ a b, t.linesFrom nl a b = StringBuffer.linesFrom nl text a b

theorem answers_of_made {t : Rope α} (h : Rope.Made nl t) : Answers nl t t.text :=
  ⟨Rope.asString_eq t, h.sound.size_eq, congrArg (· + 1) h.sound.newlines_eq, fun _ => Rope.at?_eq h.sound,
    fun _ => congrArg (1 + ·) (Rope.newlinesBefore_eq h.sound), Rope.offsetOfLine_eq h.sound, Rope.linesFrom_eq h.sound⟩

theorem Refines.map_asString (h : Refines nl b s) : b.roots.map Rope.asString = s.undo ++ s.text :: s.redo.reverse := by
  have htext : Rope.asString = (Rope.text : Rope α → List α) := funext Rope.asString_eq
  rw [htext]
  unfold roots
  rw [map_append, map_cons, map_reverse, h.undo, h.root, h.redo]

/-- After any edits the buffer answers what a string with its undo and redo lists answers, the roots
it keeps are the earlier ones as they were, and every node of every rope an operation answers is
well built. -/
theorem run_refines (nl : α) (str : List α) (es : List (Edit α)) :
    Answers nl ((on nl str).run nl es).root ((StringBuffer.on str).run es).text ∧
      ((on nl str).run nl es).roots.map Rope.asString =
        ((StringBuffer.on str).run es).undo ++ ((StringBuffer.on str).run es).text ::
          ((StringBuffer.on str).run es).redo.reverse ∧
      (∀ e, (((on nl str).run nl es).edit nl e).roots = ((on nl str).run nl es).roots ∨
        ∃ t, (((on nl str).run nl es).edit nl e).roots =
          ((on nl str).run nl es).undo ++ [((on nl str).run nl es).root, t]) ∧
      (∀ t ∈ ((on nl str).run nl es).roots, Rope.Made nl t) ∧ ∀ t, Rope.Made nl t → t.WellBuilt nl := by
  have h := Refines.run es (@refines_on _ _ nl str)
  have hroot := h.made _ (mem_roots.mpr (.inr (.inl rfl)))
  refine ⟨?_, h.map_asString, fun e => roots_edit _ e, h.made, fun t ht => ht.sound.wellBuilt⟩
  rw [← h.root]
  exact answers_of_made hroot

/-- Prepending to a document of two leaves grows its spine: the branch that the eighth insertion
makes, before it is rebuilt, is deeper than its budget. -/
theorem deep_branch :
    let b := (on 'n' (List.replicate 65 'a')).run 'n' (List.replicate 7 (.insert ['b'] 1))
    let new := Rope.pair (Rope.fromString 'n' ['b']) b.root
    (b.edit 'n' (.insert ['b'] 1)).root = new.balanced 'n' ∧ Rope.budget new.size < new.depth := by
  decide +kernel

end TextBuffer

end WinArmVm
