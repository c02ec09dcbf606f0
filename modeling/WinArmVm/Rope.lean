import Mathlib.Data.List.Basic
import Mathlib.Data.Nat.Log

namespace WinArmVm

/-- A leaf with its newline count, or a branch with the totals cached when it was made. -/
inductive Rope (α : Type)
  | leaf (str : List α) (nl : Nat)
  | branch (left right : Rope α) (weight leftNls size newlines depth : Nat)
deriving DecidableEq

namespace Rope

variable {α : Type} [DecidableEq α] (nl : α)

def leafMax : Nat := 64

/-- `RopeLeaf on:`. -/
def on (str : List α) : Rope α := .leaf str (str.count nl)

def size : Rope α → Nat
  | .leaf str _ => str.length
  | .branch _ _ _ _ size _ _ => size

def newlines : Rope α → Nat
  | .leaf _ nls => nls
  | .branch _ _ _ _ _ newlines _ => newlines

def depth : Rope α → Nat
  | .leaf _ _ => 0
  | .branch _ _ _ _ _ _ depth => depth

def isLeaf : Rope α → Bool
  | .leaf _ _ => true
  | .branch .. => false

/-- `RopeBranch left:right:`. -/
def pair (l r : Rope α) : Rope α :=
  .branch l r l.size l.newlines (l.size + r.size) (l.newlines + r.newlines) (1 + max l.depth r.depth)

def empty : Rope α := on nl []

def isEmpty (t : Rope α) : Bool := t.size = 0

def lineCount (t : Rope α) : Nat := t.newlines + 1

def at? : Rope α → Nat → Option α
  | .leaf str _, i => if i = 0 then none else str[i - 1]?
  | .branch left right weight _ _ _ _, i => if i ≤ weight then left.at? i else right.at? (i - weight)

def putOn : Rope α → List α → List α
  | .leaf str _, ws => ws ++ str
  | .branch left right _ _ _ _ _, ws => right.putOn (left.putOn ws)

def asString (t : Rope α) : List α := t.putOn []

def collectLeavesInto : Rope α → List (List α) → List (List α)
  | .leaf str _, coll => if str = [] then coll else coll ++ [str]
  | .branch left right _ _ _ _ _, coll => right.collectLeavesInto (left.collectLeavesInto coll)

/-- How often `n` can be halved until nothing is left; the turns are at most the first argument. -/
def bitLength : Nat → Nat → Nat
  | 0, _ => 0
  | turns + 1, n => if 0 < n then bitLength turns (n / 2) + 1 else 0

def budget (size : Nat) : Nat :=
  let n := size / leafMax + 2
  2 * bitLength n n + 4

def plainConcat (l r : Rope α) : Rope α :=
  if l.isEmpty then r else if r.isEmpty then l else pair l r

/-- The leaves `lo` to `hi`, counted from one, halved at the middle. -/
def balancedFrom (strings : List (List α)) : Nat → Nat → Nat → Rope α
  | 0, _, _ => empty nl
  | turns + 1, lo, hi =>
    if hi < lo then empty nl
    else if lo = hi then on nl (strings.getD (lo - 1) [])
    else
      let mid := (lo + hi) / 2
      plainConcat (balancedFrom strings turns lo mid) (balancedFrom strings turns (mid + 1) hi)

def balanced (t : Rope α) : Rope α :=
  let leaves := t.collectLeavesInto []
  balancedFrom nl leaves (leaves.length + 1) 1 leaves.length

def balancedIfDeep (t : Rope α) : Rope α :=
  if budget t.size < t.depth then t.balanced nl else t

/-- The pieces of at most `leafMax` characters from position `i` on. -/
def chunksFrom (str : List α) : Nat → Nat → List (List α)
  | 0, _ => []
  | turns + 1, i =>
    if i ≤ str.length then
      let j := min (i + leafMax - 1) str.length
      ((str.take j).drop (i - 1)) :: chunksFrom str turns (j + 1)
    else []

def fromString (str : List α) : Rope α :=
  if str.length = 0 then empty nl
  else
    let leaves := chunksFrom str (str.length + 1) 1
    balancedFrom nl leaves (leaves.length + 1) 1 leaves.length

def concat (l r : Rope α) : Rope α :=
  if l.isEmpty then r
  else if r.isEmpty then l
  else if l.isLeaf && r.isLeaf && decide (l.size + r.size ≤ leafMax) then on nl (l.asString ++ r.asString)
  else (pair l r).balancedIfDeep nl

def splitAt : Rope α → Nat → Rope α × Rope α
  | t@(.leaf str _), i =>
    if i = 0 then (empty nl, t)
    else if str.length ≤ i then (t, empty nl)
    else (on nl (str.take i), on nl (str.drop i))
  | t@(.branch left right weight _ size _ _), i =>
    if i = 0 then (empty nl, t)
    else if size ≤ i then (t, empty nl)
    else if i ≤ weight then ((left.splitAt i).1, concat nl (left.splitAt i).2 right)
    else (concat nl left (right.splitAt (i - weight)).1, (right.splitAt (i - weight)).2)

/-- `insert:at:`. -/
def insert (t : Rope α) (str : List α) (pos : Nat) : Rope α :=
  if str = [] then t
  else concat nl (concat nl (t.splitAt nl (pos - 1)).1 (fromString nl str)) (t.splitAt nl (pos - 1)).2

/-- `delete:to:`. -/
def delete (t : Rope α) (first last : Nat) : Rope α :=
  if last < first then t
  else concat nl (t.splitAt nl (first - 1)).1 (t.splitAt nl last).2

def newlinesBefore : Rope α → Nat → Nat
  | .leaf str _, i => (str.take (i - 1)).count nl
  | .branch left right weight leftNls _ _ _, i =>
    if i ≤ weight then left.newlinesBefore i else leftNls + right.newlinesBefore (i - weight)

/-- The loop of a leaf over positions from `idx` on. -/
def afterNewlineFrom : List α → Nat → Nat → Nat → Option Nat
  | [], _, _, _ => none
  | c :: cs, k, seen, idx =>
    if c = nl then
      if seen + 1 = k then some (idx + 1) else afterNewlineFrom cs k (seen + 1) (idx + 1)
    else afterNewlineFrom cs k seen (idx + 1)

def offsetAfterNewline : Rope α → Nat → Option Nat
  | .leaf str _, k => afterNewlineFrom nl str k 0 1
  | .branch left right weight leftNls _ _ _, k =>
    if k ≤ leftNls then left.offsetAfterNewline k
    else (right.offsetAfterNewline (k - leftNls)).map (weight + ·)

def lineOfOffset (t : Rope α) (i : Nat) : Nat := 1 + t.newlinesBefore nl i

def offsetOfLine (t : Rope α) (n : Nat) : Option Nat :=
  if n ≤ 1 then some 1 else t.offsetAfterNewline nl (n - 1)

/-- `copyFrom:to:`, none where a position lies outside. -/
def copyFrom (t : Rope α) (first last : Nat) : Option (List α) := (List.range' first (last + 1 - first)).mapM t.at?

/-- `linesFrom:to:`, none past the last line. -/
def linesFrom (t : Rope α) (a b : Nat) : Option (List α) := do
  let start ← t.offsetOfLine nl a
  let last ← if t.lineCount ≤ b then some t.size else (t.offsetOfLine nl (b + 1)).map (· - 1)
  t.copyFrom start last

end Rope

/-- `TextBuffer`: the current root and the stacks of other ones, the latest last. -/
structure TextBuffer (α : Type) where
  root : Rope α
  undo : List (Rope α)
  redo : List (Rope α)

namespace TextBuffer

variable {α : Type} [DecidableEq α] (nl : α)

def on (str : List α) : TextBuffer α := ⟨Rope.fromString nl str, [], []⟩

def commit (b : TextBuffer α) (t : Rope α) : TextBuffer α := ⟨t, b.undo ++ [b.root], []⟩

inductive Edit (α : Type)
  | insert (str : List α) (pos : Nat)
  | delete (first last : Nat)
  | replace (first last : Nat) (str : List α)
  | undo
  | redo

def edit (b : TextBuffer α) : Edit α → TextBuffer α
  | .insert str pos => b.commit (b.root.insert nl str pos)
  | .delete first last => b.commit (b.root.delete nl first last)
  | .replace first last str =>
    if last < first ∧ str = [] then b else b.commit ((b.root.delete nl first last).insert nl str first)
  | .undo =>
    match b.undo.getLast? with
    | none => b
    | some t => ⟨t, b.undo.dropLast, b.redo ++ [b.root]⟩
  | .redo =>
    match b.redo.getLast? with
    | none => b
    | some t => ⟨t, b.undo ++ [b.root], b.redo.dropLast⟩

def run (b : TextBuffer α) (es : List (Edit α)) : TextBuffer α := es.foldl (edit nl) b

end TextBuffer

end WinArmVm
