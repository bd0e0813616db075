import CodeGraph.Graph.Boundaries
import CodeGraph.Lib.Brackets
import Mathlib.Data.List.DropRight

/-!
# The bracket index

`Src` of `graph/boundaries/mod.rs`: a masked source with its bracket pairs and its line starts. The brackets are
found in one pass with a stack of indices; the questions are then answered by searches in the lists the pass made.
An index or a slice out of range is a `Fault`.
-/

namespace CodeGraph.Graph.Boundaries

open CodeGraph.Lib

/-- The three kinds of brackets alike. -/
def bracketKind (b : UInt8) : Option Bracket :=
  if b = ascii '(' ∨ b = ascii '[' ∨ b = openBrace then some .opener
  else if b = ascii ')' ∨ b = ascii ']' ∨ b = closeBrace then some .closer
  else none

structure Src where
  m : List UInt8
  /-- Position of every bracket byte, ascending. -/
  brackets : List ℕ
  /-- Per bracket: an opener's matching close, if any. -/
  close : List (Option ℕ)
  /-- Per bracket: the innermost opener still open just after it. -/
  openAfter : List (Option ℕ)
  /-- Offset of each line's first byte. -/
  lineStarts : List ℕ

/-- `xs[i]`. -/
def elemAt {α : Type} (xs : List α) (i : ℕ) : Except Fault α :=
  match xs[i]? with
  | some a => .ok a
  | none => .error .outOfRange

/-- `xs[i] = a`. -/
def setAt {α : Type} (xs : List α) (i : ℕ) (a : α) : Except Fault (List α) :=
  if i < xs.length then .ok (xs.set i a) else .error .outOfRange

/-- The local variables of `Src::new`. The stack has the innermost opener first. -/
structure Pass where
  brackets : List ℕ
  close : List (Option ℕ)
  openAfter : List (Option ℕ)
  stack : List ℕ

/-- A closer at `j` takes the innermost opener off the stack, and that opener learns of it. -/
def Pass.closeTop (p : Pass) (j : ℕ) : Except Fault (List (Option ℕ)) :=
  match p.stack.head? with
  | some k => setAt p.close k (some j)
  | none => .ok p.close

/-- `stack.last().map(|&k| brackets[k])`. -/
def innermost (brackets stack : List ℕ) : Except Fault (Option ℕ) :=
  match stack.head? with
  | some k => some <$> elemAt brackets k
  | none => .ok none

/-- One byte of the pass. -/
def Pass.byte (p : Pass) (j : ℕ) (b : UInt8) : Except Fault Pass :=
  match bracketKind b with
  | some .opener =>
    .ok
      { brackets := p.brackets ++ [j]
        close := p.close ++ [none]
        openAfter := p.openAfter ++ [some j]
        stack := p.brackets.length :: p.stack }
  | some .closer => do
    let close ← p.closeTop j
    let after ← innermost (p.brackets ++ [j]) p.stack.tail
    .ok
      { brackets := p.brackets ++ [j]
        close := close ++ [none]
        openAfter := p.openAfter ++ [after]
        stack := p.stack.tail }
  | none => .ok p

/-- The loop of `Src::new`, from position `j` on. -/
def Pass.bytes : Pass → ℕ → List UInt8 → Except Fault Pass
  | p, _, [] => .ok p
  | p, j, b :: rest => do bytes (← p.byte j b) (j + 1) rest

def lineStarts (m : List UInt8) : List ℕ :=
  0 :: ((m.zipIdx.filter fun bi => bi.1 == newline).map fun bi => bi.2 + 1)

/-- `Src::new`. -/
def Src.new (m : List UInt8) : Except Fault Src := do
  let p ← Pass.bytes ⟨[], [], [], []⟩ 0 m
  .ok ⟨m, p.brackets, p.close, p.openAfter, Boundaries.lineStarts m⟩

/-- `partition_point`, on a list whose first part satisfies `p` and whose second does not. -/
def partitionPoint (p : ℕ → Bool) (xs : List ℕ) : ℕ := (xs.takeWhile p).length

/-- `Src::enclosing_opener`. -/
def Src.enclosingOpener (src : Src) (pos : ℕ) : Except Fault (Option ℕ) :=
  match partitionPoint (· < pos) src.brackets with
  | 0 => .ok none
  | k + 1 => do
    let opener ← elemAt src.openAfter k
    .ok (opener.filter fun o => pos - 4096 ≤ o)

/-- `Src::matching_close`. The brackets ascend, so the binary search finds the only index there is. -/
def Src.matchingClose (src : Src) (opener : ℕ) : Except Fault (Option ℕ) :=
  match src.brackets.findIdx? (· == opener) with
  | some k => elemAt src.close k
  | none => .ok none

/-- `Src::line_no`. -/
def Src.lineNo (src : Src) (pos : ℕ) : ℕ := partitionPoint (· ≤ pos) src.lineStarts

/-- `u8::is_ascii_whitespace`. -/
def isAsciiWhitespace (b : UInt8) : Bool := b == 9 || b == newline || b == 12 || b == 13 || b == space

def trimAscii (bytes : List UInt8) : List UInt8 := (bytes.dropWhile isAsciiWhitespace).rdropWhile isAsciiWhitespace

/-- `n - 1`, which must not wrap. -/
def decr (n : ℕ) : Except Fault ℕ := if n = 0 then .error .outOfRange else .ok (n - 1)

/-- Where line `l` ends: before the newline that the next line comes after, or with the text. -/
def Src.lineEnd (src : Src) (l : ℕ) : Except Fault ℕ :=
  match src.lineStarts[l]? with
  | some n => decr n
  | none => .ok src.m.length

/-- `Src::line_of`. -/
def Src.lineOf (src : Src) (pos : ℕ) : Except Fault (List UInt8) := do
  let l := src.lineNo pos
  let lo ← elemAt src.lineStarts (← decr l)
  let hi ← src.lineEnd l
  trimAscii <$> slice src.m lo hi

end CodeGraph.Graph.Boundaries
