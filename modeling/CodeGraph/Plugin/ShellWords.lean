import CodeGraph.Lib.Quoting
import CodeGraph.Plugin.Adopt
import CodeGraph.Plugin.Version

/-!
# The readers of a shell clause

The scanners of `pre-grep-guide.js` that read one clause of a command, or its first one: `firstShellClause`,
`quotedSpans`, `clauseWords`, `splitKeepingQuotes` and `extractUnansweredTail`. Each loop is written over the characters
that are left; its first argument counts those that it still skips.
-/

namespace CodeGraph.Plugin.Shell

open CodeGraph.Lib (trim)
open CodeGraph.Lib.Quoting (apostrophe grave)
open CodeGraph.Plugin.Adopt (jsSpace)

def isQuote (c : Char) : Bool := c = '"' ∨ c = apostrophe

/-- `length`, in code units. -/
def jsLength (s : List Char) : ℕ := (utf16 s).length

/-! ### Clauses -/

/-- The loop of `firstShellClause` at place `i`: the place where the clause ends. -/
def clauseLoop : ℕ → Option Char → ℕ → List Char → ℕ
  | _, _, i, [] => i
  | skip + 1, quote, i, _ :: rest => clauseLoop skip quote i rest
  | 0, some q, i, c :: rest =>
    if q = '"' ∧ c = '\\' ∧ rest ≠ [] then clauseLoop 1 (some q) (i + 2) rest
    else clauseLoop 0 (if c = q then none else some q) (i + 1) rest
  | 0, none, i, c :: rest =>
    if c = '\\' then clauseLoop 1 none (i + 2) rest
    else if isQuote c then clauseLoop 0 (some c) (i + 1) rest
    else if c = ';' ∨ c = '|' ∨ c = '\n' then i
    else if c = '&' ∧ rest.head? = some '&' then i
    else clauseLoop 0 none (i + 1) rest

def firstShellClause (cmd : List Char) : List Char := cmd.take (clauseLoop 0 none 0 cmd)

/-- The loop of `extractUnansweredTail`: what is behind the separator. -/
def tailLoop : ℕ → Option Char → List Char → Option (List Char)
  | _, _, [] => none
  | skip + 1, quote, _ :: rest => tailLoop skip quote rest
  | 0, some q, c :: rest =>
    if q = '"' ∧ c = '\\' ∧ rest ≠ [] then tailLoop 1 (some q) rest
    else tailLoop 0 (if c = q then none else some q) rest
  | 0, none, c :: rest =>
    if c = '\\' then tailLoop 1 none rest
    else if isQuote c then tailLoop 0 (some c) rest
    else if c = ';' then some rest
    else if c = '&' ∧ rest.head? = some '&' then some rest.tail
    else tailLoop 0 none rest

def extractUnansweredTail (cmd : List Char) : Option (List Char) :=
  if cmd = [] ∨ 2000 < jsLength cmd then none
  else (tailLoop 0 none cmd).bind fun tail =>
    let tail := trim jsSpace tail
    if tail = [] then none else some tail

/-! ### Quotes -/

/-- What a backslash between double quotes escapes for `quotedSpans` and `clauseWords`. -/
def escapedNext (q c : Char) (rest : List Char) : Option Char :=
  if q = '"' ∧ c = '\\' then rest.head?.filter fun n => n ∈ ['"', '\\', '$', grave, '\n'] else none

structure Span where
  start : ℕ
  stop : ℕ
  body : List Char
  deriving DecidableEq

/-- The loops of `quotedSpans` at `pos`. The second argument is the open quote, with its place and its body. -/
def spansLoop : ℕ → Option (Char × ℕ × List Char) → ℕ → List Char → List Span
  | _, _, _, [] => []
  | skip + 1, quoted, pos, c :: rest => spansLoop skip quoted (pos + jsLength [c]) rest
  | 0, none, pos, c :: rest =>
    if c = '\\' then spansLoop 1 none (pos + jsLength [c]) rest
    else if isQuote c then spansLoop 0 (some (c, pos, [])) (pos + jsLength [c]) rest
    else spansLoop 0 none (pos + jsLength [c]) rest
  | 0, some (q, start, body), pos, c :: rest =>
    let next := pos + jsLength [c]
    if c = q then ⟨start, next, body⟩ :: spansLoop 0 none next rest
    else match escapedNext q c rest with
      | some n => spansLoop 1 (some (q, start, if n = '\n' then body else body ++ [n])) next rest
      | none => spansLoop 0 (some (q, start, body ++ [c])) next rest

def quotedSpans (s : List Char) : List Span := spansLoop 0 none 0 s

/-! ### Words -/

structure Word where
  text : List Char
  startsQuoted : Bool
  quotedFrom : Option ℕ
  expands : Bool
  deriving DecidableEq

/-- `expandsAt`, at `c` before `rest`. -/
def expandsAt (inDouble : Bool) (c : Char) (rest : List Char) : Bool :=
  let name (n : Char) : Bool := n.isAlphanum || n ∈ ['_', '{', '(', '@', '*', '#', '?', '$', '!', '-']
  c = grave || (c = '$' && rest.head?.any fun n => name n || (!inDouble && isQuote n))

/-- Between words, in a word, or between quotes of a word. -/
inductive WordScan
  | between
  | word (w : Word)
  | quoted (q : Char) (w : Word)

/-- The word that a character goes on with: the open one, or one that it starts. -/
def WordScan.current (c : Char) : WordScan → Word
  | between => ⟨[], isQuote c, none, false⟩
  | word w | quoted _ w => w

/-- The loops of `clauseWords`. -/
def wordsLoop : ℕ → WordScan → List Char → Option (List Word)
  | _, .between, [] => some []
  | _, .word w, [] => some [w]
  | _, .quoted _ _, [] => none
  | skip + 1, scan, _ :: rest => wordsLoop skip scan rest
  | 0, .quoted q w, c :: rest =>
    if c = q then wordsLoop 0 (.word w) rest
    else match escapedNext q c rest with
      | some n => wordsLoop 1 (.quoted q { w with text := if n = '\n' then w.text else w.text ++ [n] }) rest
      | none =>
        wordsLoop 0 (.quoted q { w with
          text := w.text ++ [c], expands := w.expands || (q = '"' && expandsAt true c rest) }) rest
  | 0, scan, c :: rest =>
    if c = ' ' ∨ c = '\t' ∨ c = '\n' then
      match scan with
      | .word w => (wordsLoop 0 .between rest).map (w :: ·)
      | _ => wordsLoop 0 .between rest
    else
      let w := scan.current c
      if c = '\\' then
        wordsLoop 1 (.word { w with text := w.text ++ (rest.head?.filter (· ≠ '\n')).toList }) rest
      else if isQuote c then
        wordsLoop 0 (.quoted c { w with quotedFrom := w.quotedFrom.or (some (jsLength w.text)) }) rest
      else wordsLoop 0 (.word { w with text := w.text ++ [c], expands := w.expands || expandsAt false c rest }) rest

def clauseWords (s : List Char) : Option (List Word) := wordsLoop 0 .between s

/-- A part that is written out only if it holds anything. -/
def pushed (cur : List Char) (out : List (List Char)) : List (List Char) := if cur = [] then out else cur :: out

/-- The loop of `splitKeepingQuotes`. -/
def keepLoop : ℕ → Option Char → List Char → List Char → List (List Char)
  | _, _, cur, [] => pushed cur []
  | skip + 1, quote, cur, _ :: rest => keepLoop skip quote cur rest
  | 0, some q, cur, c :: rest =>
    if q = '"' ∧ c = '\\' ∧ rest ≠ [] then keepLoop 1 (some q) (cur ++ c :: rest.take 1) rest
    else keepLoop 0 (if c = q then none else some q) (cur ++ [c]) rest
  | 0, none, cur, c :: rest =>
    if c = '\\' ∧ rest ≠ [] then keepLoop 1 none (cur ++ c :: rest.take 1) rest
    else if isQuote c then keepLoop 0 (some c) (cur ++ [c]) rest
    else if jsSpace c then
      let blanks := rest.takeWhile jsSpace
      pushed cur ((c :: blanks) :: keepLoop blanks.length none [] rest)
    else keepLoop 0 none (cur ++ [c]) rest

def splitKeepingQuotes (s : List Char) : List (List Char) := keepLoop 0 none [] s

end CodeGraph.Plugin.Shell
