import CodeGraph.Lib.Regex
import CodeGraph.Pipeline.InFlight

/-!
# Two dialects of patterns

What a basic regular expression and a regex of rust mean. Both are cut into tokens (`Basic.token`, `Rust.token`), and
the tokens are read by one reader (`Reading.step`), which differs in the places where the dialects do: what a quantifier
does that has nothing before it, where `^` and `$` are anchors, and the `?` that makes a quantifier lazy.
-/

namespace CodeGraph.Plugin.Patterns

open CodeGraph.Lib
open CodeGraph.Pipeline.InFlight (isWhitespace)

/-- Which quantifier, and for a count its bounds. -/
inductive Quantifier
  | star | plus | opt
  | count (least : ℕ) (most : Option ℕ)
  deriving DecidableEq

namespace Quantifier

def least : Quantifier → ℕ
  | star | opt => 0
  | plus => 1
  | count n _ => n

def most : Quantifier → Option ℕ
  | star | plus => none
  | opt => some 1
  | count _ m => m

/-- The character that it is where it repeats nothing. -/
def literal : Quantifier → Option Char
  | star => some '*'
  | plus => some '+'
  | opt => some '?'
  | count .. => none

end Quantifier

/-- `beyond` is what the readers here do not know. -/
inductive Token
  | lit (c : Char)
  | escape (n : Char)
  | any
  | members (negated : Bool) (ranges : List (Char × Char))
  | hat | dollar | bar | opened | closed
  | quant (q : Quantifier)
  | beyond
  deriving DecidableEq

/-! ### Brackets and counts -/

/-- The members of a bracket as ranges. A `-` between two members makes a range of them. -/
def ranges : List Char → Option (List (Char × Char))
  | a :: '-' :: b :: rest => if a ≤ b then (ranges rest).map ((a, b) :: ·) else none
  | a :: rest => (ranges rest).map ((a, a) :: ·)
  | [] => some []

/-- The members of a bracket, and the characters to behind its `]`. A `]` is a member where it comes first. -/
def bracketMembers : List Char → Option (List Char × ℕ)
  | [] => none
  | c :: rest =>
    let more := rest.takeWhile (· ≠ ']')
    if more.length = rest.length then none else some (c :: more, more.length + 2)

/-- Whether a bracket is negated, its members, and the characters from behind the `[` to behind the `]`. -/
def bracketParts (text : List Char) : Option (Bool × List Char × ℕ) :=
  if text.head? = some '^' then (bracketMembers text.tail).map fun (chars, n) => (true, chars, n + 1)
  else (bracketMembers text).map fun (chars, n) => (false, chars, n)

def digit (c : Char) : Bool := 48 ≤ c.toNat ∧ c.toNat ≤ 57

def value (digits : List Char) : ℕ := digits.foldl (fun n c => 10 * n + (c.toNat - 48)) 0

/-- The bounds of a count, the second one in digits. -/
def bounds (least : ℕ) (most : List Char) : Option Quantifier :=
  if most = [] then some (.count least none)
  else if value most < least then none
  else some (.count least (some (value most)))

/-! ### Basic regular expressions -/

namespace Basic

/-- A bracket has no escapes. Classes in it are not read here. -/
def bracket (text : List Char) : Option (Token × ℕ) :=
  (bracketParts text).bind fun (negated, chars, n) =>
    if [['[', ':'], ['[', '.'], ['[', '=']].any (· <:+: chars) then none
    else (ranges chars).map fun l => (.members negated l, n)

/-- The count behind `\{`, and the characters to behind its `\}`. Without the first number it is zero. -/
def count (text : List Char) : Option (Quantifier × ℕ) :=
  let least := text.takeWhile digit
  match text.dropWhile digit with
  | '\\' :: '}' :: _ =>
    if least = [] then none else some (.count (value least) (some (value least)), least.length + 2)
  | ',' :: rest =>
    let most := rest.takeWhile digit
    match rest.dropWhile digit with
    | '\\' :: '}' :: _ => (bounds (value least) most).map (·, least.length + most.length + 3)
    | _ => none
  | _ => none

/-- An escape, but for `\{`. -/
def escape (n : Char) : Option Token :=
  if n = '(' then some .opened
  else if n = ')' then some .closed
  else if n = '|' then some .bar
  else if n = '+' then some (.quant .plus)
  else if n = '?' then some (.quant .opt)
  else if n = '}' then some (.lit '}')
  else if n ∈ ['w', 's', 'S', 'b', 'B', '<', '>', '.', '*', '[', ']', '^', '$', '\\', '/'] then some (.escape n)
  else none

def plain (c : Char) : Token :=
  if c = '*' then .quant .star
  else if c = '.' then .any
  else if c = '^' then .hat
  else if c = '$' then .dollar
  else .lit c

/-- The token that `c` opens, and how many of the characters behind belong to it. -/
def token (c : Char) (rest : List Char) : Option (Token × ℕ) :=
  if c = '\\' then
    match rest with
    | [] => none
    | n :: after => if n = '{' then (count after).map fun (q, k) => (.quant q, k + 1) else (escape n).map (·, 1)
  else if c = '[' then bracket rest
  else some (plain c, 0)

end Basic

/-! ### Regexes of rust -/

namespace Rust

/-- `&&`, `--` and `~~` are operators in a bracket. -/
def doubled : List Char → Bool
  | a :: b :: rest => (a ∈ ['&', '-', '~'] ∧ a = b) ∨ doubled (b :: rest)
  | _ => false

def bracket (text : List Char) : Option (Token × ℕ) :=
  (bracketParts text).bind fun (negated, chars, n) =>
    if '\\' ∈ chars ∨ '[' ∈ chars ∨ doubled chars then some (.beyond, n)
    else (ranges chars).map fun l => (.members negated l, n)

/-- A number, with blanks around it. -/
def decimal (text : List Char) : List Char × List Char :=
  let text := text.dropWhile isWhitespace
  (text.takeWhile digit, (text.dropWhile digit).dropWhile isWhitespace)

/-- The count behind `{`, and what is behind its `}`. -/
def countAndRest (text : List Char) : Option (Quantifier × List Char) :=
  let (least, rest) := decimal text
  if least = [] then none
  else if rest.head? = some '}' then some (.count (value least) (some (value least)), rest.tail)
  else if rest.head? = some ',' then
    if rest.tail.head? = some '}' then some (.count (value least) none, rest.tail.tail)
    else
      let (most, rest) := decimal rest.tail
      if most ≠ [] ∧ rest.head? = some '}' then (bounds (value least) most).map (·, rest.tail) else none
  else none

/-- The count behind `{`, and the characters to behind its `}`. -/
def count (text : List Char) : Option (Quantifier × ℕ) :=
  (countAndRest text).map fun (q, rest) => (q, text.length - rest.length)

/-- An escape. Escapes with other characters are not read here, nor is `\b{`. -/
def escape (n : Char) (rest : List Char) : Token :=
  if n ∈ ['(', ')', '{', '}', '+', '?', '|'] then .lit n
  else if n = 'b' ∧ rest.head? = some '{' then .beyond
  else if n ∈ ['w', 's', 'S', 'b', 'B', '<', '>', '.', '*', '[', ']', '^', '$', '\\', '/'] then .escape n
  else .beyond

/-- A character before `rest`. Groups with flags are not read here. -/
def plain (c : Char) (rest : List Char) : Token :=
  if c = '(' then if rest.head? = some '?' then .beyond else .opened
  else if c = ')' then .closed
  else if c = '|' then .bar
  else if c = '*' then .quant .star
  else if c = '+' then .quant .plus
  else if c = '?' then .quant .opt
  else if c = '.' then .any
  else if c = '^' then .hat
  else if c = '$' then .dollar
  else .lit c

/-- The token that `c` opens, and how many of the characters behind belong to it. -/
def token (c : Char) (rest : List Char) : Option (Token × ℕ) :=
  if c = '\\' then
    match rest with
    | [] => none
    | n :: after => some (escape n after, 1)
  else if c = '[' then bracket rest
  else if c = '{' then (count rest).map fun (q, k) => (.quant q, k)
  else some (plain c rest, 0)

end Rust

/-! ### Reading tokens -/

/-- The tokens of a text, up to one that the readers do not know. -/
def cut (token : Char → List Char → Option (Token × ℕ)) : ℕ → List Char → Option (List Token)
  | _, [] => some []
  | skip + 1, _ :: rest => cut token skip rest
  | 0, c :: rest => (token c rest).bind fun (t, k) =>
    if t = .beyond then some [.beyond] else (cut token k rest).map (t :: ·)

inductive Dialect
  | basic | rust
  deriving DecidableEq

/-- What an alternative ended with so far: nothing, a `^`, another piece, or a quantifier. -/
inductive Last
  | start | hat | piece | repeated
  deriving DecidableEq

/-- An open group: its finished alternatives, and the pieces of the open one, each the latest first. -/
structure Group where
  alternatives : List (Re Char)
  pieces : List (Re Char)

def Group.re (g : Group) : Re Char := Re.altAll g.alternatives (Re.seqAll g.pieces)

/-- The groups around, the innermost one, and how it ends. -/
structure Reading where
  outer : List Group
  inner : Group
  last : Last

section

variable (word space : Char → Bool)

/-- The classes, the assertions about words, and a character for itself. -/
def escapeRe (n : Char) : Re Char :=
  let before (l : List Char) : Bool := l.getLast?.any word
  let behind (l : List Char) : Bool := l.head?.any word
  if n = 'w' then .one word
  else if n = 's' then .one space
  else if n = 'S' then .one fun c => !space c
  else if n = 'b' then .look fun l l' => before l != behind l'
  else if n = 'B' then .look fun l l' => before l == behind l'
  else if n = '<' then .look fun l l' => !before l && behind l'
  else if n = '>' then .look fun l l' => before l && !behind l'
  else .one (· = n)

namespace Reading

def push (r : Re Char) (last : Last) (s : Reading) : Reading :=
  { s with inner := { s.inner with pieces := r :: s.inner.pieces }, last := last }

/-- The quantifier on the last piece. -/
def repeatLast (q : Quantifier) (s : Reading) : Option Reading :=
  match s.inner.pieces with
  | [] => none
  | r :: pieces =>
    some { s with inner := { s.inner with pieces := .rep r q.least q.most :: pieces }, last := .repeated }

/-- A quantifier. It is a literal in a basic expression where it repeats nothing; a `?` behind another quantifier makes
that one lazy in rust. -/
def quantify (d : Dialect) (q : Quantifier) (s : Reading) : Option Reading :=
  match d, s.last with
  | .basic, .start | .basic, .hat => q.literal.map fun c => s.push (.one (· = c)) .piece
  | .rust, .start => none
  | .rust, .repeated => if q = .opt then some { s with last := .piece } else s.repeatLast q
  | _, _ => s.repeatLast q

/-- One token. `atEnd` says that an alternative ends behind it. -/
def step (d : Dialect) (atEnd : Bool) (s : Reading) : Token → Option Reading
  | .lit c => some (s.push (.one (· = c)) .piece)
  | .escape n => some (s.push (escapeRe word space n) .piece)
  | .any => some (s.push (.one fun c => d = .basic ∨ c ≠ '\n') .piece)
  | .members negated ranges =>
    some (s.push (.one fun c => negated != ranges.any fun range => range.1 ≤ c ∧ c ≤ range.2) .piece)
  | .hat =>
    if d = .basic ∧ s.last ≠ .start then some (s.push (.one (· = '^')) .piece)
    else some (s.push (.look fun before _ => before.isEmpty) .hat)
  | .dollar =>
    if d = .basic ∧ ¬atEnd then some (s.push (.one (· = '$')) .piece)
    else some (s.push (.look fun _ behind => behind.isEmpty) .piece)
  | .bar =>
    some { s with inner := ⟨Re.seqAll s.inner.pieces :: s.inner.alternatives, []⟩, last := .start }
  | .opened => some ⟨s.inner :: s.outer, ⟨[], []⟩, .start⟩
  | .closed =>
    match s.outer with
    | [] => none
    | g :: outer => some (push s.inner.re .piece ⟨outer, g, .piece⟩)
  | .quant q => s.quantify d q
  | .beyond => none

/-- An alternative ends before these tokens. -/
def ends : List Token → Bool
  | [] => true
  | t :: _ => t = .bar ∨ t = .closed

def read (d : Dialect) : Reading → List Token → Option (Re Char)
  | s, [] => if s.outer.isEmpty then some s.inner.re else none
  | s, t :: ts => (s.step word space d (ends ts) t).bind fun s => read d s ts

def start : Reading := ⟨[], ⟨[], []⟩, .start⟩

end Reading

/-- The meaning of a basic regular expression. -/
def Basic.read (text : List Char) : Option (Re Char) := (cut Basic.token 0 text).bind (Reading.start.read word space .basic)

/-- The meaning of a regex of rust, where `beyond` reads what is not read here. -/
def Rust.read (beyond : List Char → Option (Re Char)) (text : List Char) : Option (Re Char) :=
  (cut Rust.token 0 text).bind fun ts =>
    if .beyond ∈ ts then beyond text else Reading.start.read word space .rust ts

end

end CodeGraph.Plugin.Patterns
