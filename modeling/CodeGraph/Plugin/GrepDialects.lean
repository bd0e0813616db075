import CodeGraph.Lib.Backtrack
import CodeGraph.Plugin.Dialects

/-!
# The dialects of `grep -E` and `grep -P`

What an extended regular expression and a Perl pattern mean, from tokens as for the other dialects. Both are read into a
`Pattern`. An extended expression selects the lines of the expression that this is; a Perl pattern is matched by
backtracking, with lazy and possessive quantifiers. Where a standard leaves a pattern open, or where it holds something
that is not read here (groups with `(?`, other escapes, classes in brackets), its meaning is a parameter.
-/

namespace CodeGraph.Plugin.Patterns

open CodeGraph.Lib

inductive Matcher
  | extended | perl
  deriving DecidableEq

namespace Matcher

/-- The bounds between `{` and `}`, and the characters to behind the `}`. Bounds out of order are none. -/
def interval (text : List Char) : Option (Option Quantifier × ℕ) :=
  let least := text.takeWhile digit
  if least = [] then none
  else match text.dropWhile digit with
    | '}' :: _ => some (some (.count (value least) (some (value least))), least.length + 1)
    | ',' :: rest =>
      let most := rest.takeWhile digit
      match rest.dropWhile digit with
      | '}' :: _ => some (bounds (value least) most, least.length + most.length + 2)
      | _ => none
    | _ => none

/-- A bracket. An extended expression has no escapes in it. -/
def bracket (d : Matcher) (text : List Char) : Option (Token × ℕ) :=
  (bracketParts text).bind fun (negated, chars, n) =>
    if ([['[', ':'], ['[', '.'], ['[', '=']].any (· <:+: chars)) ∨ d = .perl ∧ '\\' ∈ chars then some (.beyond, n)
    else (ranges chars).map fun l => (.members negated l, n)

/-- An escape. `\<` and `\>` are characters to Perl. -/
def escape (d : Matcher) (n : Char) : Token :=
  if n ∈ ['(', ')', '{', '}', '+', '?', '|'] then .lit n
  else if d = .perl ∧ (n = '<' ∨ n = '>') then .lit n
  else if n ∈ ['w', 's', 'S', 'b', 'B', '<', '>', '.', '*', '[', ']', '^', '$', '\\', '/'] then .escape n
  else .beyond

/-- A character before `rest`. A newline parts two patterns. -/
def plain (d : Matcher) (c : Char) (rest : List Char) : Token :=
  if c = '\n' then .beyond
  else if c = '(' then if d = .perl ∧ (rest.head? = some '?' ∨ rest.head? = some '*') then .beyond else .opened
  else if c = ')' then .closed
  else if c = '|' then .bar
  else if c = '*' then .quant .star
  else if c = '+' then .quant .plus
  else if c = '?' then .quant .opt
  else if c = '.' then .any
  else if c = '^' then .hat
  else if c = '$' then .dollar
  else .lit c

/-- The token that `c` opens, and how many of the characters behind belong to it. -/
def token (d : Matcher) (c : Char) (rest : List Char) : Option (Token × ℕ) :=
  if c = '\\' then
    match rest with
    | [] => none
    | n :: _ => some (d.escape n, 1)
  else if c = '[' then d.bracket rest
  else if c = '{' then
    match interval rest with
    | none => some (.beyond, 0)
    | some (q, n) => q.map (.quant ·, n)
  else some (d.plain c rest, 0)

end Matcher

/-- What matches no character, or an alternative that just starts. -/
def Token.isEmpty (t : Token) : Bool :=
  t ∈ [.opened, .bar, .hat, .dollar, .escape 'b', .escape 'B', .escape '<', .escape '>']

def Token.isQuant : Token → Bool
  | .quant _ => true
  | _ => false

/-- A quantifier that has nothing to repeat. -/
def loose : Bool → List Token → Bool
  | _, [] => false
  | empty, t :: ts => (empty && t.isQuant) || loose t.isEmpty ts

namespace Matcher

/-- A group: its finished alternatives, and the pieces of the open one, each the latest first. -/
structure Level where
  alternatives : List (Pattern Char)
  pieces : List (Pattern Char)

def Level.pattern (l : Level) : Pattern Char :=
  l.alternatives.foldl (fun p a => .alt a p) (l.pieces.foldl (fun p piece => .seq piece p) .empty)

/-- The groups around, the innermost one, and whether it ends with a quantifier. -/
structure Parse where
  outer : List Level
  inner : Level
  quantified : Bool

namespace Parse

def push (p : Pattern Char) (s : Parse) : Parse :=
  { s with inner := { s.inner with pieces := p :: s.inner.pieces }, quantified := false }

/-- A quantifier on a piece. Behind another quantifier it repeats once more in an extended expression; in Perl a `?`
makes that one lazy there, and a `+` possessive. -/
def repeated (d : Matcher) (q : Quantifier) (quantified : Bool) (p : Pattern Char) : Option (Pattern Char) :=
  if d = .perl ∧ quantified then
    match q, p with
    | .opt, .rep p least most .greedy => some (.rep p least most .lazy)
    | .plus, .rep p least most .greedy => some (.rep p least most .possessive)
    | _, _ => none
  else some (.rep p q.least q.most .greedy)

def quantify (d : Matcher) (q : Quantifier) (s : Parse) : Option Parse :=
  match s.inner.pieces with
  | [] => none
  | p :: pieces =>
    (repeated d q s.quantified p).map fun p =>
      { s with inner := { s.inner with pieces := p :: pieces }, quantified := true }

variable (word space : Char → Bool)

/-- One token. In Perl the end of the line is also before a last newline. -/
def step (d : Matcher) (s : Parse) : Token → Option Parse
  | .lit c => some (s.push (.one (· = c)))
  | .escape n => some (s.push (.ofRe (escapeRe word space n)))
  | .any => some (s.push (.one fun c => d = .extended ∨ c ≠ '\n'))
  | .members negated ranges =>
    some (s.push (.one fun c => negated != ranges.any fun range => range.1 ≤ c ∧ c ≤ range.2))
  | .hat => some (s.push (.look fun before _ => before.isEmpty))
  | .dollar => some (s.push (.look fun _ behind => behind.isEmpty ∨ d = .perl ∧ behind = ['\n']))
  | .bar =>
    some ⟨s.outer, ⟨s.inner.pieces.foldl (fun p piece => .seq piece p) .empty :: s.inner.alternatives, []⟩, false⟩
  | .opened => some ⟨s.inner :: s.outer, ⟨[], []⟩, false⟩
  | .closed =>
    match s.outer with
    | [] => none
    | l :: outer => some (push s.inner.pattern ⟨outer, l, false⟩)
  | .quant q => s.quantify d q
  | .beyond => none

def read (d : Matcher) : Parse → List Token → Option (Pattern Char)
  | s, [] => if s.outer.isEmpty then some s.inner.pattern else none
  | s, t :: ts => (s.step word space d t).bind fun s => read d s ts

def start : Parse := ⟨[], ⟨[], []⟩, false⟩

end Parse

/-- The lines that a pattern selects. -/
def lines : Matcher → Pattern Char → List Char → Prop
  | .extended, p => p.toRe.Selects
  | .perl, p => fun line => p.finds line = true

/-- The lines that a text selects, where `beyond` reads what is not read here. -/
def read (word space : Char → Bool) (d : Matcher) (beyond : List Char → Option (List Char → Prop)) (text : List Char) :
    Option (List Char → Prop) :=
  (cut d.token 0 text).bind fun ts =>
    if .beyond ∈ ts ∨ loose true ts = true then beyond text
    else (Parse.start.read word space d ts).map d.lines

end Matcher

end CodeGraph.Plugin.Patterns
