import Mathlib.Data.List.Basic

/-!
# The translation of basic patterns

`breToRustRegex` of `pre-grep-guide.js`, which writes a basic pattern as one for `cg grep`, and `bracketEnd`.
-/

namespace CodeGraph.Plugin.Patterns

/-- `BRE_SWAPPED`. -/
def breSwapped : List Char := ['(', ')', '{', '}', '+', '?', '|']

/-- `BRE_SAME_ESCAPE`. -/
def breSameEscape : List Char :=
  ['w', 's', 'S', 'b', 'B', '<', '>', '.', '*', '[', ']', '^', '$', '\\', '/']

/-- How far the `]` is that closes a bracket. -/
def bracketLoop : List Char → Option ℕ
  | [] => none
  | c :: rest =>
    if c = ']' then some 0
    else if c = '\\' ∨ c = '[' then none
    else if c ∈ ['&', '-', '~'] ∧ rest.head? = some c then none
    else (bracketLoop rest).map (· + 1)

/-- `bracketEnd`, counted from behind the `[`. -/
def bracketEnd (text : List Char) : Option ℕ :=
  let j := if text.head? = some '^' then 1 else 0
  if (text.drop j).head? = some ']' then none else (bracketLoop (text.drop j)).map (j + ·)

/-- `out`, `altStart`, `anchor` and `assertion`. -/
structure Scan where
  out : List Char
  altStart : Bool
  anchor : Bool
  assertion : Bool

/-- The characters at a place of the pattern that an alternative ends with. -/
def endsAlternative (rest : List Char) : Bool :=
  rest = [] ∨ ['\\', ')'] <+: rest ∨ ['\\', '|'] <+: rest

/-- The body of the loop for an escape with `n`, before `rest`. -/
def scanEscape (s : Scan) (n : Char) (rest : List Char) : Option Scan :=
  if n = '(' ∧ ['\\', ')'] <+: rest then none
  else if s.assertion ∧ n ∈ ['+', '?', '{'] then none
  else
    let out :=
      if n ∈ breSwapped then some (s.out ++ [n])
      else if n ∈ breSameEscape then some (s.out ++ ['\\', n])
      else none
    out.map fun out => ⟨out, n = '(' ∨ n = '|', false, n ∈ ['b', 'B', '<', '>']⟩

/-- The body of the loop for another character, but for a bracket. -/
def scanChar (s : Scan) (c : Char) (rest : List Char) : Option Scan :=
  let anchor : Bool := c = '^' ∧ s.altStart
  if c = '*' ∧ s.assertion then none
  else if c = '^' ∧ ¬s.altStart then none
  else if c = '*' ∧ (s.altStart ∨ s.anchor ∧ ['^'] <:+ s.out) then none
  else if c = '$' ∧ ¬endsAlternative rest then none
  else if c ∈ breSwapped then some ⟨s.out ++ ['\\', c], false, anchor, anchor⟩
  else some ⟨s.out ++ [c], false, anchor, anchor⟩

/-- The loop of `breToRustRegex`. A bracket is copied as a whole, and its characters are passed over. -/
def scanLoop : ℕ → Scan → List Char → Option (List Char)
  | _, s, [] => some s.out
  | skip + 1, s, _ :: rest => scanLoop skip s rest
  | 0, s, c :: rest =>
    match if c = '\\' then rest.head? else none with
    | some n => (scanEscape s n rest.tail).bind fun s => scanLoop 1 s rest
    | none =>
      if c = '[' then
        (bracketEnd rest).bind fun n =>
          scanLoop (n + 1) ⟨s.out ++ '[' :: rest.take (n + 1), false, false, false⟩ rest
      else (scanChar s c rest).bind fun s => scanLoop 0 s rest

/-- `breToRustRegex`. -/
def breToRustRegex (pattern : List Char) : Option (List Char) := scanLoop 0 ⟨[], true, false, false⟩ pattern

example : breToRustRegex "fn \\(x\\)\\+".toList = some "fn (x)+".toList := by decide

end CodeGraph.Plugin.Patterns
