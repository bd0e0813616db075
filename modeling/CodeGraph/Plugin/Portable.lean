import CodeGraph.Plugin.Patterns
import CodeGraph.Plugin.Dialects

/-!
# Extended patterns that are passed on

`portableExtended` of the search hook lets the pattern of `grep -E` or `grep -P` through as it is, or declines it. The
loop over the pattern goes by what stands before a character (`Flags`), and passes over what a step has read ahead.
-/

namespace CodeGraph.Plugin.Patterns

/-- `EXT_SAME_ESCAPE`. -/
def extSameEscape : List Char :=
  ['w', 's', 'S', 'b', 'B', '.', '[', ']', '^', '$', '*', '+', '?', '(', ')', '{', '}', '|', '\\', '/']

/-- `atomStart`, `quantified`, `assertion` and `altStart`. -/
structure Flags where
  atomStart : Bool
  quantified : Bool
  assertion : Bool
  altStart : Bool
  deriving DecidableEq

namespace Flags

def start : Flags := ⟨true, false, false, true⟩

/-- Behind a piece that a quantifier can repeat. -/
def piece : Flags := ⟨false, false, false, false⟩

end Flags

/-- How many characters `\d+(?:,\d*)?\}` takes behind the `{`. -/
def countLength (text : List Char) : Option ℕ :=
  let least := text.takeWhile digit
  if least = [] then none
  else match text.dropWhile digit with
    | '}' :: _ => some (least.length + 1)
    | ',' :: rest =>
      let most := rest.takeWhile digit
      match rest.dropWhile digit with
      | '}' :: _ => some (least.length + most.length + 2)
      | _ => none
    | _ => none

/-- The body of the loop of `portableExtended`: the flags behind `c`, and how many characters behind it are read. -/
def portableStep (perl : Bool) (f : Flags) (c : Char) (rest : List Char) : Option (Flags × ℕ) :=
  if c = '\\' then
    match rest with
    | [] => none
    | n :: _ =>
      if n ∈ extSameEscape ∨ perl = false ∧ (n = '<' ∨ n = '>') then
        some ({ Flags.piece with assertion := n ∈ ['b', 'B', '<', '>'] }, 1)
      else none
  else if c ∈ ['*', '+', '?', '{'] then
    if f.atomStart ∨ f.quantified ∨ f.assertion then none
    else (if c = '{' then countLength rest else some 0).map ({ f with quantified := true, altStart := false }, ·)
  else if c = '^' ∧ ¬f.altStart then none
  else if c = '$' ∧ rest ≠ [] ∧ ¬(rest.head? = some ')' ∨ rest.head? = some '|') then none
  else if c = '}' then none
  else if c ∈ ['(', '|', '^'] then some (⟨true, false, false, c = '(' ∨ c = '|'⟩, 0)
  else if c ≠ '[' then some (Flags.piece, 0)
  else (bracketEnd rest).map fun n => (Flags.piece, n + 1)

/-- The loop of `portableExtended`. -/
def portableLoop (perl : Bool) : ℕ → Flags → List Char → Bool
  | _, _, [] => true
  | skip + 1, f, _ :: rest => portableLoop perl skip f rest
  | 0, f, c :: rest =>
    match portableStep perl f c rest with
    | none => false
    | some (f, n) => portableLoop perl n f rest

def portableExtended (pattern : List Char) (perl : Bool) : Option (List Char) :=
  if portableLoop perl 0 .start pattern then some pattern else none

example : portableExtended "(a|b{2,})+$".toList false = some "(a|b{2,})+$".toList := by decide

example : portableExtended "a+?".toList true = none := by decide

end CodeGraph.Plugin.Patterns
