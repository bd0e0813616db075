import CodeGraph.Lib.Brackets
import CodeGraph.Lib.FirstFit
import CodeGraph.Lib.Tally
import Mathlib.Data.Int.Notation

/-!
# Changed signatures

The Stop hook's comparison of the definitions of one symbol before and after a turn 
(`claude-plugin/scripts/stop-impact.js`). A signature key is a header without whitespace.
-/

namespace CodeGraph.Plugin.StopImpact

open CodeGraph.Lib

/-- `bracketStep`: the character and the one before it. -/
def bracketStep (before : Option Char) (c : Char) : ℤ :=
  if c ∈ ['(', '[', '{', '<'] then 1
  else if c ∈ [')', ']', '}'] ∨ c = '>' ∧ before ≠ some '=' ∧ before ≠ some '-' then -1
  else 0

/-- `Math.max(0, depth + step)` -/
def depthAfter (depth : ℕ) (step : ℤ) : ℕ := (depth + step).toNat

def splitTopLevelLoop (depth : ℕ) (before : Option Char) (piece : List Char) : List Char → List (List Char)
  | [] => [piece]
  | c :: rest =>
    let step := bracketStep before c
    if step ≠ 0 then splitTopLevelLoop (depthAfter depth step) (some c) (piece ++ [c]) rest
    else if c = ',' ∧ depth = 0 then piece :: splitTopLevelLoop depth (some c) [] rest
    else splitTopLevelLoop depth (some c) (piece ++ [c]) rest

/-- `splitTopLevel`: split at the commas outside brackets. -/
def splitTopLevel (s : List Char) : List (List Char) := splitTopLevelLoop 0 none [] s

def isOptionalLoop (depth : ℕ) (before : Option Char) : List Char → Bool
  | [] => false
  | c :: rest =>
    let step := bracketStep before c
    if step ≠ 0 then isOptionalLoop (depthAfter depth step) (some c) rest
    else if depth ≠ 0 then isOptionalLoop depth (some c) rest
    else if c = '.' ∧ ['.', '.'] <+: rest then true
    else if c = '?' ∧ (rest.head? = some ':' ∨ rest = []) then true
    else if c = '=' ∧ rest.head? ≠ some '>' then true
    else isOptionalLoop depth (some c) rest

/-- `isOptionalParam`: a default value, `x?`, or a variadic. -/
def isOptionalParam (p : List Char) : Bool :=
  if p = [] then false
  else if p.head? = some '*' then true
  else isOptionalLoop 0 none p

/-- How far the keys agree from the left. -/
def agree : List Char → List Char → ℕ
  | a :: old, b :: new => if a = b then agree old new + 1 else 0
  | _, _ => 0

/-- What the search for the opening parenthesis tells apart. -/
def parenKind : Char → Option Bracket
  | '(' => some .opener
  | ')' => some .closer
  | _ => none

/-- `.` of a regular expression matches no line terminator. -/
def noLineTerminator (s : List Char) : Bool := s.all fun c => c ∉ ['\n', '\r', '\u2028', '\u2029']

/-- `(?:<.*>|\[.*\])?` -/
def isGenerics (s : List Char) : Bool :=
  s = [] || 2 ≤ s.length && noLineTerminator s &&
    (s.head? = some '<' && s.getLast? = some '>' || s.head? = some '[' && s.getLast? = some ']')

/-- `(?:=(?:async)?(?:function\*?)?)?` -/
def bindings : List (List Char) :=
  [[], ['='], ['=', 'a', 's', 'y', 'n', 'c'], ['=', 'f', 'u', 'n', 'c', 't', 'i', 'o', 'n'],
    ['=', 'f', 'u', 'n', 'c', 't', 'i', 'o', 'n', '*'],
    ['=', 'a', 's', 'y', 'n', 'c', 'f', 'u', 'n', 'c', 't', 'i', 'o', 'n'],
    ['=', 'a', 's', 'y', 'n', 'c', 'f', 'u', 'n', 'c', 't', 'i', 'o', 'n', '*']]

/-- The test of `opener`: the text ends in the symbol, generics and a binding. -/
def opensParams (symbol text : List Char) : Bool :=
  text.tails.any fun t => symbol.isPrefixOf t &&
    bindings.any fun b => b.isSuffixOf (t.drop symbol.length) &&
      isGenerics ((t.drop symbol.length).take (t.length - symbol.length - b.length))

/-- `appendsOptionalParams` -/
def appendsOptionalParams (oldKey newKey symbol : List Char) : Bool :=
  if newKey.length ≤ oldKey.length then false
  else
    let i := agree oldKey newKey
    if oldKey[i]? ≠ some ')' then false
    else
      let tail := oldKey.drop i
      if ¬tail <:+ newKey then false
      else
        match enclosing parenKind 0 (oldKey.take i).reverse with
        | none => false
        | some opening =>
          if ¬opensParams symbol (oldKey.take opening) then false
          else
            let inserted := (newKey.take (newKey.length - tail.length)).drop i
            if opening + 1 < i ∧ inserted.head? ≠ some ',' then false
            else
              let params := splitTopLevel (if opening + 1 < i then inserted.tail else inserted)
              params.length > 0 && params.all isOptionalParam

/-- One old key in the first loop of `signatureChanged`: the new keys left, and the old keys without an equal one. -/
def matchExact {κ : Type*} [DecidableEq κ] (s : List (κ × ℕ) × List κ) (key : κ) : List (κ × ℕ) × List κ :=
  let n := Tally.get s.1 key
  if n = 0 then (s.1, s.2 ++ [key]) else (Tally.set s.1 key (n - 1), s.2)

/-- `signatureChanged` -/
def signatureChanged (oldSigs newSigs : List (List Char)) (symbol : Option (List Char)) : Bool :=
  let (remaining, unmatched) := oldSigs.foldl matchExact (Tally.count newSigs, [])
  if unmatched = [] then false
  else
    match symbol with
    | none | some [] => true
    | some symbol => !firstFit (fun s t => appendsOptionalParams s t symbol) unmatched (Tally.expand remaining)

end CodeGraph.Plugin.StopImpact
