import CodeGraph.Search.FtsSearch

/-!
# Fuzzy names

`find_functions_by_fuzzy_name` and `levenshtein` of `storage/queries/search.rs`. The rows are those of `nodes` joined
with `files`, in the order in which the database goes through them.
-/

namespace CodeGraph.Search.Fuzzy

open CodeGraph.Lib
open CodeGraph.Storage (escapeLike)
open CodeGraph.Utils
open CodeGraph.Search.Fts (byteLen)

/-! ### Levenshtein distance -/

section Levenshtein

variable {α : Type*} [DecidableEq α]

/-- `curr`, from the cell `left` on; `prev` starts with the cell above it. -/
def fillRow (x : α) : ℕ → List ℕ → List α → List ℕ
  | left, across :: above :: prev, y :: ys =>
    left :: fillRow x (min (min (above + 1) (left + 1)) (across + if x = y then 0 else 1)) (above :: prev) ys
  | left, _, _ => [left]

/-- The rows from the `i`-th on. -/
def fillRows (b : List α) : ℕ → List ℕ → List α → List ℕ
  | _, prev, [] => prev
  | i, prev, x :: a => fillRows b (i + 1) (fillRow x i prev b) a

def levenshtein (a b : List α) : ℕ :=
  if a.length = 0 then b.length
  else if b.length = 0 then a.length
  else (fillRows b 1 (List.range (b.length + 1)) a).getD b.length 0

end Levenshtein

/-! ### Candidates -/

/-- A row with what is asked of it; `name_tokens` is matched and not returned. -/
structure NameCandidate where
  name : String
  nameTokens : Option String
  filePath : String
  nodeType : String
  nodeId : ℕ
  startLine : ℕ
  deriving DecidableEq

def eligible (c : NameCandidate) : Bool := c.nodeType != "module" && c.filePath != "<external>"

def substringPattern (s : List Char) : String := String.ofList ('%' :: escapeLike s ++ ['%'])

section Find

variable (U : Unicode) (partialName : List Char)

/-- The name or the words of it contain what was asked for. -/
def likeName (c : NameCandidate) : Bool :=
  likeEscape '\\' (substringPattern partialName) c.name ||
    c.nameTokens.any (likeEscape '\\' (substringPattern (splitIdentifierTokens U partialName)))

/-- The name itself first, then names that start with it. -/
def nameBucket (c : NameCandidate) : ℕ :=
  if c.name.toList = partialName then 0
  else if likeEscape '\\' (String.ofList (escapeLike partialName ++ ['%'])) c.name then 1
  else 2

def likeResults (rows : List NameCandidate) : List NameCandidate :=
  (sortByKey (fun c : NameCandidate => toLex (nameBucket partialName c, c.name.length))
    (rows.filter fun c => likeName U partialName c && eligible c)).take 10

def maxDist (n : ℕ) : ℕ := if n ≤ 3 then 1 else if n ≤ 7 then 2 else 3

/-- `FUZZY_EDIT_DISTANCE_SQL`. -/
def editPool (rows : List NameCandidate) : List NameCandidate :=
  (sortByKey NameCandidate.nodeId (rows.filter eligible)).take 5000

def nameDistance (c : NameCandidate) : ℕ :=
  levenshtein (U.toLowercase partialName) (U.toLowercase c.name.toList)

def editResults (rows : List NameCandidate) : List NameCandidate :=
  let maxDist := maxDist (byteLen (U.toLowercase partialName))
  let scored := ((editPool rows).map fun c => (nameDistance U partialName c, c)).filter fun s => s.1 ≤ maxDist
  ((sortByKey (fun s : ℕ × NameCandidate => toLex (s.1, byteLen s.2.name.toList)) scored).take 10).map Prod.snd

def findFunctionsByFuzzyName (rows : List NameCandidate) : List NameCandidate :=
  let results := likeResults U partialName rows
  if results ≠ [] then results else editResults U partialName rows

end Find

end CodeGraph.Search.Fuzzy
