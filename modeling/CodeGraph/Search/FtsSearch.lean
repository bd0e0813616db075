import CodeGraph.Lib.MatchQuery
import CodeGraph.Lib.Sort
import CodeGraph.Lib.Words
import CodeGraph.Storage.PathUnder
import CodeGraph.Utils.Tokenizer
import Mathlib.Data.Char
import Mathlib.Data.List.Lex
import Mathlib.Data.Prod.Lex

/-!
# Full-text search

`fts5_search` of `storage/queries/search.rs` with `expand_acronym` of `utils/acronyms.rs`: the terms of a query, the
passes over the index, and the substring scan for scripts written without spaces. How the index tokenizes a phrase and
ranks rows is a parameter; the query it is asked with is a text, read by `parseMatch`.
-/

namespace CodeGraph.Search.Fts

open CodeGraph.Lib
open CodeGraph.Pipeline.InFlight (isWhitespace)
open CodeGraph.Storage (escapeLike)
open CodeGraph.Utils

/-! ### The terms of a query -/

def ftsStopWords : List String :=
  ["a", "an", "and", "the", "or", "in", "of", "for", "to", "with", "is", "it", "this", "that", "by", "from", "on", "at",
    "as", "be", "are", "was", "were", "been", "all", "each", "how", "what", "when"]

def acronyms : List (String × List String) :=
  [("rrf", ["reciprocal", "rank", "fusion"]),
    ("bm25", ["best", "match"]),
    ("fts", ["full", "text", "search"]),
    ("fts5", ["full", "text", "search"]),
    ("ast", ["abstract", "syntax", "tree"]),
    ("cst", ["concrete", "syntax", "tree"]),
    ("lsp", ["language", "server", "protocol"]),
    ("mcp", ["model", "context", "protocol"]),
    ("rpc", ["remote", "procedure", "call"]),
    ("sql", ["structured", "query", "language"]),
    ("orm", ["object", "relational", "mapping"]),
    ("cte", ["common", "table", "expression"]),
    ("jwt", ["json", "web", "token"]),
    ("ttl", ["time", "live"]),
    ("dag", ["directed", "acyclic", "graph"]),
    ("rbac", ["role", "based", "access", "control"]),
    ("crud", ["create", "read", "update", "delete"]),
    ("cors", ["cross", "origin", "resource", "sharing"])]

/-- The first key that is the token in either case. -/
def expandAcronym (token : List Char) : List (List Char) :=
  match acronyms.find? fun entry => token.map Char.toLower == entry.1.toList.map Char.toLower with
  | some entry => entry.2.map String.toList
  | none => []

/-- `str::len`. -/
def byteLen (s : List Char) : ℕ := (s.map Char.utf8Size).sum

section Terms

variable (U : Unicode)

def isTermChar (c : Char) : Bool := U.isAlphanumeric c || c == '_'

def rawTerms (query : List Char) : List (List Char) := words (fun c => !isTermChar U c) query

def isStopWord (w : List Char) : Bool := decide (U.toLowercase w ∈ ftsStopWords.map String.toList)

/-- What one word contributes: its parts, itself, and what its acronyms stand for. -/
def expandWord (word : List Char) : List (List Char) :=
  let tokens := words isWhitespace (splitIdentifier U word)
  tokens ++ tokens.flatMap expandAcronym

def ftsTerms (query : List Char) : List (List Char) :=
  let expanded := ((rawTerms U query).filter fun w => !isStopWord U w).flatMap (expandWord U)
  ((inOrder expanded.toFinset).map (List.filter (isTermChar U))).filter fun w => 2 ≤ byteLen w

def emptyReason (query : List Char) : String :=
  if rawTerms U query = [] then "the query has no searchable characters"
  else if (rawTerms U query).all (isStopWord U) then "every word in the query is a stop word"
  else "every term is shorter than the 2-character minimum the index tokenizer stores"

/-- `original_terms`. -/
def originalTerms (query : List Char) : List (List Char) := (rawTerms U query).filter fun w => !isStopWord U w

/-- `user_words`: the words as the user separates them. -/
def userWords (query : List Char) : ℕ :=
  ((words isWhitespace query).filter fun w =>
    let s := w.filter (isTermChar U)
    !s.isEmpty && !isStopWord U s).length

end Terms

/-! ### The index -/

structure NodeRow where
  id : ℕ
  name : String
  qualifiedName : Option String
  codeContent : String
  contextString : Option String
  docComment : Option String
  isTest : Bool
  deriving DecidableEq

/-- The rows of `nodes_fts` joined with `nodes`, and what the full-text engine says of them. -/
structure Index (Score : Type*) where
  rows : List NodeRow
  /-- The phrase occurs in a column, as the engine tokenizes both. -/
  contains : List Char → NodeRow → Bool
  bm25 : List (List (List Char)) → NodeRow → Score
  /-- `ORDER BY` the score. -/
  order : List (List (List Char)) → List NodeRow → List NodeRow
  order_perm : ∀ groups l, (order groups l).Perm l

structure FtsResult (Score : Type*) where
  nodes : List NodeRow
  bm25Scores : List Score
  orFallback : Bool
  cjkSubstringFallback : Bool
  emptyReason : Option String

def FtsResult.isWidenedMatch {Score : Type*} (r : FtsResult Score) : Bool := r.orFallback || r.cjkSubstringFallback

def FtsResult.empty {Score : Type*} (reason : Option String) : FtsResult Score := ⟨[], [], false, false, reason⟩

/-- `LIMIT`: a negative one is none. -/
def limitRows (limit : ℤ) (l : List NodeRow) : List NodeRow := if limit < 0 then l else l.take limit.toNat

def andMatchFloor : ℕ := 3

section Search

variable {Score : Type*} [Neg Score] [Zero Score] (U : Unicode) (I : Index Score) (query : List Char) (limit : ℤ)
  (excludeTests : Bool)

def visible (row : NodeRow) : Bool := !excludeTests || !row.isTest

/-- The statement with the scores: no answer to a query that does not parse. -/
def matchRows (text : List Char) : Option (List (NodeRow × Score)) :=
  (parseMatch text).map fun groups =>
    (limitRows limit (I.order groups (I.rows.filter fun row =>
      visible excludeTests row && decide (Satisfies (fun t => I.contains t row = true) groups)))).map fun row =>
        (row, -(I.bm25 groups row))

/-- `probe.exists`. -/
def probeExists (t : List Char) : Option Bool :=
  (parseMatch (quotePhrase t)).map fun groups =>
    I.rows.any fun row => visible excludeTests row && decide (Satisfies (fun t => I.contains t row = true) groups)

def answer (pairs : List (NodeRow × Score)) (orFallback : Bool) : FtsResult Score :=
  ⟨pairs.map Prod.fst, pairs.map Prod.snd, orFallback, false, none⟩

def joinAnd (terms : List (List Char)) : List Char := " AND ".toList.intercalate (terms.map quotePhrase)

def joinOr (terms : List (List Char)) : List Char := " OR ".toList.intercalate (terms.map quotePhrase)

def orPass (terms : List (List Char)) : Option (FtsResult Score) :=
  (matchRows I limit excludeTests (joinOr terms)).map fun pairs => answer pairs (decide (1 < terms.length))

/-- The retry over the fragments that the index knows. -/
def relaxedPass (terms : List (List Char)) : Option (FtsResult Score) :=
  let surviving := terms.filter fun t => (probeExists I excludeTests t).getD false
  if surviving ≠ [] ∧ surviving.length < terms.length then
    (matchRows I limit excludeTests (joinAnd surviving)).map fun relaxed =>
      if relaxed = [] then .empty none else answer relaxed true
  else some (.empty none)

/-- The pass over any of the terms, unless the one word of the query is unknown to the index. -/
def probedPass (terms : List (List Char)) (original : List Char) : Option (FtsResult Score) :=
  let sanitizedOriginal := original.filter (isTermChar U)
  if 2 ≤ byteLen sanitizedOriginal then
    (probeExists I excludeTests sanitizedOriginal).bind fun found =>
      if found then orPass I limit excludeTests terms else some (.empty none)
  else orPass I limit excludeTests terms

/-- What follows when no row has all terms. -/
def widen (terms : List (List Char)) : Option (FtsResult Score) :=
  if userWords U query ≤ 1 then
    match originalTerms U query with
    | [] => orPass I limit excludeTests terms
    | [t] => probedPass U I limit excludeTests terms t
    | _ :: _ :: _ => relaxedPass I limit excludeTests terms
  else orPass I limit excludeTests terms

/-- What follows the pass over all of the terms. -/
def afterAnd (terms : List (List Char)) (pairs : List (NodeRow × Score)) : Option (FtsResult Score) :=
  if andMatchFloor ≤ pairs.length then some (answer pairs false)
  else if pairs = [] then widen U I query limit excludeTests terms
  else orPass I limit excludeTests terms

def fts5SearchMatch : Option (FtsResult Score) :=
  let terms := ftsTerms U query
  if terms = [] then some (.empty (some (emptyReason U query)))
  else if 1 < terms.length then
    (matchRows I limit excludeTests (joinAnd terms)).bind (afterAnd U I query limit excludeTests terms)
  else orPass I limit excludeTests terms

/-! ### The substring scan -/

def isUnsegmentedScript (c : Char) : Bool :=
  let n := c.toNat
  (0x3040 ≤ n && n ≤ 0x30FF) || (0x3400 ≤ n && n ≤ 0x4DBF) || (0x4E00 ≤ n && n ≤ 0x9FFF) ||
    (0xAC00 ≤ n && n ≤ 0xD7AF) || (0xF900 ≤ n && n ≤ 0xFAFF) || (0xFF66 ≤ n && n ≤ 0xFF9D) ||
    (0x20000 ≤ n && n ≤ 0x2A6DF) || (0x2A700 ≤ n && n ≤ 0x2EBEF)

/-- The loop over the characters, with the open run. -/
def cjkRuns (run : List Char) : List Char → List (List Char)
  | [] => if run.isEmpty then [] else [run]
  | c :: s =>
    if isUnsegmentedScript c then cjkRuns (run ++ [c]) s
    else if run.isEmpty then cjkRuns [] s
    else run :: cjkRuns [] s

/-- Sorted, each once. -/
def cjkTerms : List (List Char) := inOrder (cjkRuns [] query).toFinset

def cjkScanMaxTerms : ℕ := 32

/-- `column LIKE '%term%' ESCAPE '\'`; a missing column is not like anything. -/
def likeTerm (term : List Char) (column : Option String) : Bool :=
  column.any (likeEscape '\\' (String.ofList ('%' :: escapeLike term ++ ['%'])))

def textColumns (row : NodeRow) : List (Option String) :=
  [some row.name, row.qualifiedName, some row.codeContent, row.contextString, row.docComment]

def nameHit (terms : List (List Char)) (row : NodeRow) : Bool :=
  terms.any fun t => likeTerm t (some row.name) || likeTerm t row.qualifiedName

/-- Identifier hits first, then the shortest body, then the id. -/
def scanKey (terms : List (List Char)) (row : NodeRow) : ℕ ×ₗ ℕ ×ₗ ℕ :=
  toLex (if nameHit terms row then 0 else 1, toLex (row.codeContent.length, row.id))

def cjkSubstringScan : FtsResult Score :=
  let terms := cjkTerms query
  if terms = [] then .empty none
  else if cjkScanMaxTerms < terms.length then .empty none
  else
    let nodes := limitRows limit (sortByKey (scanKey terms) (I.rows.filter fun row =>
      visible excludeTests row && terms.all fun t => (textColumns row).any (likeTerm t)))
    if nodes = [] then .empty none else ⟨nodes, nodes.map fun _ => 0, false, true, none⟩

/-- `fts5_search_impl`. -/
def fts5Search : Option (FtsResult Score) :=
  (fts5SearchMatch U I query limit excludeTests).map fun matched =>
    if matched.nodes ≠ [] ∨ matched.emptyReason.isSome then matched else cjkSubstringScan I query limit excludeTests

end Search

end CodeGraph.Search.Fts
