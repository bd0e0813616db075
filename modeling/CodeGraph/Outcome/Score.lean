import CodeGraph.Lib.Words
import Mathlib.Data.List.Infix

/-!
# Scoring a session

`score_session` of `outcome.rs` goes over the events of a transcript once and says of each call whether a file that it
returned was opened because of it. Texts are lists of characters.
-/

namespace CodeGraph.Outcome

open CodeGraph.Lib (words)

abbrev Text := List Char

/-! ### Names -/

/-- `canonical_query_cmd` -/
def canonicalQueryCmd (sub : String) : Option String :=
  match sub with
  | "grep" => some "grep"
  | "search" | "semantic_code_search" => some "search"
  | "ast-search" | "ast_search" => some "ast-search"
  | "callgraph" | "get_call_graph" => some "callgraph"
  | "impact" | "impact_analysis" => some "impact"
  | "affected" => some "affected"
  | "tour" => some "tour"
  | "map" | "project_map" => some "map"
  | "overview" | "module_overview" => some "overview"
  | "show" | "get_ast_node" => some "show"
  | "trace" | "trace_http_chain" => some "trace"
  | "deps" | "dependency_graph" => some "deps"
  | "similar" | "find_similar_code" => some "similar"
  | "refs" | "find_references" => some "refs"
  | "dead-code" | "find_dead_code" => some "dead-code"
  | "centrality" => some "centrality"
  | _ => none

def rankedMcpTools : List String := ["semantic_code_search", "ast_search"]

def cliSuffix : Text := ['_', 'c', 'l', 'i']

/-- `base.strip_suffix("_cli")` -/
def stripCli (base : String) : Option String :=
  if cliSuffix <:+ base.toList then some (String.ofList (base.toList.take (base.toList.length - 4))) else none

/-- `is_ranked_tool` -/
def isRankedTool (base : String) : Bool :=
  base ∈ rankedMcpTools ||
    match (stripCli base).bind canonicalQueryCmd with
    | some canon => rankedMcpTools.any fun mcp => canonicalQueryCmd mcp == some canon
    | none => false

def isSeparator (c : Char) : Bool := c = '/' || c = '\\'

/-- The closure `split` of `paths_match`. -/
def components (s : Text) : List Text := words isSeparator (s.dropWhile isSeparator)

/-- `paths_match` -/
def pathsMatch (returned touched : Text) : Bool :=
  let r := components returned
  let t := components touched
  if r.isEmpty || t.isEmpty then false
  else if r.length ≤ t.length then t.drop (t.length - r.length) = r
  else r.drop (r.length - t.length) = t

/-! ### Events -/

structure ReturnedItem where
  filePath : Text
  rank : Option ℕ
  deriving DecidableEq

/-- `Event::CgCall` -/
structure CgCall where
  tool : String
  query : String
  returned : List ReturnedItem
  turn : ℕ
  deriving DecidableEq

inductive Event
  | cgCall (call : CgCall)
  | fileTouch (path : Text) (turn : ℕ)
  | rawGrep
  | other
  deriving DecidableEq

structure CallOutcome where
  tool : String
  query : String
  returnedFiles : List Text
  adopted : Bool
  adoptedRank : Option ℕ
  adoptedFile : Option Text
  ranked : Bool
  adoptionDistance : Option ℕ
  deriving DecidableEq

/-! ### The forward scan -/

/-- The variables of the forward scan. -/
structure Forward where
  bestRanked : Option (ℕ × Text)
  firstMatchFile : Option Text
  adopted : Bool
  touchesSeen : ℕ
  adoptionDistance : Option ℕ

def Forward.start : Forward := ⟨none, none, false, 0, none⟩

/-- The body of `for it in &candidates`. -/
def Forward.take (path : Text) (st : Forward) (it : ReturnedItem) : Forward :=
  if pathsMatch it.filePath path then
    { st with
      adopted := true
      firstMatchFile := if st.firstMatchFile.isNone then some it.filePath else st.firstMatchFile
      adoptionDistance := if st.firstMatchFile.isNone then some st.touchesSeen else st.adoptionDistance
      bestRanked :=
        match it.rank with
        | some r => if st.bestRanked.all fun b => r < b.1 then some (r, it.filePath) else st.bestRanked
        | none => st.bestRanked }
  else st

/-- What a touch in the window does. -/
def Forward.touch (candidates : List ReturnedItem) (st : Forward) (path : Text) : Forward :=
  candidates.foldl (Forward.take path) { st with touchesSeen := st.touchesSeen + 1 }

/-- `for ev2 in &events[i + 1..]` -/
def Forward.scan (turn : ℕ) (candidates : List ReturnedItem) (st : Forward) : List Event → Forward
  | [] => st
  | .cgCall call :: rest => if call.turn ≠ turn then st else Forward.scan turn candidates st rest
  | .fileTouch path t :: rest =>
    if t = turn then Forward.scan turn candidates st rest
    else Forward.scan turn candidates (st.touch candidates path) rest
  | _ :: rest => Forward.scan turn candidates st rest

/-! ### The session -/

/-- The returned files that no touch before the call has opened. -/
def candidates (touchedBefore : List Text) (call : CgCall) : List ReturnedItem :=
  call.returned.filter fun it => !touchedBefore.any fun t => pathsMatch it.filePath t

/-- The outcome of a call, from the files touched before it and the events behind it. -/
def scoreCall (touchedBefore : List Text) (call : CgCall) (rest : List Event) : CallOutcome :=
  let st := Forward.start.scan call.turn (candidates touchedBefore call) rest
  { tool := call.tool
    query := call.query
    returnedFiles := call.returned.map ReturnedItem.filePath
    adopted := st.adopted
    adoptedRank := st.bestRanked.map Prod.fst
    adoptedFile := match st.bestRanked with
      | some (_, f) => some f
      | none => st.firstMatchFile
    ranked := isRankedTool call.tool
    adoptionDistance := st.adoptionDistance }

/-- The loop of `score_session`, with `touched_before`. -/
def scoreFrom (touchedBefore : List Text) : List Event → List CallOutcome
  | [] => []
  | .fileTouch path _ :: rest => scoreFrom (touchedBefore.insert path) rest
  | .cgCall call :: rest => scoreCall touchedBefore call rest :: scoreFrom touchedBefore rest
  | _ :: rest => scoreFrom touchedBefore rest

/-- `score_session` -/
def scoreSession (events : List Event) : List CallOutcome := scoreFrom [] events

end CodeGraph.Outcome
