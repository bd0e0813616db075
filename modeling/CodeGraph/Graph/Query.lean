import CodeGraph.Lib.Query
import CodeGraph.Lib.Sort
import CodeGraph.Storage.Index
import Mathlib.Data.Finset.Card
import Mathlib.Data.Finset.Range
import Mathlib.Data.Finset.Union
import Mathlib.Data.Int.Order.Basic
import Mathlib.Data.List.AList
import Mathlib.Data.Prod.Lex

/-!
# Call graphs

`query_direction_seeded` of `graph/query.rs`: the breadth-first walk from the seeds of a symbol, the rows it
returns and their order, and the recursive query that it replaced, which the tests keep as an oracle.
-/

namespace CodeGraph.Graph.Query

open CodeGraph.Lib CodeGraph.Storage

/-- The index with the two more columns of `nodes` that a call graph reads. -/
structure Db extends Index where
  qualifiedName : ℕ → Option String
  isTest : ℕ → Bool

inductive Direction
  | callees | callers
  deriving DecidableEq, Repr

/-- The end of an edge that the walk comes from. -/
def Direction.near (dir : Direction) (e : EdgeRow) : ℕ :=
  match dir with
  | .callees => e.source
  | .callers => e.target

/-- The end of an edge that the walk goes to. -/
def Direction.far (dir : Direction) (e : EdgeRow) : ℕ :=
  match dir with
  | .callees => e.target
  | .callers => e.source

inductive CallGraphSeed
  | name (symbol : String) (filePath : Option String)
  | node (id : ℕ)

structure CallGraphNode where
  nodeId : ℕ
  name : String
  nodeType : String
  filePath : String
  depth : ℕ
  direction : Direction
  parentId : Option ℕ
  qualifiedName : Option String
  isTest : Bool
  deriving DecidableEq, Repr

/-- `CALL_GRAPH_MAX_DEPTH`. -/
def callGraphMaxDepth : ℤ := 10

/-- `CALL_GRAPH_ROW_LIMIT`. -/
def callGraphRowLimit : ℕ := 200

/-- `domain::confidence_rank`. -/
def confidenceRank : Confidence → ℕ
  | .extracted => 2
  | .inferred => 1
  | .ambiguous => 0

variable (D : Db)

/-- `CallGraphSeed::predicate`, over a node joined to its file. -/
def CallGraphSeed.predicate (seed : CallGraphSeed) (n : NodeRow) : Bool :=
  let path := (D.file n.fileId).path
  match seed with
  | .name symbol filePath =>
    (n.name == symbol || (D.qualifiedName n.id == some symbol && n.type != "module")) &&
      path != "<external>" && filePath.all (path == ·)
  | .node id => n.id == id && path != "<external>"

/-- The seeds, `ORDER BY n.id`. -/
def seedIds (seed : CallGraphSeed) : List ℕ :=
  sortByKey id ((D.nodes.filter (seed.predicate D)).map NodeRow.id)

/-- The query of one piece of the frontier. Parallel edges each give a row. -/
def callEdges (dir : Direction) (minConfidenceRank : ℕ) (piece : List ℕ) : Finset EdgeRow :=
  D.edges.filter fun e =>
    dir.near e ∈ piece ∧ e.relation = .calls ∧ minConfidenceRank ≤ confidenceRank e.confidence

/-- The map of visited nodes, with the depth and the parent of each. -/
abbrev Seen := AList fun _ : ℕ => ℕ × Option ℕ

section Walk

variable (dir : Direction) (minConfidenceRank : ℕ) (P : Plan ℕ EdgeRow)

/-- The rows of a level that lead to a new node: the child, the rank of its parent in the frontier, and
the parent. -/
def discovered (frontier : List ℕ) (seen : Seen) : List (ℕ × ℕ × ℕ) :=
  (P.rows (callEdges D dir minConfidenceRank) frontier).filterMap fun e =>
    if dir.far e ∈ seen then none
    else some (dir.far e, frontier.idxOf (dir.near e), dir.near e)

/-- The first hit of a child is kept. -/
def visitChild (depth : ℕ) (s : Seen × List ℕ) (hit : ℕ × ℕ × ℕ) : Seen × List ℕ :=
  if hit.1 ∈ s.1 then s
  else (s.1.insert hit.1 (depth, some hit.2.2), s.2 ++ [hit.1])

/-- One level: the hits by rank of the parent, then by child. -/
def walkLevel (depth : ℕ) (frontier : List ℕ) (seen : Seen) : Seen × List ℕ :=
  (sortByKey (fun hit => toLex (hit.2.1, hit.1)) (discovered D dir minConfidenceRank P frontier seen)).foldl
    (visitChild depth) (seen, [])

/-- The loop, with `left` levels to go before `max_depth`. -/
def walkLoop : (left depth : ℕ) → List ℕ → Seen → Seen
  | 0, _, _, seen => seen
  | left + 1, depth, frontier, seen =>
    if frontier = [] then seen
    else
      let s := walkLevel D dir minConfidenceRank P depth frontier seen
      walkLoop left (depth + 1) s.2 s.1

end Walk

/-- `caller_counts`: the inbound calls of a node, whatever their confidence. -/
def callerCount (id : ℕ) : ℕ :=
  (D.edges.filter fun e => e.target = id ∧ e.relation = .calls).card

/-- The row of a visited node. One without a node or a file row is left out. -/
def emit (dir : Direction) (id : ℕ) (visit : ℕ × Option ℕ) : Option CallGraphNode :=
  match D.nodes.find? (fun n => n.id == id) with
  | none => none
  | some n =>
    match D.files.find? (fun f => f.id == n.fileId) with
    | none => none
    | some f =>
      some ⟨id, n.name, n.type, f.path, visit.1, dir, visit.2, D.qualifiedName id, D.isTest id⟩

/-- `(depth, -callers, id)`. -/
def rowOrder (id depth : ℕ) : ℕ ×ₗ ℕᵒᵈ ×ₗ ℕ :=
  toLex (depth, toLex (OrderDual.toDual (callerCount D id), id))

/-- The levels of a walk: `depth <= max_depth` with `max_depth.min(CALL_GRAPH_MAX_DEPTH)`. -/
def walkDepth (maxDepth : ℤ) : ℕ := (min maxDepth callGraphMaxDepth).toNat

section Query

variable (P : Plan ℕ EdgeRow) (seed : CallGraphSeed) (maxDepth : ℤ) (dir : Direction)
  (minConfidenceRank : ℕ)

/-- The rows before truncation. -/
def traversal : List CallGraphNode :=
  let frontier := seedIds D seed
  if frontier = [] then []
  else
    let seen := walkLoop D dir minConfidenceRank P (walkDepth maxDepth) 1 frontier
      (frontier.foldl (fun seen id => seen.insert id (0, none)) ∅)
    sortByKey (fun r => rowOrder D r.nodeId r.depth)
      (seen.entries.filterMap fun entry => emit D dir entry.1 entry.2)

/-- `query_direction_seeded`: the rows and whether the limit was reached. -/
def queryDirectionSeeded : List CallGraphNode × Bool :=
  let rows := traversal D P seed maxDepth dir minConfidenceRank
  (rows.take callGraphRowLimit, decide (callGraphRowLimit ≤ rows.length))

end Query

/-! ### The recursive query -/

section Legacy

variable (name : String) (filePath : Option String) (dir : Direction) (minConfidenceRank : ℕ)

/-- The rows of `call_graph` at a depth, by their `visited` ids, the latest first. -/
def callPaths : ℕ → Finset (List ℕ)
  | 0 => ((seedIds D (.name name filePath)).map fun id => [id]).toFinset
  | depth + 1 =>
    (callPaths depth).biUnion fun ids =>
      ((callEdges D dir minConfidenceRank ids.head?.toList).filter fun e => dir.far e ∉ ids).image
        fun e => dir.far e :: ids

/-- `ROW_NUMBER() OVER (PARTITION BY node_id ORDER BY depth) = 1`: every node at its least depth. Which of
several rows at that depth is kept, and with it the parent, is up to the query plan. -/
def legacyRows (maxDepth : ℤ) : Finset (ℕ × ℕ) :=
  let rows := (Finset.range (walkDepth maxDepth + 1)).biUnion fun depth =>
    (callPaths D name filePath dir minConfidenceRank depth).image fun ids => (ids.headD 0, depth)
  rows.filter fun row => ∀ other ∈ rows, other.1 = row.1 → row.2 ≤ other.2

/-- `legacy_query_direction_cte`: ids and depths, `ORDER BY depth, caller_count DESC, node_id LIMIT 200`,
and whether the limit was reached. -/
def legacyQueryDirectionCte (maxDepth : ℤ) : List (ℕ × ℕ) × Bool :=
  let ordered := (inOrder ((legacyRows D name filePath dir minConfidenceRank maxDepth).image
    fun row => rowOrder D row.1 row.2)).map fun key => ((ofLex (ofLex key).2).2, (ofLex key).1)
  let results := ordered.take callGraphRowLimit
  (results, decide (results.length = callGraphRowLimit))

end Legacy

end CodeGraph.Graph.Query
