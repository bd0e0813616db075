import CodeGraph.Domain.TestFilter
import CodeGraph.Lib.Sort
import Mathlib.Algebra.Order.Ring.Rat
import Mathlib.Data.Finset.Basic
import Mathlib.Data.Prod.Lex
import Mathlib.Data.String.Basic
import Mathlib.Logic.Function.Basic
import Mathlib.Order.OrderDual

/-!
# Betweenness centrality

`betweenness_centrality_capped` of `graph/centrality.rs`. Kept nodes are numbered in the order of their rows and
a vector over them is a function of that number. An `f64` is read as an exact rational.
-/

namespace CodeGraph.Graph.Centrality

open CodeGraph.Lib CodeGraph.Domain

/-! ### The graph -/

/-- A row of `nodes` joined to its file. -/
structure NodeMeta where
  nodeId : ℕ
  name : String
  nodeType : String
  filePath : String
  isTest : Bool
  deriving DecidableEq, Repr

/-- The rows of the two queries, in whatever order they come. Node ids are a primary key; a call may appear more
than once, and a node may call itself. -/
structure CallTable where
  nodes : List NodeMeta
  calls : List (ℕ × ℕ)
  ids : (nodes.map NodeMeta.nodeId).Nodup

/-- The nodes that are kept. -/
def metas (T : CallTable) (includeTests : Bool) : List NodeMeta :=
  T.nodes.filter fun row => !(!includeTests && (row.isTest || isTestSymbol row.name row.filePath))

/-- `index_of`. -/
def indexOf (ms : List NodeMeta) (id : ℕ) : Option ℕ := ms.findIdx? fun m => m.nodeId == id

/-- The graph over the kept nodes. -/
structure CallGraph where
  adj : ℕ → List ℕ := fun _ => []
  callerCount : ℕ → ℕ := fun _ => 0
  seenEdges : Finset (ℕ × ℕ) := ∅

/-- One row of `edges`. -/
def addEdge (ms : List NodeMeta) (g : CallGraph) (e : ℕ × ℕ) : CallGraph :=
  match indexOf ms e.1, indexOf ms e.2 with
  | some u, some v =>
    if u = v ∨ (u, v) ∈ g.seenEdges then g
    else
      { adj := Function.update g.adj u (g.adj u ++ [v])
        callerCount := Function.update g.callerCount v (g.callerCount v + 1)
        seenEdges := insert (u, v) g.seenEdges }
  | _, _ => g

def loadGraph (T : CallTable) (ms : List NodeMeta) : CallGraph := T.calls.foldl (addEdge ms) {}

/-! ### One source -/

/-- The vectors that all sources share. -/
structure Scratch where
  sigma : ℕ → ℚ := fun _ => 0
  dist : ℕ → ℤ := fun _ => -1
  delta : ℕ → ℚ := fun _ => 0
  preds : ℕ → List ℕ := fun _ => []
  stack : List ℕ := []

/-- What the step from `v` to `w` does to the scratch and the queue. -/
def relax (v : ℕ) (st : Scratch × List ℕ) (w : ℕ) : Scratch × List ℕ :=
  let st :=
    if st.1.dist w < 0 then
      ({ st.1 with dist := Function.update st.1.dist w (st.1.dist v + 1) }, st.2 ++ [w])
    else st
  if st.1.dist w = st.1.dist v + 1 then
    ({ st.1 with
        sigma := Function.update st.1.sigma w (st.1.sigma w + st.1.sigma v)
        preds := Function.update st.1.preds w (st.1.preds w ++ [v]) }, st.2)
  else st

/-- The search, with fuel for the pops of the queue. -/
def bfs (adj : ℕ → List ℕ) : ℕ → Scratch → List ℕ → Option Scratch
  | _, sc, [] => some sc
  | 0, _, _ :: _ => none
  | fuel + 1, sc, v :: queue =>
    let st := (adj v).foldl (relax v) ({ sc with stack := sc.stack ++ [v] }, queue)
    bfs adj fuel st.1 st.2

/-- Back-propagation at one node of the stack. -/
def backPropagate (s : ℕ) (st : (ℕ → ℚ) × Scratch) (w : ℕ) : (ℕ → ℚ) × Scratch :=
  let coeff := (1 + st.2.delta w) / st.2.sigma w
  let delta := (st.2.preds w).foldl (fun delta v => Function.update delta v (delta v + st.2.sigma v * coeff))
    st.2.delta
  (if w ≠ s then Function.update st.1 w (st.1 w + delta w) else st.1, { st.2 with delta := delta })

/-- The scratch of one node, restored. -/
def restore (sc : Scratch) (v : ℕ) : Scratch :=
  { sc with
    sigma := Function.update sc.sigma v 0
    dist := Function.update sc.dist v (-1)
    delta := Function.update sc.delta v 0
    preds := Function.update sc.preds v [] }

/-- One source: the betweenness and the scratch that it leaves. -/
def source (adj : ℕ → List ℕ) (n : ℕ) (st : (ℕ → ℚ) × Scratch) (s : ℕ) : Option ((ℕ → ℚ) × Scratch) := do
  let sc := { st.2 with
    sigma := Function.update st.2.sigma s 1
    dist := Function.update st.2.dist s 0 }
  let sc ← bfs adj n sc [s]
  let st := sc.stack.reverse.foldl (backPropagate s) (st.1, sc)
  return (st.1, { st.2.stack.foldl restore st.2 with stack := [] })

/-! ### The ranking -/

/-- The sources: all nodes, or above the cap every `⌈n / max_pivots⌉`-th. -/
def pivots (n maxPivots : ℕ) : List ℕ :=
  if maxPivots < n then (List.range n).filter fun i => i % ((n + maxPivots - 1) / maxPivots) = 0
  else List.range n

/-- The betweenness and the scratch after the given sources. -/
def sources (adj : ℕ → List ℕ) (n : ℕ) (ss : List ℕ) : Option ((ℕ → ℚ) × Scratch) :=
  ss.foldlM (source adj n) (fun _ => 0, {})

structure CentralityNode where
  nodeId : ℕ
  name : String
  nodeType : String
  filePath : String
  score : ℚ
  normalized : ℚ
  callerCount : ℕ

/-- By score and caller count downwards, then by name. -/
def rankKey (ms : List NodeMeta) (score : ℕ → ℚ) (callers : ℕ → ℕ) (i : ℕ) : ℚᵒᵈ ×ₗ ℕᵒᵈ ×ₗ String :=
  toLex (OrderDual.toDual (score i),
    toLex (OrderDual.toDual (callers i), (ms[i]?.map NodeMeta.name).getD ""))

/-- `betweenness_centrality_capped`. Nothing stands for a failure: a sampling step of nodes over no pivots, or a
search that does not end. -/
def betweennessCentralityCapped (T : CallTable) (includeTests : Bool) (limit maxPivots : ℕ) :
    Option (List CentralityNode) := do
  let ms := metas T includeTests
  let n := ms.length
  if n = 0 then return []
  let g := loadGraph T ms
  if maxPivots = 0 then none
  let ps := pivots n maxPivots
  let st ← sources g.adj n ps
  let score := if maxPivots < n then fun i => st.1 i * (n / ps.length) else st.1
  let normDenom : ℚ := if 3 ≤ n then ((n - 1 : ℕ) : ℚ) * ((n - 2 : ℕ) : ℚ) else 0
  let ranked := sortByKey (rankKey ms score g.callerCount) (List.range n)
  return ((ranked.filter fun i => 0 < score i).take limit).filterMap fun i => ms[i]?.map fun m =>
    { nodeId := m.nodeId
      name := m.name
      nodeType := m.nodeType
      filePath := m.filePath
      score := score i
      normalized := if 0 < normDenom then score i / normDenom else 0
      callerCount := g.callerCount i }

end CodeGraph.Graph.Centrality
