import CodeGraph.Lib.Sort
import Mathlib.Algebra.GroupWithZero.Nat
import Mathlib.Data.Finset.Dedup
import Mathlib.Data.List.AList
import Mathlib.Data.Prod.Lex
import Mathlib.Data.String.Basic
import Mathlib.Logic.Function.Basic

/-!
# Circular imports

`graph/cycles.rs`: the strongly connected components of the import graph by Tarjan's algorithm with an
explicit stack, and a shortest cycle through each.

A `while` loop runs on fuel here. Running out of it is a fault like the ones that the source would panic
with, and no run has one.
-/

namespace CodeGraph.Graph.Cycles

open CodeGraph.Lib

/-- What would stop a run: the `expect` on the component stack, a missing map entry, and a loop that does
not end within its fuel. -/
inductive Fault
  | sccStackEmpty | missingEntry | outOfFuel
  deriving DecidableEq, Repr

/-! ### Tarjan's algorithm -/

/-- The variables of `tarjan_scc`. Stacks have their top first. -/
structure TarjanState where
  index : ℕ → Option ℕ
  lowlink : ℕ → ℕ
  onStack : ℕ → Bool
  sccStack : List ℕ
  sccs : List (List ℕ)
  nextIndex : ℕ
  callStack : List (ℕ × ℕ)

variable (adj : List (List ℕ))

/-- `adj[v]`. -/
def succs (v : ℕ) : List ℕ := adj.getD v []

/-- The branch `ci == 0`: a node is met for the first time. -/
def enter (v : ℕ) (s : TarjanState) : TarjanState :=
  { s with
    index := Function.update s.index v (some s.nextIndex)
    lowlink := Function.update s.lowlink v s.nextIndex
    nextIndex := s.nextIndex + 1
    sccStack := v :: s.sccStack
    onStack := Function.update s.onStack v true }

/-- The inner loop: nodes are popped up to and with `v`. Gives the component in the order popped, and the
rest of the stack. -/
def popComponent (v : ℕ) : List ℕ → Option (List ℕ × List ℕ)
  | [] => none
  | w :: stack =>
    if w = v then some ([w], stack)
    else (popComponent v stack).map fun (comp, rest) => (w :: comp, rest)

/-- `lowlink[u] = lowlink[u].min(low)`. -/
def lower (u low : ℕ) (s : TarjanState) : TarjanState :=
  { s with lowlink := Function.update s.lowlink u (min (s.lowlink u) low) }

/-- `if let Some(&(parent, _)) = call_stack.last()`. -/
def lowerParent (v : ℕ) (rest : List (ℕ × ℕ)) (s : TarjanState) : TarjanState :=
  match rest with
  | [] => s
  | (parent, _) :: _ => lower parent (s.lowlink v) s

/-- A node whose children are done: its parent takes over its lowlink, and the root of a component pops the
component. -/
def finish (v : ℕ) (rest : List (ℕ × ℕ)) (s : TarjanState) : Except Fault TarjanState :=
  let s := lowerParent v rest s
  if s.index v = some (s.lowlink v) then
    match popComponent v s.sccStack with
    | none => .error .sccStackEmpty
    | some (comp, stack) =>
      .ok { s with
        sccStack := stack
        onStack := fun x => if x ∈ comp then false else s.onStack x
        sccs := s.sccs ++ [comp]
        callStack := rest }
  else .ok { s with callStack := rest }

/-- The next child of a node that has been entered, or its end. -/
def advance (v ci : ℕ) (rest : List (ℕ × ℕ)) (s : TarjanState) : Except Fault TarjanState :=
  match (succs adj v)[ci]? with
  | some w =>
    let s := { s with callStack := (v, ci + 1) :: rest }
    match s.index w with
    | none => .ok { s with callStack := (w, 0) :: s.callStack }
    | some i => .ok (if s.onStack w then lower v i s else s)
  | none => finish v rest s

/-- One turn of the loop with `(v, ci)` on top of the call stack. -/
def step (v ci : ℕ) (rest : List (ℕ × ℕ)) (s : TarjanState) : Except Fault TarjanState :=
  advance adj v ci rest (if ci = 0 then enter v s else s)

/-- The loop of one root. -/
def dfs : ℕ → TarjanState → Except Fault TarjanState
  | fuel, s =>
    match s.callStack with
    | [] => .ok s
    | (v, ci) :: rest =>
      match fuel with
      | 0 => .error .outOfFuel
      | fuel + 1 => do
        let s ← step adj v ci rest s
        dfs fuel s

/-- Turns enough for every root: one for each edge and each node. -/
def turns : ℕ := ((List.range adj.length).map fun v => (succs adj v).length + 1).sum

/-- `tarjan_scc`. -/
def tarjanScc : Except Fault (List (List ℕ)) := do
  let s ← (List.range adj.length).foldlM
    (fun s root =>
      if (s.index root).isSome then .ok s
      else dfs adj (turns adj) { s with callStack := [(root, 0)] })
    ⟨fun _ => none, fun _ => 0, fun _ => false, [], [], 0, []⟩
  return s.sccs

/-! ### A shortest cycle -/

/-- The variables of the search in `shortest_cycle`. -/
structure CycleSearch where
  dist : AList fun _ : ℕ => ℕ
  parent : AList fun _ : ℕ => ℕ
  queue : List ℕ

section Cycle

variable (inScc : List ℕ) (start : ℕ)

def discover (u du : ℕ) (s : CycleSearch) (w : ℕ) : CycleSearch :=
  if w = start ∨ w ∉ inScc ∨ w ∈ s.dist then s
  else ⟨s.dist.insert w (du + 1), s.parent.insert w u, s.queue ++ [w]⟩

/-- `while let Some(u) = queue.pop_front()`. -/
def cycleLoop : ℕ → CycleSearch → Except Fault CycleSearch
  | fuel, s =>
    match s.queue with
    | [] => .ok s
    | u :: queue =>
      match fuel with
      | 0 => .error .outOfFuel
      | fuel + 1 =>
        match s.dist.lookup u with
        | none => .error .missingEntry
        | some du =>
          cycleLoop fuel ((succs adj u).foldl (discover inScc start u du) { s with queue := queue })

/-- Keep the node with an edge back that is nearer, or smaller at the same distance. -/
def nearer (best : Option (ℕ × ℕ)) (entry : Sigma fun _ : ℕ => ℕ) : Option (ℕ × ℕ) :=
  if entry.1 ≠ start ∧ start ∈ succs adj entry.1 then
    match best with
    | some b => if toLex b ≤ toLex (entry.2, entry.1) then some b else some (entry.2, entry.1)
    | none => some (entry.2, entry.1)
  else best

/-- The node to close the cycle with, after its distance. The order in which the map is read makes no
difference. -/
def bestBack (dist : AList fun _ : ℕ => ℕ) : Option (ℕ × ℕ) :=
  dist.entries.foldl (nearer adj start) none

/-- `while u != start`: the nodes from the start to `u`, in front of what `rev` has already. -/
def parentPath (parent : AList fun _ : ℕ => ℕ) : ℕ → ℕ → List ℕ → Except Fault (List ℕ)
  | fuel, u, path =>
    if u = start then .ok path
    else
      match fuel with
      | 0 => .error .outOfFuel
      | fuel + 1 =>
        match parent.lookup u with
        | none => .error .missingEntry
        | some p => parentPath parent fuel p (p :: path)

/-- `shortest_cycle`. -/
def shortestCycle : Except Fault (List ℕ) := do
  let s ← cycleLoop adj inScc start (inScc.length + 1)
    ⟨(∅ : AList fun _ : ℕ => ℕ).insert start 0, ∅, [start]⟩
  match bestBack adj start s.dist with
  | none => return []
  | some (d, u) =>
    let path ← parentPath start s.parent d u [u]
    return path ++ [start]

end Cycle

/-! ### Cycles of files -/

structure DependencyCycle where
  files : List String
  path : List String
  size : ℕ
  deriving DecidableEq, Repr

/-- `is_rust_intra_crate_edge`. -/
def isRustIntraCrateEdge (source target : String) : Bool :=
  decide (".rs".toList <:+ source.toList) && decide (".rs".toList <:+ target.toList)

/-- Edges that are not skipped. -/
def kept (edge : String × String) : Bool :=
  edge.1 != edge.2 && !isRustIntraCrateEdge edge.1 edge.2

/-- The distinct files of the edges, in order. -/
def fileNames (edges : List (String × String)) : List String :=
  inOrder ((edges.filter kept).flatMap fun edge => [edge.1, edge.2]).toFinset

/-- `Vec::dedup`. -/
def dedupAdjacent : List ℕ → List ℕ
  | a :: b :: l => if a = b then dedupAdjacent (b :: l) else a :: dedupAdjacent (b :: l)
  | l => l

/-- Sorted successors over the positions of the names. -/
def adjacency (edges : List (String × String)) : List (List ℕ) :=
  let names := fileNames edges
  (List.range names.length).map fun i =>
    dedupAdjacent (sortByKey id (((edges.filter kept).filter fun edge => names.idxOf edge.1 = i).map
      fun edge => names.idxOf edge.2))

/-- The cycle of one component. -/
def cycleOf (names : List String) (adj : List (List ℕ)) (comp : List ℕ) :
    Except Fault DependencyCycle := do
  let comp := sortByKey id comp
  let path ← shortestCycle adj comp (comp.headD 0)
  return ⟨comp.map fun i => names.getD i "", path.map fun i => names.getD i "", comp.length⟩

/-- Largest component first, then by first file. -/
def DependencyCycle.order (c : DependencyCycle) : ℕᵒᵈ ×ₗ String :=
  toLex (OrderDual.toDual c.size, c.files.headD "")

/-- `find_cycles`. -/
def findCycles (edges : List (String × String)) : Except Fault (List DependencyCycle) := do
  let names := fileNames edges
  if names = [] then return []
  let sccs ← tarjanScc (adjacency edges)
  let cycles ← (sccs.filter fun comp => 2 ≤ comp.length).mapM (cycleOf names (adjacency edges))
  return sortByKey DependencyCycle.order cycles

/-! ### The order in which a map is read -/

/-- How the search from each start iterates over its map `dist`. -/
structure ReadOrder where
  read : ℕ → List (Sigma fun _ : ℕ => ℕ) → List (Sigma fun _ : ℕ => ℕ)
  perm : ∀ start entries, (read start entries).Perm entries

variable (order : ReadOrder)

/-- `shortest_cycle`, with the map read in some order. -/
def shortestCycleBy (inScc : List ℕ) (start : ℕ) : Except Fault (List ℕ) := do
  let s ← cycleLoop adj inScc start (inScc.length + 1)
    ⟨(∅ : AList fun _ : ℕ => ℕ).insert start 0, ∅, [start]⟩
  match (order.read start s.dist.entries).foldl (nearer adj start) none with
  | none => return []
  | some (d, u) =>
    let path ← parentPath start s.parent d u [u]
    return path ++ [start]

def cycleOfBy (names : List String) (comp : List ℕ) : Except Fault DependencyCycle := do
  let comp := sortByKey id comp
  let path ← shortestCycleBy adj order comp (comp.headD 0)
  return ⟨comp.map fun i => names.getD i "", path.map fun i => names.getD i "", comp.length⟩

/-- `find_cycles`, with each map read in some order. -/
def findCyclesBy (edges : List (String × String)) : Except Fault (List DependencyCycle) := do
  let names := fileNames edges
  if names = [] then return []
  let sccs ← tarjanScc (adjacency edges)
  let cycles ← (sccs.filter fun comp => 2 ≤ comp.length).mapM (cycleOfBy (adjacency edges) order names)
  return sortByKey DependencyCycle.order cycles

end CodeGraph.Graph.Cycles
