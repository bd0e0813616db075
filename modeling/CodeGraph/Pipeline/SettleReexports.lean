import CodeGraph.Pipeline.PythonModules

/-!
# Imports that wait for a re-export

`settle_python_reexports` of `indexer/pipeline/index_files.rs`. The edges are the rows of the table, each once. The rows
of a file are read from it at every question: the code keeps them only until an edge out of the file is written. The
counts for the log and `WrittenFanouts`, which leaves out writes of edges that are there, are left out.
-/

namespace CodeGraph.Pipeline.PythonModules

open CodeGraph.Lib

/-- What the pass reads of an edge's metadata. -/
structure ImportMeta where
  pythonModule : Option (List Char)
  isModuleImport : Bool
  /-- `$.as` is there. -/
  renamed : Bool
  /-- `$.attr` is there. -/
  attr : Bool
  n : Option ℤ
  deriving DecidableEq

structure ImportEdge where
  source : ℤ
  target : ℤ
  relation : String
  metadata : ImportMeta
  deriving DecidableEq

structure NodeRow where
  name : String
  path : Path

/-- An entry of `waiting`: a deferred relation, the nodes it is from, and the files of the module it names. -/
structure Parked where
  relPath : Path
  targetName : String
  relation : String
  metadata : ImportMeta
  sourceIds : List ℤ
  files : List Path

abbrev Nodes := ℤ → Option NodeRow

/-! ### The table of edges -/

/-- The row of an edge in the answer to the query of `ReexportEdges::of`. -/
def reexportRow (nodes : Nodes) (file : Path) (e : ImportEdge) : Option ReexportEdge :=
  match nodes e.source, nodes e.target, e.metadata.pythonModule with
  | some source, some target, some m =>
    if source.name = "<module>" ∧ source.path = file ∧ e.relation = "imports" ∧ e.metadata.isModuleImport = false ∧
        e.metadata.renamed = false ∧ e.metadata.attr = false then
      some ⟨e.target, e.metadata.n, target.name, target.path, m⟩
    else none
  | _, _, _ => none

/-- `ReexportEdges::of`. -/
def edgesOf (nodes : Nodes) (edges : List ImportEdge) (file : Path) : List ReexportEdge :=
  edges.filterMap (reexportRow nodes file)

/-- `insert_edge_cached`. -/
def insertEdge (edges : List ImportEdge) (e : ImportEdge) : List ImportEdge :=
  if e ∈ edges then edges else edges ++ [e]

/-- `insert_relation_edges`, which writes no edge from a node to itself here. -/
def insertRelationEdges (edges : List ImportEdge) (w : Parked) (targets : List ℤ) : List ImportEdge :=
  w.sourceIds.foldl (fun edges source => targets.foldl (fun edges target =>
    if source ≠ target then insertEdge edges ⟨source, target, w.relation, w.metadata⟩ else edges) edges) edges

/-! ### The rounds -/

/-- The targets of an entry. -/
def reexportTargets (nodes : Nodes) (map : ModuleMap) (edges : List ImportEdge) (w : Parked) : List ℤ :=
  (pythonReexportTargets (reexportMaxDepth + 2) (edgesOf nodes edges) w.files w.targetName map).getD []

def isRelative (w : Parked) : Bool := (w.metadata.pythonModule.map fun m => ['.'].isPrefixOf m).getD false

structure Settling where
  edges : List ImportEdge
  left : List Parked
  bound : Bool
  relativeBound : List Parked

/-- An entry is asked. -/
def settleEntry (nodes : Nodes) (map : ModuleMap) (s : Settling) (w : Parked) : Settling :=
  let targets := reexportTargets nodes map s.edges w
  if targets = [] then { s with left := s.left ++ [w] }
  else
    { s with
      edges := insertRelationEdges s.edges w targets
      bound := true
      relativeBound := if isRelative w then s.relativeBound ++ [w] else s.relativeBound }

/-- What the pass leaves: the edges, `waiting` and `relative_bound`. -/
structure SettledImports where
  edges : List ImportEdge
  waiting : List Parked
  relativeBound : List Parked

/-- `settle_python_reexports`. It is `none` where the fuel ran out. -/
def settlePythonReexports (nodes : Nodes) (map : ModuleMap) :
    ℕ → List ImportEdge → List Parked → List Parked → Option SettledImports
  | 0, _, _, _ => none
  | fuel + 1, edges, waiting, relativeBound =>
    let s := waiting.foldl (settleEntry nodes map) ⟨edges, [], false, relativeBound⟩
    if !s.bound || s.left.isEmpty then some ⟨s.edges, s.left, s.relativeBound⟩
    else settlePythonReexports nodes map fuel s.edges s.left s.relativeBound

end CodeGraph.Pipeline.PythonModules
