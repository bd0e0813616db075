import CodeGraph.Lib.Query
import CodeGraph.Lib.Sort
import CodeGraph.Pipeline.Resolve
import Mathlib.Data.List.AList
import Mathlib.Data.Prod.Lex
import Mathlib.Data.String.Basic
import Mathlib.Order.Interval.Finset.Nat

/-!
# File dependencies

`storage/queries/imports.rs`: the breadth-first closure of a file over its imports, what
`get_import_tree` and `get_reverse_dependents` make of it, and the recursive queries that they replaced,
which the tests keep as an oracle.
-/

namespace CodeGraph.Storage.Imports

open CodeGraph.Lib CodeGraph.Pipeline.Resolve

inductive FileHop
  | outgoing | incoming
  deriving DecidableEq, Repr

/-- The end of an edge on the side of the frontier. -/
def FileHop.near (hop : FileHop) (e : EdgeRow) : ℕ :=
  match hop with
  | .outgoing => e.source
  | .incoming => e.target

/-- The end of an edge on the side that the search expands towards. -/
def FileHop.far (hop : FileHop) (e : EdgeRow) : ℕ :=
  match hop with
  | .outgoing => e.target
  | .incoming => e.source

/-- `synthetic_import_sql`. -/
def Synthetic (e : EdgeRow) : Prop := e.relation = .imports ∧ MentionsAttr e.metadata

instance (e : EdgeRow) : Decidable (Synthetic e) := inferInstanceAs (Decidable (_ ∧ _))

section Closure

variable (I : Index) (rootPath : String) (relations : List Relation) (hop : FileHop)

/-- The query of one piece of the frontier: `SELECT DISTINCT f_to.id, f_to.path`. -/
def expand (piece : List ℕ) : Finset (ℕ × String) :=
  (I.edges.filter fun e =>
      e.relation ∈ relations ∧ ¬ Synthetic e ∧ (I.node (hop.near e)).fileId ∈ piece).image
    fun e => ((I.fileOf (hop.far e)).id, (I.fileOf (hop.far e)).path)

/-- `FRONTIER_CHUNK`. -/
def frontierChunk : ℕ := 400

/-- A way to run the queries: pieces of `FRONTIER_CHUNK` files, the rows of an answer by file. -/
def planInOrder : Plan ℕ (ℕ × String) :=
  .chunked frontierChunk (fun rows => (inOrder (rows.image toLex)).map ofLex) (by
    intro rows row
    rw [List.mem_map]
    constructor
    · rintro ⟨a, ha, rfl⟩
      obtain ⟨b, hb, rfl⟩ := Finset.mem_image.mp (mem_inOrder.mp ha)
      exact hb
    · intro h
      exact ⟨toLex row, mem_inOrder.mpr (Finset.mem_image_of_mem toLex h), rfl⟩)

/-- What the search keeps while it reads the rows of a level. -/
structure Search where
  visited : Finset ℕ
  found : AList fun _ : String => ℕ
  next : List ℕ

/-- `found.entry(path).and_modify(…).or_insert(depth)`. -/
def noteDepth (found : AList fun _ : String => ℕ) (path : String) (depth : ℕ) :
    AList fun _ : String => ℕ :=
  match found.lookup path with
  | some d => if depth < d then found.insert path depth else found
  | none => found.insert path depth

def readRow (depth : ℕ) (s : Search) (row : ℕ × String) : Search :=
  if row.2 = rootPath ∨ row.1 ∈ s.visited then s
  else ⟨insert row.1 s.visited, noteDepth s.found row.2 depth, s.next ++ [row.1]⟩

variable (P : Plan ℕ (ℕ × String))

/-- One level: the rows of every piece of the frontier. -/
def readLevel (depth : ℕ) (frontier : List ℕ) (s : Search) : Search :=
  (P.rows (expand I relations hop) frontier).foldl (readRow rootPath depth) { s with next := [] }

/-- The loop, with `left` levels to go before `max_depth`. -/
def closureLoop : (left depth : ℕ) → List ℕ → Search → AList fun _ : String => ℕ
  | 0, _, _, s => s.found
  | left + 1, depth, frontier, s =>
    if frontier = [] then s.found
    else
      let s' := readLevel I rootPath relations hop P depth frontier s
      closureLoop left (depth + 1) (sortByKey id s'.next) s'

/-- `file_closure`. The map is read in the order of its paths and sorted by depth, stably. -/
def fileClosure (maxDepth : ℕ) : List (String × ℕ) :=
  let frontier := sortByKey id ((I.files.filter fun f => f.path = rootPath).map FileRow.id)
  if frontier = [] then []
  else
    let found := closureLoop I rootPath relations hop P maxDepth 1 frontier ⟨frontier.toFinset, ∅, []⟩
    sortByKey Prod.snd (sortByKey Prod.fst (found.entries.map fun entry => (entry.1, entry.2)))

/-- The targets that `COUNT(DISTINCT nb.id)` counts for a path, of the edges that `keep` lets through. -/
def countedTargets (keep : EdgeRow → Prop) [DecidablePred keep] (path : String) : Finset ℕ :=
  (I.edges.filter fun e =>
      e.relation ∈ relations ∧ keep e ∧ (I.fileOf (hop.near e)).path = rootPath ∧
        (I.fileOf (hop.far e)).path = path).image
    EdgeRow.target

/-- `cross_file_symbol_counts`: a path without an edge has no group. -/
def crossFileSymbolCounts (path : String) : Option ℕ :=
  let targets := countedTargets I rootPath relations hop (fun e => ¬ Synthetic e) path
  if targets = ∅ then none else some targets.card

end Closure

/-! ### The two queries -/

structure FileDependency where
  filePath : String
  direction : String
  symbolCount : ℕ
  depth : ℕ
  deriving DecidableEq, Repr

/-- The order of `get_import_tree`: depth, then symbol count from high to low, then path. -/
def FileDependency.order (d : FileDependency) : ℕ ×ₗ ℕᵒᵈ ×ₗ String :=
  toLex (d.depth, toLex (OrderDual.toDual d.symbolCount, d.filePath))

/-- `max_depth.clamp(1, 10)`. -/
def clampDepth (maxDepth : ℤ) : ℕ := (max 1 (min maxDepth 10)).toNat

def FileHop.name : FileHop → String
  | .outgoing => "outgoing"
  | .incoming => "incoming"

/-- The relations of the dependency view. -/
def treeRelations : List Relation := [.imports, .calls]

/-- The relations of `affected`. -/
def affectedRelations : List Relation := [.imports, .calls, .references, .implements, .inherits]

variable (P : Plan ℕ (ℕ × String)) (I : Index) (filePath : String)

/-- The rows of `get_import_tree` in one direction. -/
def importDeps (hop : FileHop) (maxDepth : ℕ) : List FileDependency :=
  sortByKey FileDependency.order <|
    (fileClosure I filePath treeRelations hop P maxDepth).map fun (path, depth) =>
      ⟨path, hop.name, (crossFileSymbolCounts I filePath treeRelations hop path).getD 0, depth⟩

/-- `get_import_tree`. -/
def getImportTree (direction : String) (maxDepth : ℤ) : Except String (List FileDependency) :=
  if direction ≠ "outgoing" ∧ direction ≠ "incoming" ∧ direction ≠ "both" then
    .error s!"invalid direction '{direction}': expected outgoing, incoming, or both"
  else
    .ok <| [FileHop.outgoing, .incoming].flatMap fun hop =>
      if direction ≠ hop.name ∧ direction ≠ "both" then []
      else importDeps P I filePath hop (clampDepth maxDepth)

/-- `get_reverse_dependents`. -/
def getReverseDependents (maxDepth : ℤ) : List (String × ℕ) :=
  fileClosure I filePath affectedRelations .incoming P (clampDepth maxDepth)

/-! ### The recursive queries -/

section Legacy

variable (relations : List Relation) (hop : FileHop)

/-- The rows of `dep_tree` at a depth, by their `visited_ids`, the latest id first. -/
def depTree : ℕ → Finset (List ℕ)
  | 0 => ((I.files.filter fun f => f.path = filePath).map fun f => [f.id]).toFinset
  | depth + 1 =>
    (depTree depth).biUnion fun ids =>
      ((I.edges.filter fun e =>
          e.relation ∈ relations ∧ (I.node (hop.near e)).fileId ∈ ids.head? ∧
            (I.fileOf (hop.far e)).path ≠ filePath ∧ (I.fileOf (hop.far e)).id ∉ ids).image
        fun e => (I.fileOf (hop.far e)).id :: ids)

/-- `SELECT file_path, MIN(depth) … WHERE depth > 0 GROUP BY file_path`. -/
def legacyClosure (maxDepth : ℕ) : Finset (String × ℕ) :=
  let rows := (Finset.Icc 1 maxDepth).biUnion fun depth =>
    (depTree I filePath relations hop depth).image fun ids => ((I.file (ids.headD 0)).path, depth)
  rows.filter fun row => ∀ other ∈ rows, other.1 = row.1 → row.2 ≤ other.2

/-- The correlated subquery for `cnt`. -/
def legacySymbolCount (path : String) : ℕ :=
  (countedTargets I filePath relations hop (fun _ => True) path).card

/-- The rows of `legacy_import_tree_cte` in one direction. Its order leaves ties to the query plan. -/
def legacyImportTree (maxDepth : ℤ) : Finset FileDependency :=
  (legacyClosure I filePath treeRelations hop (clampDepth maxDepth)).image fun (path, depth) =>
    ⟨path, hop.name, legacySymbolCount I filePath treeRelations hop path, depth⟩

/-- `legacy_reverse_dependents_cte`. -/
def legacyReverseDependents (maxDepth : ℤ) : Finset (String × ℕ) :=
  legacyClosure I filePath affectedRelations .incoming (clampDepth maxDepth)

end Legacy

end CodeGraph.Storage.Imports
