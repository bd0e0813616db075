import CodeGraph.Embedding.Context
import CodeGraph.Lib.Query
import CodeGraph.Pipeline.Resolve
import Mathlib.Data.Multiset.Sort
import Mathlib.Data.Prod.Lex
import Mathlib.Data.String.Basic
import Mathlib.Order.WithBot

/-!
# Context strings over a sequence of runs

Which nodes an indexing run renders: `pipeline/context.rs`, `build_context_strings_and_embed` and the end of
`index_files` in `pipeline/index_files.rs`, and `run_full_index`, `run_incremental_index_cached` and the dirty
sets of `pipeline/mod.rs`.

A call of `index_files` is told by its `Call`. Phases 0 to 2b-final, which parse files and resolve relations,
enter by the state that they leave, and the pending sweep by the edges it deletes and offers. What is rendered
from there on, and when, is the code's.
-/

namespace CodeGraph.Pipeline.Context

open CodeGraph.Lib CodeGraph.Storage CodeGraph.Embedding CodeGraph.Pipeline.Resolve

/-! ### The state -/

/-- The columns of a node that only its context string reads. -/
structure NodeDetails where
  qualifiedName : Option String := none
  signature : Option String := none
  returnType : Option String := none
  paramTypes : Option String := none
  docComment : Option String := none
  deriving DecidableEq, Repr

structure Db where
  index : Index
  details : ℕ → NodeDetails
  context : ℕ → Option String

/-- The database before the first run. -/
def Db.empty : Db where
  index :=
    { files := [], nodes := [], edges := ∅, file_ids := List.nodup_nil, file_paths := List.nodup_nil
      node_ids := List.nodup_nil, node_file := by simp, edge_source := by simp, edge_target := by simp
      edge_key := by simp [KeyUnique] }
  details := fun _ => {}
  context := fun _ => none

/-- The path of a node's file. -/
def Db.path (d : Db) (id : ℕ) : String := (d.index.fileOf id).path

def Db.HasNode (d : Db) (id : ℕ) : Prop := id ∈ d.index.nodes.map NodeRow.id

instance (d : Db) (id : ℕ) : Decidable (d.HasNode id) := inferInstanceAs (Decidable (id ∈ _))

/-- `domain::EXTERNAL_FILE_PATH`. -/
def externalFilePath : String := "<external>"

/-! ### The edges of a node -/

/-- The texts of `domain::REL_*`. -/
def relationText : Relation → String
  | .calls => "calls"
  | .inherits => "inherits"
  | .imports => "imports"
  | .routesTo => "routes_to"
  | .implements => "implements"
  | .exports => "exports"
  | .references => "references"

/-- An `EdgeInfo` of one direction: the relation, the name at the other end and the metadata. -/
structure EdgeInfo where
  relation : Relation
  name : String
  metadata : Option String
  deriving DecidableEq, Repr

/-- `ORDER BY e.relation, n.name, e.metadata`; NULL comes first. -/
def EdgeInfo.key (i : EdgeInfo) : String ×ₗ String ×ₗ WithBot String :=
  toLex (relationText i.relation, toLex (i.name, i.metadata))

theorem EdgeInfo.key_injective : Function.Injective EdgeInfo.key := by
  rintro ⟨r, n, m⟩ ⟨r', n', m'⟩ h
  have hkey : (relationText r, n, m) = (relationText r', n', m') := h
  simp only [Prod.mk.injEq] at hkey
  obtain ⟨hr, rfl, rfl⟩ := hkey
  have hrel : r = r' := by
    cases r <;> cases r' <;> first | rfl | (simp [relationText] at hr)
  rw [hrel]

instance : LinearOrder EdgeInfo := LinearOrder.lift' EdgeInfo.key EdgeInfo.key_injective

instance edgeInfoTrans : IsTrans EdgeInfo (· ≤ ·) := inferInstance

instance edgeInfoAntisymm : Std.Antisymm fun a b : EdgeInfo => a ≤ b := inferInstance

instance edgeInfoTotal : Std.Total fun a b : EdgeInfo => a ≤ b := inferInstance

/-- `synthetic_import_sql`. -/
def SyntheticImport (relation : Relation) (metadata : Option String) : Prop :=
  relation = .imports ∧ MentionsAttr metadata

instance (relation : Relation) (metadata : Option String) : Decidable (SyntheticImport relation metadata) :=
  inferInstanceAs (Decidable (_ ∧ _))

/-- The rows of `get_edges_batch` for a node, out and in. -/
def edgesOut (I : Index) (id : ℕ) : List EdgeInfo :=
  ((I.edges.filter fun e => e.source = id ∧ ¬ SyntheticImport e.relation e.metadata).val.map fun e =>
    ⟨e.relation, (I.node e.target).name, e.metadata⟩).sort

def edgesIn (I : Index) (id : ℕ) : List EdgeInfo :=
  ((I.edges.filter fun e => e.target = id ∧ ¬ SyntheticImport e.relation e.metadata).val.map fun e =>
    ⟨e.relation, (I.node e.source).name, e.metadata⟩).sort

/-! ### Rendering -/

/-- What `serde_json` reads in a route's metadata: nothing if that is not JSON, else `method` and `path`
where these are strings. -/
abbrev RouteJson := String → Option (Option String × Option String)

variable (route : RouteJson)

def formatRouteFromMetadata (metadata : Option String) (name : String) : String :=
  match metadata.bind route with
  | some (method, some path) => method.getD "ALL" ++ " " ++ path
  | _ => name

/-- The names of one relation: an arm of `categorize_edges`. -/
def named (relation : Relation) (edges : List EdgeInfo) : List String :=
  (edges.filter fun i => i.relation = relation).map EdgeInfo.name

/-- The text `regenerate_context_strings` computes for a node. -/
def contextOf (d : Db) (id : ℕ) : String :=
  let node := d.index.node id
  let file := d.index.fileOf id
  let details := d.details id
  let out := edgesOut d.index id
  buildContextString
    { nodeType := node.type
      name := node.name
      qualifiedName := details.qualifiedName
      filePath := file.path
      language := file.language
      signature := details.signature
      returnType := details.returnType
      paramTypes := details.paramTypes
      codeContent := some node.codeContent
      routes := (out.filter fun i => i.relation = .routesTo).map fun i =>
        formatRouteFromMetadata route i.metadata i.name
      callees := named .calls out
      callers := named .calls (edgesIn d.index id)
      inherits := named .inherits out
      imports := named .imports out
      implements := named .implements out
      exports := named .exports out
      docComment := details.docComment }

/-- `regenerate_context_strings`. Phase 3 renders in the same way. -/
def regenerateContextStrings (d : Db) (dirty : Finset ℕ) : Db :=
  { d with context := fun id => if id ∈ dirty ∧ d.HasNode id then some (contextOf route d id) else d.context id }

/-! ### Dirty nodes -/

/-- `MAX_IN_PARAMS`. -/
def maxInParams : ℕ := 500

/-- One chunk of `get_dirty_node_ids`. -/
def dirtyNodeIdsOf (I : Index) (fileIds : List ℕ) : Finset ℕ :=
  ((I.edges.filter fun e => (I.node e.target).fileId ∈ fileIds ∧ (I.node e.source).fileId ∉ fileIds).image
      EdgeRow.source) ∪
    ((I.edges.filter fun e => (I.node e.source).fileId ∈ fileIds ∧
      (I.fileOf e.target).path ≠ externalFilePath ∧ (I.node e.target).fileId ∉ fileIds).image EdgeRow.target)

/-- `get_dirty_node_ids`. A chunk excludes the nodes of its own files only. -/
def getDirtyNodeIds (I : Index) (fileIds : List ℕ) : Finset ℕ :=
  ((chunks (maxInParams / 2) fileIds).map (dirtyNodeIdsOf I)).foldl (· ∪ ·) ∅

/-- `collect_dirty_node_ids`. -/
def collectDirtyNodeIds (d : Db) (paths : List String) : Finset ℕ :=
  getDirtyNodeIds d.index (paths.filterMap fun path =>
    (d.index.files.find? fun f => f.path == path).map FileRow.id)

/-- `regenerate_dirty_context`. -/
def regenerateDirtyContext (d : Db) (paths : List String) (before : Finset ℕ) : Db :=
  regenerateContextStrings route d (before ∪ collectDirtyNodeIds d paths)

/-! ### The pending sweep -/

/-- What `resolve_pending_calls_touching` does to the edges: a typed call's edges are deleted before the call
is bound again, and an edge is offered to `insert_edge_cached`. -/
inductive SweepOp
  | delete (rows : Finset EdgeRow)
  | insert (source target : ℕ) (metadata : Option String)

/-- One write of the sweep, with the nodes in `ends`. -/
def sweepStep (s : Index × Finset ℕ) : SweepOp → Index × Finset ℕ
  | .delete rows => (s.1.deleteEdges fun e => e ∈ rows, s.2)
  | .insert source target metadata =>
    if h : source ∈ s.1.nodes.map NodeRow.id ∧ target ∈ s.1.nodes.map NodeRow.id then
      let row := EdgeRow.new source target .calls metadata
      if ∃ e ∈ s.1.edges, e.key = row.key then s
      else
        (s.1.insertEdges {row} (fun _ he => (Finset.mem_singleton.mp he) ▸ h.1)
          (fun _ he => (Finset.mem_singleton.mp he) ▸ h.2)
          (fun _ he _ hf _ => (Finset.mem_singleton.mp he).trans (Finset.mem_singleton.mp hf).symm),
          insert source (insert target s.2))
    else s

def sweep (I : Index) (ops : List SweepOp) : Index × Finset ℕ := ops.foldl sweepStep (I, ∅)

/-! ### `index_files` -/

/-- `reap_orphan_external_nodes`. -/
def reapOrphanExternalNodes (I : Index) : Index :=
  { I with
    nodes := I.nodes.filter fun n => ¬ ((I.file n.fileId).path = externalFilePath ∧
      ∀ e ∈ I.edges, e.source ≠ n.id ∧ e.target ≠ n.id)
    node_ids := I.node_ids.sublist (List.filter_sublist.map NodeRow.id)
    node_file := fun n hn => I.node_file n (List.mem_of_mem_filter hn)
    edge_source := by
      intro e he
      obtain ⟨n, hn, hne⟩ := List.mem_map.mp (I.edge_source e he)
      refine List.mem_map.mpr ⟨n, List.mem_filter.mpr ⟨hn, decide_eq_true ?_⟩, hne⟩
      exact fun horphan => (horphan.2 e he).1 hne.symm
    edge_target := by
      intro e he
      obtain ⟨n, hn, hne⟩ := List.mem_map.mp (I.edge_target e he)
      refine List.mem_map.mpr ⟨n, List.mem_filter.mpr ⟨hn, decide_eq_true ?_⟩, hne⟩
      exact fun horphan => (horphan.2 e he).2 hne.symm }

structure Call where
  /-- What Phases 0 to 2b-final leave. -/
  extracted : Db
  /-- The files of `all_indexed`. -/
  parsed : List String
  deletePaths : List String
  deferredEdges : ℕ
  sweep : List SweepOp
  scope : PostPassScope

variable (json : Json)

/-- Phase 3: the nodes of the parsed files. -/
def Call.rendered (c : Call) : Db :=
  regenerateContextStrings route c.extracted
    ((c.extracted.index.nodes.filter fun n => (c.extracted.index.file n.fileId).path ∈ c.parsed).map
      NodeRow.id).toFinset

/-- The pending sweep runs when a file was parsed or deleted. -/
def Call.sweepOps (c : Call) : List SweepOp :=
  if c.parsed = [] ∧ c.deletePaths = [] then [] else c.sweep

/-- The graph after the pending sweep, and `swept_ends`. -/
def Call.swept (c : Call) : Index × Finset ℕ := Context.sweep c.extracted.index c.sweepOps

/-- Both ends of a swept edge are rendered again. -/
def Call.sweptDb (c : Call) : Db :=
  regenerateContextStrings route { c.rendered route with index := c.swept.1 } c.swept.2

/-- `graph_changed`. -/
def Call.GraphChanged (c : Call) : Prop :=
  c.parsed ≠ [] ∨ c.deletePaths ≠ [] ∨ c.swept.2 ≠ ∅ ∨ 0 < c.deferredEdges

instance (c : Call) : Decidable c.GraphChanged := inferInstanceAs (Decidable (_ ∨ _ ∨ _ ∨ _))

/-- `index_files`, from Phase 3 on. -/
def indexFiles (c : Call) : Db :=
  let d := c.sweptDb route
  if c.GraphChanged then
    { d with index := reapOrphanExternalNodes (runGlobalEdgePostPasses json d.index c.scope) }
  else d

/-! ### Runs -/

/-- An `index_files` whose caller takes the dirty nodes of `paths` before it and renders them after it: a
fan-out round. -/
structure Round where
  paths : List String
  call : Call

def Round.exec (d : Db) (r : Round) : Db :=
  regenerateDirtyContext route (indexFiles route json r.call) r.paths (collectDirtyNodeIds d r.paths)

/-- `run_incremental_index_cached`, told by its dirty seed (the files to index and those deleted), its
`index_files` and its fan-out rounds. -/
structure IncrementalRun where
  seed : List String
  call : Call
  rounds : List Round

def runIncrementalIndexCached (d : Db) (r : IncrementalRun) : Db :=
  if r.seed = [] then indexFiles route json r.call
  else
    let dirty := collectDirtyNodeIds d r.seed
    let d := r.rounds.foldl (Round.exec route json) (indexFiles route json r.call)
    regenerateDirtyContext route d r.seed dirty

/-- `run_full_index`. -/
def runFullIndex (c : Call) : Db := indexFiles route json c

end CodeGraph.Pipeline.Context
