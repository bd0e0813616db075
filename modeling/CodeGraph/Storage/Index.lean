import CodeGraph.Lib.Table
import Mathlib.Data.List.Nodup
import Mathlib.Data.Finset.Image

/-!
# The index database

The tables of `storage/schema.rs` as the indexer's passes read them: `files`, `nodes` and `edges`.
An `Index` carries what the schema enforces (primary keys, the unique path, foreign keys, the unique
index on edges), so a state that breaks it cannot be built.

Rows are modelled by the columns that a pass reads. An edge has no row id: `idx_edges_unique` tells
edges apart already.
-/

namespace CodeGraph.Storage

open CodeGraph.Lib

/-- `domain::REL_*`. -/
inductive Relation
  | calls | inherits | imports | routesTo | implements | exports | references
  deriving DecidableEq, Repr

/-- `domain::CONF_*`. -/
inductive Confidence
  | extracted | inferred | ambiguous
  deriving DecidableEq, Repr

structure FileRow where
  id : ℕ
  path : String
  language : Option String
  deriving DecidableEq, Repr

structure NodeRow where
  id : ℕ
  fileId : ℕ
  type : String
  name : String
  codeContent : String
  deriving DecidableEq, Repr

structure EdgeRow where
  source : ℕ
  target : ℕ
  relation : Relation
  metadata : Option String
  confidence : Confidence
  deriving DecidableEq, Repr

/-- The columns of `idx_edges_unique`: `(source_id, target_id, relation, COALESCE(metadata, ''))`. -/
def EdgeRow.key (e : EdgeRow) : ℕ × ℕ × Relation × String :=
  (e.source, e.target, e.relation, e.metadata.getD "")

/-- The row `INSERT OR IGNORE INTO edges (source_id, target_id, relation, metadata)` adds. -/
def EdgeRow.new (source target : ℕ) (relation : Relation) (metadata : Option String) : EdgeRow :=
  ⟨source, target, relation, metadata, .extracted⟩

/-- No edges are told apart by their keys. -/
theorem noEdges_key : KeyUnique EdgeRow.key ∅ := by decide

structure Index where
  files : List FileRow
  nodes : List NodeRow
  edges : Finset EdgeRow
  file_ids : (files.map FileRow.id).Nodup
  file_paths : (files.map FileRow.path).Nodup
  node_ids : (nodes.map NodeRow.id).Nodup
  node_file : ∀ n ∈ nodes, n.fileId ∈ files.map FileRow.id
  edge_source : ∀ e ∈ edges, e.source ∈ nodes.map NodeRow.id
  edge_target : ∀ e ∈ edges, e.target ∈ nodes.map NodeRow.id
  edge_key : KeyUnique EdgeRow.key edges

namespace Index

/-- The node with this id. A foreign key asks for no other, so the row a missing id gets is never
read. -/
def node (I : Index) (id : ℕ) : NodeRow :=
  (I.nodes.find? fun n => n.id == id).getD ⟨id, 0, "", "", ""⟩

/-- The file with this id. -/
def file (I : Index) (id : ℕ) : FileRow :=
  (I.files.find? fun f => f.id == id).getD ⟨id, "", none⟩

/-- The file of the node with this id. -/
def fileOf (I : Index) (id : ℕ) : FileRow := I.file (I.node id).fileId

variable {I : Index}

theorem node_of_mem {n : NodeRow} (h : n ∈ I.nodes) : I.node n.id = n := by
  unfold node
  rw [find?_key_eq_some I.node_ids h, Option.getD_some]

theorem file_of_mem {f : FileRow} (h : f ∈ I.files) : I.file f.id = f := by
  unfold file
  rw [find?_key_eq_some I.file_ids h, Option.getD_some]

theorem node_mem {id : ℕ} (h : id ∈ I.nodes.map NodeRow.id) :
    I.node id ∈ I.nodes ∧ (I.node id).id = id := by
  obtain ⟨n, hn, rfl⟩ := List.mem_map.mp h
  rw [node_of_mem hn]
  exact ⟨hn, rfl⟩

theorem file_mem {id : ℕ} (h : id ∈ I.files.map FileRow.id) :
    I.file id ∈ I.files ∧ (I.file id).id = id := by
  obtain ⟨f, hf, rfl⟩ := List.mem_map.mp h
  rw [file_of_mem hf]
  exact ⟨hf, rfl⟩

theorem fileOf_mem {id : ℕ} (h : id ∈ I.nodes.map NodeRow.id) :
    I.fileOf id ∈ I.files ∧ (I.fileOf id).id = (I.node id).fileId :=
  file_mem (I.node_file _ (node_mem h).1)

/-! ### Writing edges -/

/-- The index with its edges replaced. -/
def withEdges (I : Index) (E : Finset EdgeRow)
    (hsource : ∀ e ∈ E, e.source ∈ I.nodes.map NodeRow.id)
    (htarget : ∀ e ∈ E, e.target ∈ I.nodes.map NodeRow.id)
    (hkey : KeyUnique EdgeRow.key E) : Index :=
  { I with edges := E, edge_source := hsource, edge_target := htarget, edge_key := hkey }

theorem withEdges_congr {E E' : Finset EdgeRow} {h₁ h₂ h₃ h₁' h₂' h₃'} (h : E = E') :
    I.withEdges E h₁ h₂ h₃ = I.withEdges E' h₁' h₂' h₃' := by
  subst h
  rfl

/-- `DELETE FROM edges WHERE …`. -/
def deleteEdges (I : Index) (p : EdgeRow → Prop) [DecidablePred p] : Index :=
  I.withEdges (I.edges.filter fun e => ¬ p e)
    (fun e he => I.edge_source e (Finset.mem_of_mem_filter e he))
    (fun e he => I.edge_target e (Finset.mem_of_mem_filter e he))
    (I.edge_key.subset (Finset.filter_subset _ _))

/-- `INSERT OR IGNORE INTO edges … SELECT`, of rows between nodes of the index. -/
def insertEdges (I : Index) (S : Finset EdgeRow)
    (hsource : ∀ e ∈ S, e.source ∈ I.nodes.map NodeRow.id)
    (htarget : ∀ e ∈ S, e.target ∈ I.nodes.map NodeRow.id)
    (hkey : KeyUnique EdgeRow.key S) : Index :=
  I.withEdges (insertOrIgnore EdgeRow.key I.edges S)
    (fun e he => (mem_insertOrIgnore.mp he).elim (I.edge_source e) fun h => hsource e h.1)
    (fun e he => (mem_insertOrIgnore.mp he).elim (I.edge_target e) fun h => htarget e h.1)
    (I.edge_key.insertOrIgnore hkey)

/-- `UPDATE edges SET confidence = …`, where `conf` gives the edges to write their label. -/
def relabelEdges (I : Index) (conf : EdgeRow → Option Confidence) : Index :=
  I.withEdges (I.edges.image fun e => { e with confidence := (conf e).getD e.confidence })
    (by
      intro e he
      obtain ⟨f, hf, rfl⟩ := Finset.mem_image.mp he
      exact I.edge_source f hf)
    (by
      intro e he
      obtain ⟨f, hf, rfl⟩ := Finset.mem_image.mp he
      exact I.edge_target f hf)
    (by
      intro e he f hf hk
      obtain ⟨e', he', rfl⟩ := Finset.mem_image.mp he
      obtain ⟨f', hf', rfl⟩ := Finset.mem_image.mp hf
      rw [I.edge_key e' he' f' hf' hk])

/-- Two relabellings that write the same label to every edge are one. -/
theorem relabelEdges_congr {conf conf' : EdgeRow → Option Confidence}
    (h : ∀ e ∈ I.edges, (conf e).getD e.confidence = (conf' e).getD e.confidence) :
    I.relabelEdges conf = I.relabelEdges conf' := by
  apply withEdges_congr
  apply Finset.image_congr
  intro e he
  show EdgeRow.mk _ _ _ _ _ = EdgeRow.mk _ _ _ _ _
  rw [h e he]

end Index

end CodeGraph.Storage
