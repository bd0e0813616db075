import CodeGraph.Storage.Index

/-!
# The graph tables while a run rewrites them

`files`, `nodes`, `edges` and `pending_unresolved_calls`, with the statements that an indexing run
makes between its first purge and its deferred pass. `files.path` is unique and a run renames no file,
so a file is known by its path; node ids are the row ids, which SQLite hands out again after a delete.

`severed` is a history variable that no statement reads: the cross-file edges that a purge has cut and
whose source is still the same node.
-/

namespace CodeGraph.Storage.Rows

open CodeGraph.Lib

structure Node where
  id : ℕ
  path : String
  type : String
  name : String
  qualifiedName : Option String
  deriving DecidableEq, Repr

structure Edge where
  source : ℕ
  target : ℕ
  relation : Relation
  metadata : Option String
  deriving DecidableEq, Repr

/-- The columns of `idx_edges_unique`. -/
def Edge.key (e : Edge) : ℕ × ℕ × Relation × String :=
  (e.source, e.target, e.relation, e.metadata.getD "")

structure PendingCall where
  source : ℕ
  targetName : String
  sourceLanguage : String
  metadata : Option String
  deriving DecidableEq, Repr

/-- The columns of `idx_pending_unique`. -/
def PendingCall.key (c : PendingCall) : ℕ × String × String × String :=
  (c.source, c.targetName, c.sourceLanguage, c.metadata.getD "")

/-- An edge that a purge of its target's file has cut. -/
structure Severed where
  source : ℕ
  sourcePath : String
  targetName : String
  targetPath : String
  relation : Relation
  metadata : Option String
  deriving DecidableEq, Repr

structure Graph where
  /-- The `language` column by path, for the rows there are. -/
  files : String → Option (Option String)
  nodes : List Node
  edges : List Edge
  pending : List PendingCall
  severed : List Severed

namespace Graph

def ids (g : Graph) : List ℕ := g.nodes.map Node.id

/-- The ids of a file's nodes. -/
def idsOf (g : Graph) (path : String) : List ℕ :=
  (g.nodes.filter fun n => n.path = path).map Node.id

def node? (g : Graph) (id : ℕ) : Option Node := g.nodes.find? fun n => n.id == id

/-- `upsert_file`. -/
def upsertFile (g : Graph) (path : String) (language : Option String) : Graph :=
  { g with files := Function.update g.files path (some language) }

/-- A row of `nodes` under the id that `alloc` picks. -/
def insertNode (g : Graph) (alloc : List ℕ → ℕ) (path type name : String)
    (qualifiedName : Option String) : Graph × ℕ :=
  ({ g with nodes := g.nodes ++ [⟨alloc g.ids, path, type, name, qualifiedName⟩] }, alloc g.ids)

/-- `insert_edge_cached`: `INSERT OR IGNORE`. -/
def insertEdge (g : Graph) (e : Edge) : Graph :=
  if e.key ∈ g.edges.map Edge.key then g else { g with edges := g.edges ++ [e] }

/-- `insert_pending_unresolved_call`: `INSERT OR IGNORE`. -/
def insertPending (g : Graph) (c : PendingCall) : Graph :=
  if c.key ∈ g.pending.map PendingCall.key then g else { g with pending := g.pending ++ [c] }

/-- `DELETE FROM edges WHERE …`. -/
def deleteEdges (g : Graph) (p : Edge → Bool) : Graph :=
  { g with edges := g.edges.filter fun e => !p e }

/-- The edges into a file from nodes of other files, with both ends: what
`get_inbound_cross_file_edges`, `get_inbound_calls_for_pending` and
`get_inbound_relations_for_requeue` join. -/
def inbound (g : Graph) (path : String) : List (Edge × Node × Node) :=
  g.edges.filterMap fun e =>
    match g.node? e.source, g.node? e.target with
    | some s, some t => if t.path = path ∧ s.path ≠ path then some (e, s, t) else none
    | _, _ => none

def Severed.of (x : Edge × Node × Node) : Severed :=
  ⟨x.2.1.id, x.2.1.path, x.2.2.name, x.2.2.path, x.1.relation, x.1.metadata⟩

/-- `delete_nodes_by_file`: the foreign keys cascade to `edges` and `pending_unresolved_calls`. -/
def purge (g : Graph) (path : String) : Graph :=
  { g with
    nodes := g.nodes.filter fun n => n.path ≠ path
    edges := g.edges.filter fun e => e.source ∉ g.idsOf path ∧ e.target ∉ g.idsOf path
    pending := g.pending.filter fun c => c.source ∉ g.idsOf path
    severed := (g.severed.filter fun o => o.source ∉ g.idsOf path) ++
      (g.inbound path).map Severed.of }

/-- A file row and, by cascade, its nodes. -/
def deleteFile (g : Graph) (path : String) : Graph :=
  let g := g.purge path
  { g with files := Function.update g.files path none }

end Graph

/-! ### Foreign keys -/

variable {g : Graph} {alloc : List ℕ → ℕ} {path : String} {id : ℕ}

/-- What the primary key and the foreign keys say of the tables, and what `severed` is. -/
structure WellFormed (g : Graph) : Prop where
  ids_nodup : g.ids.Nodup
  edge_source : ∀ e ∈ g.edges, e.source ∈ g.ids
  edge_target : ∀ e ∈ g.edges, e.target ∈ g.ids
  pending_source : ∀ c ∈ g.pending, c.source ∈ g.ids
  node_file : ∀ n ∈ g.nodes, g.files n.path ≠ none
  severed_source : ∀ o ∈ g.severed, ∃ n ∈ g.nodes, n.id = o.source ∧ n.path = o.sourcePath
  severed_cross : ∀ o ∈ g.severed, o.sourcePath ≠ o.targetPath

theorem mem_ids : id ∈ g.ids ↔ ∃ n ∈ g.nodes, n.id = id := List.mem_map

theorem node?_eq_some_iff (hg : WellFormed g) {n : Node} :
    g.node? id = some n ↔ n ∈ g.nodes ∧ n.id = id := by
  constructor
  · intro h
    exact ⟨List.mem_of_find?_eq_some h, by simpa using List.find?_some h⟩
  · rintro ⟨hn, rfl⟩
    exact find?_key_eq_some hg.ids_nodup hn

/-- A node is told by its id. -/
theorem node_unique (hg : WellFormed g) {n n' : Node} (hn : n ∈ g.nodes) (hn' : n' ∈ g.nodes)
    (h : n.id = n'.id) : n = n' :=
  List.inj_on_of_nodup_map hg.ids_nodup hn hn' h

theorem mem_inbound (hg : WellFormed g) {x : Edge × Node × Node} :
    x ∈ g.inbound path ↔ x.1 ∈ g.edges ∧ x.2.1 ∈ g.nodes ∧ x.2.2 ∈ g.nodes ∧
      x.2.1.id = x.1.source ∧ x.2.2.id = x.1.target ∧ x.2.2.path = path ∧ x.2.1.path ≠ path := by
  obtain ⟨e, s, t⟩ := x
  unfold Graph.inbound
  rw [List.mem_filterMap]
  constructor
  · rintro ⟨e', he', h⟩
    cases hs : g.node? e'.source with
    | none => simp [hs] at h
    | some s' =>
      cases ht : g.node? e'.target with
      | none => simp [hs, ht] at h
      | some t' =>
        simp only [hs, ht] at h
        split_ifs at h with hcond
        simp only [Option.some_inj, Prod.mk.injEq] at h
        obtain ⟨rfl, rfl, rfl⟩ := h
        obtain ⟨hsn, hsid⟩ := (node?_eq_some_iff hg).mp hs
        obtain ⟨htn, htid⟩ := (node?_eq_some_iff hg).mp ht
        exact ⟨he', hsn, htn, hsid, htid, hcond⟩
  · rintro ⟨he, hs, ht, hsid, htid, hcond⟩
    refine ⟨e, he, ?_⟩
    have hs' : g.node? e.source = some s := (node?_eq_some_iff hg).mpr ⟨hs, hsid⟩
    have ht' : g.node? e.target = some t := (node?_eq_some_iff hg).mpr ⟨ht, htid⟩
    rw [hs', ht']
    exact if_pos hcond

theorem mem_idsOf : id ∈ g.idsOf path ↔ ∃ n ∈ g.nodes, n.path = path ∧ n.id = id := by
  unfold Graph.idsOf
  simp only [List.mem_map, List.mem_filter, decide_eq_true_eq, and_assoc]

theorem not_mem_idsOf (hg : WellFormed g) {n : Node} (hn : n ∈ g.nodes) (hp : n.path ≠ path) :
    n.id ∉ g.idsOf path := by
  intro h
  obtain ⟨n', hn', hp', hid⟩ := mem_idsOf.mp h
  exact hp (node_unique hg hn hn' hid.symm ▸ hp')

theorem mem_purge_nodes {n : Node} : n ∈ (g.purge path).nodes ↔ n ∈ g.nodes ∧ n.path ≠ path := by
  simp [Graph.purge]

theorem mem_purge_edges {e : Edge} :
    e ∈ (g.purge path).edges ↔
      e ∈ g.edges ∧ e.source ∉ g.idsOf path ∧ e.target ∉ g.idsOf path := by
  simp [Graph.purge]

theorem mem_purge_pending {c : PendingCall} :
    c ∈ (g.purge path).pending ↔ c ∈ g.pending ∧ c.source ∉ g.idsOf path := by
  simp [Graph.purge]

theorem mem_purge_severed {o : Severed} :
    o ∈ (g.purge path).severed ↔ (o ∈ g.severed ∧ o.source ∉ g.idsOf path) ∨
      ∃ x ∈ g.inbound path, Graph.Severed.of x = o := by
  simp [Graph.purge]

/-- An id that survives a purge is not one of the purged. -/
theorem mem_purge_ids (hid : id ∈ g.ids) : id ∈ (g.purge path).ids ∨ id ∈ g.idsOf path := by
  obtain ⟨n, hn, rfl⟩ := mem_ids.mp hid
  by_cases hp : n.path = path
  · exact .inr (mem_idsOf.mpr ⟨n, hn, hp, rfl⟩)
  · exact .inl (mem_ids.mpr ⟨n, mem_purge_nodes.mpr ⟨hn, hp⟩, rfl⟩)

/-! ### Every statement keeps the keys -/

theorem WellFormed.upsertFile (hg : WellFormed g) {language : Option String} :
    WellFormed (g.upsertFile path language) := by
  refine ⟨hg.ids_nodup, hg.edge_source, hg.edge_target, hg.pending_source, ?_, hg.severed_source,
    hg.severed_cross⟩
  intro n hn
  show Function.update g.files path (some language) n.path ≠ none
  by_cases hp : n.path = path
  · rw [hp, Function.update_self]
    exact Option.some_ne_none _
  · rw [Function.update_of_ne hp]
    exact hg.node_file n hn

theorem WellFormed.purge (hg : WellFormed g) : WellFormed (g.purge path) where
  ids_nodup := by
    have hsub : List.Sublist ((g.purge path).nodes.map Node.id) (g.nodes.map Node.id) :=
      List.Sublist.map _ List.filter_sublist
    exact hg.ids_nodup.sublist hsub
  edge_source := by
    intro e he
    obtain ⟨he, hs, -⟩ := mem_purge_edges.mp he
    exact (mem_purge_ids (hg.edge_source e he)).resolve_right hs
  edge_target := by
    intro e he
    obtain ⟨he, -, ht⟩ := mem_purge_edges.mp he
    exact (mem_purge_ids (hg.edge_target e he)).resolve_right ht
  pending_source := by
    intro c hc
    obtain ⟨hc, hs⟩ := mem_purge_pending.mp hc
    exact (mem_purge_ids (hg.pending_source c hc)).resolve_right hs
  node_file := fun n hn => hg.node_file n (mem_purge_nodes.mp hn).1
  severed_source := by
    intro o ho
    -- a severed row was there before, or is an edge into the file
    rcases mem_purge_severed.mp ho with ⟨ho, hs⟩ | ⟨x, hx, rfl⟩
    · obtain ⟨n, hn, hid, hp⟩ := hg.severed_source o ho
      refine ⟨n, mem_purge_nodes.mpr ⟨hn, ?_⟩, hid, hp⟩
      intro hpath
      exact hs (mem_idsOf.mpr ⟨n, hn, hpath, hid⟩)
    · obtain ⟨-, hs, -, -, -, -, hne⟩ := (mem_inbound hg).mp hx
      exact ⟨x.2.1, mem_purge_nodes.mpr ⟨hs, hne⟩, rfl, rfl⟩
  severed_cross := by
    intro o ho
    rcases mem_purge_severed.mp ho with ⟨ho, -⟩ | ⟨x, hx, rfl⟩
    · exact hg.severed_cross o ho
    · obtain ⟨-, -, -, -, -, ht, hne⟩ := (mem_inbound hg).mp hx
      show x.2.1.path ≠ x.2.2.path
      rw [ht]
      exact hne

theorem WellFormed.deleteFile (hg : WellFormed g) : WellFormed (g.deleteFile path) := by
  have hp : WellFormed (g.purge path) := hg.purge
  refine ⟨hp.ids_nodup, hp.edge_source, hp.edge_target, hp.pending_source, ?_, hp.severed_source,
    hp.severed_cross⟩
  intro n hn
  show Function.update (g.purge path).files path none n.path ≠ none
  rw [Function.update_of_ne (mem_purge_nodes.mp hn).2]
  exact hp.node_file n hn

theorem mem_insertNode_nodes {type name : String} {q : Option String} {n : Node} :
    n ∈ (g.insertNode alloc path type name q).1.nodes ↔
      n ∈ g.nodes ∨ n = ⟨alloc g.ids, path, type, name, q⟩ := by
  simp [Graph.insertNode]

theorem WellFormed.insertNode (hg : WellFormed g) (hfresh : alloc g.ids ∉ g.ids)
    (hfile : g.files path ≠ none) {type name : String} {q : Option String} :
    WellFormed (g.insertNode alloc path type name q).1 := by
  have hids : (g.insertNode alloc path type name q).1.ids = g.ids ++ [alloc g.ids] := by
    simp [Graph.insertNode, Graph.ids]
  have hold : ∀ i ∈ g.ids, i ∈ (g.insertNode alloc path type name q).1.ids := by
    intro i hi
    rw [hids]
    exact List.mem_append_left _ hi
  refine ⟨?_, fun e he => hold _ (hg.edge_source e he), fun e he => hold _ (hg.edge_target e he),
    fun c hc => hold _ (hg.pending_source c hc), ?_, ?_, hg.severed_cross⟩
  · rw [hids]
    exact List.nodup_append.mpr ⟨hg.ids_nodup, List.nodup_singleton _, by
      intro i hi j hj hij
      rw [List.mem_singleton.mp hj] at hij
      exact hfresh (hij ▸ hi)⟩
  · intro n hn
    rcases mem_insertNode_nodes.mp hn with hn | rfl
    · exact hg.node_file n hn
    · exact hfile
  · intro o ho
    obtain ⟨n, hn, h⟩ := hg.severed_source o ho
    exact ⟨n, mem_insertNode_nodes.mpr (.inl hn), h⟩

theorem mem_insertEdge {e f : Edge} (h : f ∈ (g.insertEdge e).edges) : f ∈ g.edges ∨ f = e := by
  unfold Graph.insertEdge at h
  split_ifs at h
  · exact .inl h
  · exact (List.mem_append.mp h).imp_right List.mem_singleton.mp

theorem subset_insertEdge {e f : Edge} (h : f ∈ g.edges) : f ∈ (g.insertEdge e).edges := by
  unfold Graph.insertEdge
  split_ifs
  · exact h
  · exact List.mem_append_left _ h

/-- After the insert there is an edge with this key. -/
theorem exists_insertEdge (e : Edge) : ∃ f ∈ (g.insertEdge e).edges, f.key = e.key := by
  unfold Graph.insertEdge
  split_ifs with h
  · obtain ⟨f, hf, hk⟩ := List.mem_map.mp h
    exact ⟨f, hf, hk⟩
  · exact ⟨e, List.mem_append_right _ List.mem_cons_self, rfl⟩

theorem mem_insertPending {c d : PendingCall} (h : d ∈ (g.insertPending c).pending) :
    d ∈ g.pending ∨ d = c := by
  unfold Graph.insertPending at h
  split_ifs at h
  · exact .inl h
  · exact (List.mem_append.mp h).imp_right List.mem_singleton.mp

theorem subset_insertPending {c d : PendingCall} (h : d ∈ g.pending) :
    d ∈ (g.insertPending c).pending := by
  unfold Graph.insertPending
  split_ifs
  · exact h
  · exact List.mem_append_left _ h

theorem exists_insertPending (c : PendingCall) :
    ∃ d ∈ (g.insertPending c).pending, d.key = c.key := by
  unfold Graph.insertPending
  split_ifs with h
  · obtain ⟨d, hd, hk⟩ := List.mem_map.mp h
    exact ⟨d, hd, hk⟩
  · exact ⟨c, List.mem_append_right _ List.mem_cons_self, rfl⟩

@[simp] theorem insertEdge_nodes (e : Edge) : (g.insertEdge e).nodes = g.nodes := by
  unfold Graph.insertEdge
  split_ifs <;> rfl

@[simp] theorem insertEdge_files (e : Edge) : (g.insertEdge e).files = g.files := by
  unfold Graph.insertEdge
  split_ifs <;> rfl

@[simp] theorem insertEdge_pending (e : Edge) : (g.insertEdge e).pending = g.pending := by
  unfold Graph.insertEdge
  split_ifs <;> rfl

@[simp] theorem insertEdge_severed (e : Edge) : (g.insertEdge e).severed = g.severed := by
  unfold Graph.insertEdge
  split_ifs <;> rfl

@[simp] theorem insertPending_nodes (c : PendingCall) : (g.insertPending c).nodes = g.nodes := by
  unfold Graph.insertPending
  split_ifs <;> rfl

@[simp] theorem insertPending_files (c : PendingCall) : (g.insertPending c).files = g.files := by
  unfold Graph.insertPending
  split_ifs <;> rfl

@[simp] theorem insertPending_edges (c : PendingCall) : (g.insertPending c).edges = g.edges := by
  unfold Graph.insertPending
  split_ifs <;> rfl

@[simp] theorem insertPending_severed (c : PendingCall) :
    (g.insertPending c).severed = g.severed := by
  unfold Graph.insertPending
  split_ifs <;> rfl

theorem WellFormed.insertEdge (hg : WellFormed g) {e : Edge} (hs : e.source ∈ g.ids)
    (ht : e.target ∈ g.ids) : WellFormed (g.insertEdge e) := by
  have hids : (g.insertEdge e).ids = g.ids := by simp [Graph.ids]
  refine ⟨hids ▸ hg.ids_nodup, ?_, ?_, ?_, ?_, ?_, ?_⟩
  · intro f hf
    rw [hids]
    rcases mem_insertEdge hf with hf | rfl
    · exact hg.edge_source f hf
    · exact hs
  · intro f hf
    rw [hids]
    rcases mem_insertEdge hf with hf | rfl
    · exact hg.edge_target f hf
    · exact ht
  · rw [hids, insertEdge_pending]
    exact hg.pending_source
  · rw [insertEdge_nodes, insertEdge_files]
    exact hg.node_file
  · rw [insertEdge_nodes, insertEdge_severed]
    exact hg.severed_source
  · rw [insertEdge_severed]
    exact hg.severed_cross

theorem WellFormed.insertPending (hg : WellFormed g) {c : PendingCall} (hs : c.source ∈ g.ids) :
    WellFormed (g.insertPending c) := by
  have hids : (g.insertPending c).ids = g.ids := by simp [Graph.ids]
  refine ⟨hids ▸ hg.ids_nodup, ?_, ?_, ?_, ?_, ?_, ?_⟩
  · rw [hids, insertPending_edges]
    exact hg.edge_source
  · rw [hids, insertPending_edges]
    exact hg.edge_target
  · intro d hd
    rw [hids]
    rcases mem_insertPending hd with hd | rfl
    · exact hg.pending_source d hd
    · exact hs
  · rw [insertPending_nodes, insertPending_files]
    exact hg.node_file
  · rw [insertPending_nodes, insertPending_severed]
    exact hg.severed_source
  · rw [insertPending_severed]
    exact hg.severed_cross

theorem WellFormed.deleteEdges (hg : WellFormed g) {p : Edge → Bool} :
    WellFormed (g.deleteEdges p) :=
  ⟨hg.ids_nodup, fun e he => hg.edge_source e (List.mem_filter.mp he).1,
    fun e he => hg.edge_target e (List.mem_filter.mp he).1, hg.pending_source, hg.node_file,
    hg.severed_source, hg.severed_cross⟩

end CodeGraph.Storage.Rows
