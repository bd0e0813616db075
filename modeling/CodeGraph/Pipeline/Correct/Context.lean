import CodeGraph.Lib.Run
import CodeGraph.Pipeline.Context
import CodeGraph.Pipeline.Correct.PassContext

/-!
# Context strings reflect the graph where the dirty sets cover what changed

A context string is a function of the node's row and its `links`: the edges at the node, each with the name and
the file at the other end. A node's string is therefore still right after a pass that left both alone, and right
again after it was rendered. What is left is which nodes a pass can change without rendering them:

* Phases 0 to 2b-final: every node that they keep, and that is not rendered as a neighbour of the caller's paths;
* the pending sweep: the ends of the edges that it deletes;
* the post-passes: both ends of every edge that they bind or prune.

`Covered` says that none of this happens. The dirty set of a run is rendered after its fan-out rounds, and a
round may change the graph again: `Stale` is the invariant of the rounds.
-/

namespace CodeGraph.Pipeline.Context

open CodeGraph.Lib CodeGraph.Storage CodeGraph.Pipeline.Resolve

variable {route : RouteJson} {json : Json} {d d' : Db} {I J : Index} {x : ℕ}

/-! ### What a context string depends on -/

/-- An edge as one of its ends sees it: the relation, the name and the file at the other end, the metadata. -/
abbrev Link := Relation × String × String × Option String

def outLinks (I : Index) (x : ℕ) : Multiset Link :=
  (I.edges.filter fun e => e.source = x).val.map fun e =>
    (e.relation, (I.node e.target).name, (I.fileOf e.target).path, e.metadata)

def inLinks (I : Index) (x : ℕ) : Multiset Link :=
  (I.edges.filter fun e => e.target = x).val.map fun e =>
    (e.relation, (I.node e.source).name, (I.fileOf e.source).path, e.metadata)

/-- The links of a node, out and in. -/
def links (I : Index) (x : ℕ) : Multiset Link × Multiset Link := (outLinks I x, inLinks I x)

/-- What `get_edges_batch` makes of links. -/
def infos (ls : Multiset Link) : List EdgeInfo :=
  ((ls.filter fun l => ¬ SyntheticImport l.1 l.2.2.2).map fun l => EdgeInfo.mk l.1 l.2.1 l.2.2.2).sort

theorem edgesOut_eq (I : Index) (x : ℕ) : edgesOut I x = infos (outLinks I x) := by
  unfold edgesOut infos outLinks
  rw [Multiset.filter_map, Multiset.map_map, Finset.filter_val, Finset.filter_val, Multiset.filter_filter]
  congr 2
  apply Multiset.filter_congr
  exact fun e _ => and_comm

theorem edgesIn_eq (I : Index) (x : ℕ) : edgesIn I x = infos (inLinks I x) := by
  unfold edgesIn infos inLinks
  rw [Multiset.filter_map, Multiset.map_map, Finset.filter_val, Finset.filter_val, Multiset.filter_filter]
  congr 2
  apply Multiset.filter_congr
  exact fun e _ => and_comm

/-- A node that is the same in both states, its context string included. -/
structure SameNode (d d' : Db) (x : ℕ) : Prop where
  node : d'.index.node x = d.index.node x
  file : d'.index.fileOf x = d.index.fileOf x
  details : d'.details x = d.details x
  context : d'.context x = d.context x

theorem SameNode.contextOf (h : SameNode d d' x) (hlinks : links d'.index x = links d.index x) :
    contextOf route d' x = contextOf route d x := by
  have hout : outLinks d'.index x = outLinks d.index x := congrArg Prod.fst hlinks
  have hin : inLinks d'.index x = inLinks d.index x := congrArg Prod.snd hlinks
  unfold Context.contextOf
  rw [edgesOut_eq, edgesOut_eq, edgesIn_eq, edgesIn_eq, hout, hin, h.node, h.file, h.details]

/-- The node has the context string that would be computed for it. -/
def Current (route : RouteJson) (d : Db) (x : ℕ) : Prop := d.context x = some (contextOf route d x)

theorem SameNode.current (h : SameNode d d' x) (hlinks : links d'.index x = links d.index x)
    (hcurrent : Current route d x) : Current route d' x := by
  unfold Current
  rw [h.context, h.contextOf hlinks]
  exact hcurrent

/-- The nodes and files of an index. -/
structure SameNodes (I J : Index) : Prop where
  files : J.files = I.files
  nodes : J.nodes = I.nodes

theorem SameNodes.node (h : SameNodes I J) : J.node = I.node := by
  funext y
  unfold Index.node
  rw [h.nodes]

theorem SameNodes.fileOf (h : SameNodes I J) : J.fileOf = I.fileOf := by
  funext y
  unfold Index.fileOf Index.file
  rw [h.node, h.files]

/-- Links follow the edges at the node. -/
theorem SameNodes.links (h : SameNodes I J) (hout : ∀ e, e.source = x → (e ∈ J.edges ↔ e ∈ I.edges))
    (hin : ∀ e, e.target = x → (e ∈ J.edges ↔ e ∈ I.edges)) : links J x = links I x := by
  have hfilter : ∀ p : EdgeRow → Prop, [DecidablePred p] → (∀ e, p e → (e ∈ J.edges ↔ e ∈ I.edges)) →
      J.edges.filter p = I.edges.filter p := by
    intro p _ hp
    ext e
    rw [Finset.mem_filter, Finset.mem_filter]
    exact and_congr_left fun hpe => hp e hpe
  unfold Context.links outLinks inLinks
  rw [hfilter _ hout, hfilter _ hin, h.node, h.fileOf]

/-! ### Rendering -/

theorem current_regenerate_of_mem {dirty : Finset ℕ} (hx : x ∈ dirty) (hnode : d.HasNode x) :
    Current route (regenerateContextStrings route d dirty) x :=
  if_pos ⟨hx, hnode⟩

/-- Rendering never makes a string wrong. -/
theorem Current.regenerate (h : Current route d x) (dirty : Finset ℕ) :
    Current route (regenerateContextStrings route d dirty) x := by
  by_cases hx : x ∈ dirty ∧ d.HasNode x
  · exact if_pos hx
  · exact (if_neg hx).trans h

/-! ### Dirty nodes -/

/-- The node is outside the paths and a link of it leads into them. -/
def Adjacent (d : Db) (paths : List String) (x : ℕ) : Prop :=
  d.path x ∉ paths ∧ ∃ l, (l ∈ (links d.index x).1 ∨ l ∈ (links d.index x).2) ∧ l.2.2.1 ∈ paths

theorem mem_getDirtyNodeIds {fileIds : List ℕ} :
    x ∈ getDirtyNodeIds I fileIds ↔ ∃ chunk ∈ chunks (maxInParams / 2) fileIds, x ∈ dirtyNodeIdsOf I chunk := by
  have hfold : ∀ (l : List (List ℕ)) (s : Finset ℕ),
      x ∈ (l.map (dirtyNodeIdsOf I)).foldl (· ∪ ·) s ↔ x ∈ s ∨ ∃ chunk ∈ l, x ∈ dirtyNodeIdsOf I chunk := by
    intro l
    induction l with
    | nil => simp
    | cons chunk l ih =>
      intro s
      rw [List.map_cons, List.foldl_cons, ih, Finset.mem_union]
      simp [or_assoc]
  rw [getDirtyNodeIds, hfold]
  simp

/-- The file ids that `collect_dirty_node_ids` looks up are those of the paths. -/
theorem fileId_mem_iff {paths : List String} (hx : x ∈ I.nodes.map NodeRow.id) :
    (I.node x).fileId ∈ (paths.filterMap fun path => (I.files.find? fun f => f.path == path).map FileRow.id) ↔
      (I.fileOf x).path ∈ paths := by
  obtain ⟨hmem, hid⟩ := Index.fileOf_mem hx
  rw [List.mem_filterMap]
  constructor
  · rintro ⟨path, hpath, hfind⟩
    obtain ⟨f, hf, hfid⟩ := Option.map_eq_some_iff.mp hfind
    have hfpath : f.path = path := by simpa using List.find?_some hf
    have hfile : I.fileOf x = f := by
      rw [Index.fileOf, ← hfid]
      exact Index.file_of_mem (List.mem_of_find?_eq_some hf)
    rwa [hfile, hfpath]
  · intro hpath
    refine ⟨_, hpath, ?_⟩
    rw [find?_key_eq_some I.file_paths hmem, Option.map_some, hid]

/-- A neighbour of the paths is in their dirty set. -/
theorem Adjacent.mem_collect {paths : List String} (h : Adjacent d paths x) (hnode : d.HasNode x)
    (hext : d.path x ≠ externalFilePath) : x ∈ collectDirtyNodeIds d paths := by
  obtain ⟨hout, l, hl, hpath⟩ := h
  set I := d.index with hI
  -- the chunk that holds the file at the other end; the node is in no file of the paths, so in none of it
  have hchunk : ∀ y, y ∈ I.nodes.map NodeRow.id → (I.fileOf y).path ∈ paths →
      ∃ chunk ∈ chunks (maxInParams / 2)
        (paths.filterMap fun path => (I.files.find? fun f => f.path == path).map FileRow.id),
        (I.node y).fileId ∈ chunk ∧ (I.node x).fileId ∉ chunk := by
    intro y hy hypath
    have hid := (fileId_mem_iff hy).mpr hypath
    rw [← flatten_chunks (maxInParams / 2) (paths.filterMap _)] at hid
    obtain ⟨chunk, hchunk, hmem⟩ := List.mem_flatten.mp hid
    refine ⟨chunk, hchunk, hmem, fun hx => hout ((fileId_mem_iff hnode).mp ?_)⟩
    rw [← flatten_chunks (maxInParams / 2) (paths.filterMap _)]
    exact List.mem_flatten.mpr ⟨chunk, hchunk, hx⟩
  apply mem_getDirtyNodeIds.mpr
  rcases hl with hl | hl
  · obtain ⟨e, he, rfl⟩ := Multiset.mem_map.mp hl
    obtain ⟨he, hsource⟩ := Finset.mem_filter.mp he
    obtain ⟨chunk, hchunk, hin, hnot⟩ := hchunk e.target (I.edge_target e he) hpath
    refine ⟨chunk, hchunk, Finset.mem_union_left _ (Finset.mem_image.mpr ⟨e, ?_, hsource⟩)⟩
    exact Finset.mem_filter.mpr ⟨he, hin, hsource ▸ hnot⟩
  · obtain ⟨e, he, rfl⟩ := Multiset.mem_map.mp hl
    obtain ⟨he, htarget⟩ := Finset.mem_filter.mp he
    obtain ⟨chunk, hchunk, hin, hnot⟩ := hchunk e.source (I.edge_source e he) hpath
    refine ⟨chunk, hchunk, Finset.mem_union_right _ (Finset.mem_image.mpr ⟨e, ?_, htarget⟩)⟩
    exact Finset.mem_filter.mpr ⟨he, hin, htarget ▸ hext, htarget ▸ hnot⟩

/-! ### The sweep -/

theorem sweep_frame (I : Index) (ops : List SweepOp) :
    (sweep I ops).1.nodes = I.nodes ∧ (sweep I ops).1.files = I.files := by
  unfold sweep
  refine List.foldlRecOn (motive := fun s : Index × Finset ℕ => s.1.nodes = I.nodes ∧ s.1.files = I.files)
    ops sweepStep ⟨rfl, rfl⟩ ?_
  rintro s hs (rows | ⟨source, target, metadata⟩) -
  · exact hs
  · unfold sweepStep
    dsimp only
    split_ifs
    · exact hs
    · exact hs
    · exact hs

/-- Both ends of an edge that the sweep added are told. -/
theorem mem_sweep {ops : List SweepOp} {e : EdgeRow} (he : e ∈ (sweep I ops).1.edges) :
    e ∈ I.edges ∨ e.source ∈ (sweep I ops).2 ∧ e.target ∈ (sweep I ops).2 := by
  have hinv : ∀ e ∈ (sweep I ops).1.edges,
      e ∈ I.edges ∨ e.source ∈ (sweep I ops).2 ∧ e.target ∈ (sweep I ops).2 := by
    unfold sweep
    refine List.foldlRecOn (motive := fun s : Index × Finset ℕ =>
      ∀ e ∈ s.1.edges, e ∈ I.edges ∨ e.source ∈ s.2 ∧ e.target ∈ s.2) ops sweepStep (fun e he => .inl he) ?_
    rintro s hs (rows | ⟨source, target, metadata⟩) -
    · exact fun e he => hs e (Finset.mem_of_mem_filter e he)
    · unfold sweepStep
      dsimp only
      split_ifs
      · exact hs
      · intro e he
        rcases mem_insertOrIgnore.mp he with he | ⟨he, -⟩
        · rcases hs e he with hI | ⟨hsource, htarget⟩
          · exact .inl hI
          · exact .inr ⟨Finset.mem_insert_of_mem (Finset.mem_insert_of_mem hsource),
              Finset.mem_insert_of_mem (Finset.mem_insert_of_mem htarget)⟩
        · rw [Finset.mem_singleton.mp he]
          exact .inr ⟨Finset.mem_insert_self _ _, Finset.mem_insert_of_mem (Finset.mem_insert_self _ _)⟩
      · exact hs
  exact hinv e he

/-- A node that is no end of an edge the sweep added or deleted has the links it had. -/
theorem links_sweep {ops : List SweepOp}
    (hdeleted : ∀ e ∈ I.edges, e ∉ (sweep I ops).1.edges →
      e.source ∈ (sweep I ops).2 ∧ e.target ∈ (sweep I ops).2)
    (hx : x ∉ (sweep I ops).2) : links (sweep I ops).1 x = links I x := by
  obtain ⟨hnodes, hfiles⟩ := sweep_frame I ops
  have hcontext : SameNodes I (sweep I ops).1 := ⟨hfiles, hnodes⟩
  apply hcontext.links
  · intro e hsource
    constructor
    · exact fun he => (mem_sweep he).resolve_right fun hends => hx (hsource ▸ hends.1)
    · exact fun he => by_contra fun hnot => hx (hsource ▸ (hdeleted e he hnot).1)
  · intro e htarget
    constructor
    · exact fun he => (mem_sweep he).resolve_right fun hends => hx (htarget ▸ hends.2)
    · exact fun he => by_contra fun hnot => hx (htarget ▸ (hdeleted e he hnot).2)

/-! ### The post-passes and the reaper -/

/-- The post-passes have no edge to add or remove. -/
structure Idle (json : Json) (I : Index) (scope : PostPassScope) : Prop where
  bind : ∀ r ∈ bindRows json I scope, ∃ e ∈ I.edges, e.key = r.key
  prune : ∀ e ∈ I.edges, scope.Touches I e → ¬ Contradicted json I e
  attr : ∀ r ∈ attrRows json I scope, ∃ e ∈ I.edges, e.key = r.key
  attrPrune : ∀ e ∈ I.edges, scope.Touches I e → ¬ Misbound json I e

theorem deleteEdges_eq_self {p : EdgeRow → Prop} [DecidablePred p] (h : ∀ e ∈ I.edges, ¬ p e) :
    I.deleteEdges p = I := by
  have hedges : (I.deleteEdges p).edges = I.edges := Finset.filter_true_of_mem h
  have hsame : SameContext I (I.deleteEdges p) := ⟨rfl, rfl, fun e _ => by rw [hedges]⟩
  exact hsame.eq_of_edges hedges

theorem insertEdges_eq_self {S : Finset EdgeRow} {hs ht hk} (h : ∀ r ∈ S, ∃ e ∈ I.edges, e.key = r.key) :
    I.insertEdges S hs ht hk = I := by
  have hedges : (I.insertEdges S hs ht hk).edges = I.edges := insertOrIgnore_eq_self_iff.mpr h
  have hsame : SameContext I (I.insertEdges S hs ht hk) := ⟨rfl, rfl, fun e _ => by rw [hedges]⟩
  exact hsame.eq_of_edges hedges

/-- Where they are idle, the post-passes only label. -/
theorem Idle.passes {scope : PostPassScope} (h : Idle json I scope) :
    runGlobalEdgePostPasses json I scope = classifyEdgeConfidence json I scope := by
  have hbind : bindCallsToImportedTargets json I scope = I := insertEdges_eq_self h.bind
  have hprune : pruneImportContradictedCallEdges json I scope = I :=
    deleteEdges_eq_self fun e he hc => h.prune e he hc.1 hc.2
  have hattr : bindModuleAttrCalls json I scope = I := by
    unfold bindModuleAttrCalls
    have hinsert : bindAttr json I scope = I := insertEdges_eq_self h.attr
    rw [hinsert]
    exact deleteEdges_eq_self fun e he hc => h.attrPrune e he hc.1 hc.2
  unfold runGlobalEdgePostPasses
  dsimp only
  rw [hbind, hprune, hattr]

/-- A label is no part of a link. -/
theorem links_relabel (I : Index) (conf : EdgeRow → Option Confidence) (x : ℕ) :
    links (I.relabelEdges conf) x = links I x := by
  have hinj : Set.InjOn (fun e : EdgeRow => { e with confidence := (conf e).getD e.confidence })
      (I.edges : Set EdgeRow) := by
    intro e he f hf heq
    have hkey := congrArg EdgeRow.key heq
    exact I.edge_key e he f hf hkey
  have hmap : ∀ (p : EdgeRow → Prop) [DecidablePred p] (g : EdgeRow → Link),
      (∀ e, p { e with confidence := (conf e).getD e.confidence } ↔ p e) →
      (∀ e, g { e with confidence := (conf e).getD e.confidence } = g e) →
      ((I.relabelEdges conf).edges.filter p).val.map g = (I.edges.filter p).val.map g := by
    intro p _ g hp hg
    show ((I.edges.image _).filter p).val.map g = _
    rw [Finset.filter_image, Finset.image_val_of_injOn, Multiset.map_map]
    · rw [Finset.filter_congr fun e _ => hp e]
      exact Multiset.map_congr rfl fun e _ => hg e
    · exact hinj.mono fun e he => (Finset.mem_filter.mp he).1
  unfold links outLinks inLinks
  rw [hmap _ _ (fun _ => Iff.rfl) (fun _ => rfl), hmap _ _ (fun _ => Iff.rfl) (fun _ => rfl)]
  rfl

theorem reap_subset (I : Index) : ∀ n ∈ (reapOrphanExternalNodes I).nodes, n ∈ I.nodes :=
  fun _ hn => List.mem_of_mem_filter hn

theorem node_reap (hx : x ∈ (reapOrphanExternalNodes I).nodes.map NodeRow.id) :
    (reapOrphanExternalNodes I).node x = I.node x := by
  obtain ⟨hmem, hid⟩ := Index.node_mem hx
  have hI := Index.node_of_mem (reap_subset I _ hmem)
  rw [hid] at hI
  exact hI.symm

theorem fileOf_reap (hx : x ∈ (reapOrphanExternalNodes I).nodes.map NodeRow.id) :
    (reapOrphanExternalNodes I).fileOf x = I.fileOf x := by
  unfold Index.fileOf
  rw [node_reap hx]
  rfl

/-- What is reaped has no edge. -/
theorem links_reap (I : Index) (x : ℕ) : links (reapOrphanExternalNodes I) x = links I x := by
  have hsource : ∀ e ∈ I.edges, e.source ∈ (reapOrphanExternalNodes I).nodes.map NodeRow.id :=
    (reapOrphanExternalNodes I).edge_source
  have htarget : ∀ e ∈ I.edges, e.target ∈ (reapOrphanExternalNodes I).nodes.map NodeRow.id :=
    (reapOrphanExternalNodes I).edge_target
  apply Prod.ext
  · apply Multiset.map_congr rfl
    intro e he
    have he' : e ∈ I.edges := Finset.mem_of_mem_filter e he
    rw [node_reap (htarget e he'), fileOf_reap (htarget e he')]
  · apply Multiset.map_congr rfl
    intro e he
    have he' : e ∈ I.edges := Finset.mem_of_mem_filter e he
    rw [node_reap (hsource e he'), fileOf_reap (hsource e he')]

/-! ### One call -/

variable {c : Call} {paths : List String}

/-- What Phases 0 to 2b-final may do to nodes: the nodes of a file are replaced by those parsed in it or deleted,
and sentinels are minted. -/
def Extracts (d : Db) (c : Call) : Prop :=
  ∀ x, c.extracted.HasNode x → c.extracted.path x ∉ c.parsed → c.extracted.path x ≠ externalFilePath →
    d.HasNode x ∧ SameNode d c.extracted x

/-- The dirty sets cover what the call changes. -/
structure Covered (json : Json) (d : Db) (paths : List String) (c : Call) : Prop where
  /-- A node that is not parsed and has other links now is, or was, a neighbour of the caller's paths. -/
  extraction : ∀ x, c.extracted.HasNode x → c.extracted.path x ∉ c.parsed →
    c.extracted.path x ≠ externalFilePath → links c.extracted.index x ≠ links d.index x →
    x ∈ collectDirtyNodeIds d paths ∨ Adjacent c.extracted paths x
  /-- An edge that the sweep deletes has its ends in `swept_ends`. -/
  sweep : ∀ e ∈ c.extracted.index.edges, e ∉ c.swept.1.edges → e.source ∈ c.swept.2 ∧ e.target ∈ c.swept.2
  /-- The post-passes have nothing to bind or prune. -/
  passes : c.GraphChanged → Idle json c.swept.1 c.scope

theorem sameNodes_swept (c : Call) : SameNodes c.extracted.index c.swept.1 :=
  ⟨(sweep_frame _ _).2, (sweep_frame _ _).1⟩

theorem path_sweptDb (route : RouteJson) (c : Call) : (c.sweptDb route).path = c.extracted.path := by
  funext y
  show (c.swept.1.fileOf y).path = _
  rw [(sameNodes_swept c).fileOf]
  rfl

theorem hasNode_sweptDb (route : RouteJson) (c : Call) : (c.sweptDb route).HasNode x ↔ c.extracted.HasNode x := by
  show x ∈ c.swept.1.nodes.map NodeRow.id ↔ _
  rw [(sameNodes_swept c).nodes]
  rfl

/-- A node that was right in the extracted state, or is parsed, is right after the sweep, unless the sweep changed
its links; then it was rendered. -/
theorem current_sweptDb (hcov : Covered json d paths c) (hx : c.extracted.HasNode x)
    (h : Current route c.extracted x ∨ c.extracted.path x ∈ c.parsed) : Current route (c.sweptDb route) x := by
  by_cases hends : x ∈ c.swept.2
  · exact current_regenerate_of_mem hends ((hasNode_sweptDb route c).mpr hx)
  · have hrendered : Current route (c.rendered route) x := by
      rcases h with h | h
      · exact h.regenerate _
      · apply current_regenerate_of_mem _ hx
        obtain ⟨hmem, hid⟩ := Index.node_mem hx
        rw [List.mem_toFinset]
        exact List.mem_map.mpr ⟨_, List.mem_filter.mpr ⟨hmem, decide_eq_true h⟩, hid⟩
    have hsame : SameNode (c.rendered route) { c.rendered route with index := c.swept.1 } x :=
      ⟨congrFun (sameNodes_swept c).node x, congrFun (sameNodes_swept c).fileOf x, rfl, rfl⟩
    exact (hsame.current (links_sweep hcov.sweep hends) hrendered).regenerate _

/-- The end of a call changes no node that it keeps, and no links. -/
theorem sameNode_indexFiles (hcov : Covered json d paths c) (hx : (indexFiles route json c).HasNode x) :
    SameNode (c.sweptDb route) (indexFiles route json c) x ∧
      links (indexFiles route json c).index x = links (c.sweptDb route).index x ∧
      (c.sweptDb route).HasNode x := by
  unfold indexFiles at hx ⊢
  dsimp only at hx ⊢
  split_ifs at hx ⊢ with hchanged
  · have hidle : runGlobalEdgePostPasses json (c.sweptDb route).index c.scope =
        classifyEdgeConfidence json (c.sweptDb route).index c.scope := (hcov.passes hchanged).passes
    rw [hidle] at hx ⊢
    refine ⟨⟨node_reap hx, fileOf_reap hx, rfl, rfl⟩, ?_, ?_⟩
    · exact (links_reap _ x).trans (links_relabel _ _ x)
    · obtain ⟨n, hn, hid⟩ := List.mem_map.mp hx
      have hn' : n ∈ (c.sweptDb route).index.nodes :=
        reap_subset (classifyEdgeConfidence json (c.sweptDb route).index c.scope) n hn
      exact List.mem_map.mpr ⟨n, hn', hid⟩
  · exact ⟨⟨rfl, rfl, rfl, rfl⟩, rfl, hx⟩

theorem Adjacent.of_links (h : Adjacent d paths x) (hpath : d'.path x = d.path x)
    (hlinks : links d'.index x = links d.index x) : Adjacent d' paths x := by
  unfold Adjacent
  rw [hpath, hlinks]
  exact h

/-- A node outside `<external>`. -/
def Db.Inside (d : Db) (x : ℕ) : Prop := d.HasNode x ∧ d.path x ≠ externalFilePath

/-- Where every node outside `A` was right before the call, a node that is wrong after it is a neighbour of the
caller's paths, or in `A` and untouched. -/
theorem current_indexFiles {A : ℕ → Prop} (hex : Extracts d c) (hcov : Covered json d paths c)
    (hA : ∀ x, d.Inside x → ¬ A x → Current route d x) (hx : (indexFiles route json c).Inside x) :
    Current route (indexFiles route json c) x ∨ x ∈ collectDirtyNodeIds d paths ∨
      Adjacent (indexFiles route json c) paths x ∨
      A x ∧ (indexFiles route json c).path x = d.path x ∧
        links (indexFiles route json c).index x = links d.index x := by
  obtain ⟨hsame, hlinks, hnode⟩ := sameNode_indexFiles hcov hx.1
  have hpath : (indexFiles route json c).path x = c.extracted.path x := by
    rw [← path_sweptDb route c]
    exact congrArg FileRow.path hsame.file
  have hext : c.extracted.path x ≠ externalFilePath := hpath ▸ hx.2
  have hnode : c.extracted.HasNode x := (hasNode_sweptDb route c).mp hnode
  have hright : Current route c.extracted x ∨ c.extracted.path x ∈ c.parsed →
      Current route (indexFiles route json c) x :=
    fun h => hsame.current hlinks (current_sweptDb hcov hnode h)
  by_cases hparsed : c.extracted.path x ∈ c.parsed
  · exact .inl (hright (.inr hparsed))
  by_cases hends : x ∈ c.swept.2
  · refine .inl (hsame.current hlinks ?_)
    exact current_regenerate_of_mem hends ((hasNode_sweptDb route c).mpr hnode)
  -- the node was there before, and the sweep leaves it alone
  obtain ⟨hbefore, hkept⟩ := hex x hnode hparsed hext
  have hswept : links (c.sweptDb route).index x = links c.extracted.index x := links_sweep hcov.sweep hends
  have hpathd : c.extracted.path x = d.path x := congrArg FileRow.path hkept.file
  by_cases hchanged : links c.extracted.index x = links d.index x
  · by_cases hAx : A x
    · exact .inr (.inr (.inr ⟨hAx, hpath.trans hpathd, (hlinks.trans hswept).trans hchanged⟩))
    · exact .inl (hright (.inl (hkept.current hchanged (hA x ⟨hbefore, hpathd ▸ hext⟩ hAx))))
  · rcases hcov.extraction x hnode hparsed hext hchanged with hdirty | hadj
    · exact .inr (.inl hdirty)
    · exact .inr (.inr (.inl (hadj.of_links hpath (hlinks.trans hswept))))

/-! ### Runs -/

/-- Every node outside `<external>` has the context string that would be computed for it. -/
def AllCurrent (route : RouteJson) (d : Db) : Prop := ∀ x, d.Inside x → Current route d x

/-- Nodes that are still to be rendered: neighbours of the seed, from before the run or by now. -/
def Stale (dirty : Finset ℕ) (d : Db) (seed : List String) (x : ℕ) : Prop := x ∈ dirty ∨ Adjacent d seed x

/-- Rendering the dirty nodes leaves none. -/
theorem current_regenerateDirtyContext {dirty : Finset ℕ} {A : ℕ → Prop}
    (h : ∀ x, d.Inside x → Current route d x ∨ x ∈ dirty ∨ Adjacent d paths x ∨ A x) (hx : d.Inside x) :
    Current route (regenerateDirtyContext route d paths dirty) x ∨ A x := by
  rcases h x hx with h | h | h | h
  · exact .inl (h.regenerate _)
  · exact .inl (current_regenerate_of_mem (Finset.mem_union_left _ h) hx.1)
  · exact .inl (current_regenerate_of_mem (Finset.mem_union_right _ (h.mem_collect hx.1 hx.2)) hx.1)
  · exact .inr h

/-- The calls of a run may do what Phases 0 to 2b-final do, and the dirty sets cover them. -/
def RoundCovered (json : Json) (d : Db) (r : Round) : Prop := Extracts d r.call ∧ Covered json d r.paths r.call

/-- A fan-out round renders all that it makes stale. -/
theorem stale_round {dirty : Finset ℕ} {seed : List String} {r : Round} (hr : RoundCovered json d r)
    (h : ∀ x, d.Inside x → Current route d x ∨ Stale dirty d seed x) :
    ∀ x, (r.exec route json d).Inside x → Current route (r.exec route json d) x ∨
      Stale dirty (r.exec route json d) seed x := by
  intro x hx
  have hx' : (indexFiles route json r.call).Inside x := hx
  have hcall : ∀ y, (indexFiles route json r.call).Inside y → _ := fun y hy =>
    current_indexFiles hr.1 hr.2 (fun y hy hstale => (h y hy).resolve_right hstale) hy
  rcases current_regenerateDirtyContext hcall hx' with hcurrent | ⟨hstale, hpath, hlinks⟩
  · exact .inl hcurrent
  · refine .inr ?_
    rcases hstale with hdirty | hadj
    · exact .inl hdirty
    · exact .inr (hadj.of_links hpath hlinks)

/-- The condition on an incremental run. -/
structure RunCovered (route : RouteJson) (json : Json) (d : Db) (r : IncrementalRun) : Prop where
  extracts : Extracts d r.call
  covered : Covered json d r.seed r.call
  rounds : r.seed ≠ [] →
    AllFold (Round.exec route json) (fun d r _ => RoundCovered json d r) (indexFiles route json r.call) r.rounds

theorem allCurrent_runIncrementalIndexCached {r : IncrementalRun} (h : AllCurrent route d)
    (hr : RunCovered route json d r) : AllCurrent route (runIncrementalIndexCached route json d r) := by
  have hcall : ∀ x, (indexFiles route json r.call).Inside x → _ := fun x hx =>
    current_indexFiles (A := fun _ => False) hr.extracts hr.covered (fun y hy _ => h y hy) hx
  unfold runIncrementalIndexCached
  split_ifs with hseed
  · intro x hx
    rcases hcall x hx with hcurrent | hdirty | ⟨-, l, -, hl⟩ | ⟨hfalse, -⟩
    · exact hcurrent
    · rw [hseed] at hdirty
      obtain ⟨chunk, hchunk, -⟩ := mem_getDirtyNodeIds.mp hdirty
      simp [chunks] at hchunk
    · rw [hseed] at hl
      cases hl
    · exact hfalse.elim
  · -- the rounds keep every text current but those that the regeneration writes
    have hrounds := AllFold.invariant (I := fun d' _ => ∀ x, d'.Inside x →
        Current route d' x ∨ Stale (collectDirtyNodeIds d r.seed) d' r.seed x)
      (fun {d' a as} hI hC => stale_round hC hI) ?_ (hr.rounds hseed)
    · intro x hx
      have hx' : (r.rounds.foldl (Round.exec route json) (indexFiles route json r.call)).Inside x := hx
      refine (current_regenerateDirtyContext (A := fun _ => False) (fun y hy => ?_) hx').resolve_right id
      rcases hrounds y hy with hcurrent | hdirty | hadj
      · exact .inl hcurrent
      · exact .inr (.inl hdirty)
      · exact .inr (.inr (.inl hadj))
    · intro x hx
      rcases hcall x hx with hcurrent | hdirty | hadj | ⟨hfalse, -⟩
      · exact .inl hcurrent
      · exact .inr (.inl hdirty)
      · exact .inr (.inr hadj)
      · exact hfalse.elim

/-- A full index of an empty database renders every node that it has. -/
theorem allCurrent_runFullIndex {c : Call} (hex : Extracts Db.empty c) (hcov : Covered json Db.empty [] c) :
    AllCurrent route (runFullIndex route json c) := by
  have hrun : RunCovered route json Db.empty ⟨[], c, []⟩ := ⟨hex, hcov, fun h => absurd rfl h⟩
  have hempty : AllCurrent route Db.empty := fun x hx => absurd hx.1 List.not_mem_nil
  exact allCurrent_runIncrementalIndexCached hempty hrun

/-- **Context strings reflect the graph** after every run of a history in which the dirty sets cover what each
call changes. -/
theorem contexts_reflect_graph (route : RouteJson) (json : Json) (full : Call) (runs : List IncrementalRun)
    (hex : Extracts Db.empty full) (hcov : Covered json Db.empty [] full)
    (hruns : AllFold (runIncrementalIndexCached route json) (fun d r _ => RunCovered route json d r)
      (runFullIndex route json full) runs) :
    AllCurrent route (runs.foldl (runIncrementalIndexCached route json) (runFullIndex route json full)) :=
  AllFold.invariant (I := fun d _ => AllCurrent route d)
    (fun hI hC => allCurrent_runIncrementalIndexCached hI hC) (allCurrent_runFullIndex hex hcov) hruns

/-- Two files, `g` calling `f`. -/
def twoFiles (edges : Finset EdgeRow) (hedges : ∀ e ∈ edges, e.source ∈ [1, 2, 3, 4] ∧ e.target ∈ [1, 2, 3, 4])
    (hkey : KeyUnique EdgeRow.key edges) (context : ℕ → Option String) : Db where
  index :=
    { files := [⟨1, "a.py", some "python"⟩, ⟨2, "b.py", some "python"⟩]
      nodes :=
        [⟨1, 1, "module", "<module>", ""⟩, ⟨2, 1, "function", "f", "def f(): pass"⟩,
          ⟨3, 2, "module", "<module>", ""⟩, ⟨4, 2, "function", "g", "def g(): pass"⟩]
      edges := edges
      file_ids := by decide
      file_paths := by decide
      node_ids := by decide
      node_file := by decide
      edge_source := fun e he => (hedges e he).1
      edge_target := fun e he => (hedges e he).2
      edge_key := hkey }
  details := fun _ => {}
  context := context

/-- The full index: `g` calls `f`. -/
def firstRun : Call where
  extracted := twoFiles {.new 4 2 .calls none} (by decide) (by decide) fun _ => none
  parsed := ["a.py", "b.py"]
  deletePaths := []
  deferredEdges := 1
  sweep := []
  scope := .global

/-- The second run finds `b.py` edited: the call is gone. `f` is a neighbour of `b.py` from before the run. -/
def secondRun (d : Db) : IncrementalRun where
  seed := ["b.py"]
  call :=
    { extracted := twoFiles ∅ (by decide) noEdges_key fun x => if x ∈ [1, 2] then d.context x else none
      parsed := ["b.py"]
      deletePaths := []
      deferredEdges := 0
      sweep := []
      scope := .files {2} ∅ }
  rounds := []

theorem firstRun_then_secondRun_current :
    let noRoutes : RouteJson := fun _ => none
    let noJson : Json := fun _ _ => none
    let first := runFullIndex noRoutes noJson firstRun
    let second := runIncrementalIndexCached noRoutes noJson first (secondRun first)
    first.context 2 = some "function f\npython in a.py\ncalled_by: g\ncode: def f(): pass" ∧
      second.context 2 = some "function f\npython in a.py\ncode: def f(): pass" ∧
      AllCurrent noRoutes second := by
  intro noRoutes noJson first second
  refine ⟨by decide +kernel, by decide +kernel, ?_⟩
  refine contexts_reflect_graph noRoutes noJson firstRun [secondRun first] ?_ ?_ ⟨⟨?_, ?_, ?_⟩, trivial⟩
  · -- the first run parses every file that it has rows of
    intro x hx hparsed
    have hall : ∀ y ∈ firstRun.extracted.index.nodes.map NodeRow.id,
        firstRun.extracted.path y ∈ firstRun.parsed := by decide +kernel
    exact absurd (hall x hx) hparsed
  · constructor
    case extraction =>
      intro x hx hparsed
      have hall : ∀ y ∈ firstRun.extracted.index.nodes.map NodeRow.id,
          firstRun.extracted.path y ∈ firstRun.parsed := by decide +kernel
      exact absurd (hall x hx) hparsed
    case sweep => decide +kernel
    case passes =>
      intro _
      exact ⟨by decide +kernel, by decide +kernel, by decide +kernel, by decide +kernel⟩
  · -- the second run writes no row of `a.py`, which holds the first two nodes
    intro x hx hparsed _
    have hmem : x ∈ [1, 2, 3, 4] := hx
    obtain rfl | rfl | rfl | rfl : x = 1 ∨ x = 2 ∨ x = 3 ∨ x = 4 := by simpa using hmem
    · exact ⟨by decide +kernel, by decide +kernel, by decide +kernel, by decide +kernel, by decide +kernel⟩
    · exact ⟨by decide +kernel, by decide +kernel, by decide +kernel, by decide +kernel, by decide +kernel⟩
    · exact absurd (by decide +kernel) hparsed
    · exact absurd (by decide +kernel) hparsed
  · constructor
    case extraction =>
      intro x hx hparsed _ hlinks
      have hmem : x ∈ [1, 2, 3, 4] := hx
      obtain rfl | rfl | rfl | rfl : x = 1 ∨ x = 2 ∨ x = 3 ∨ x = 4 := by simpa using hmem
      · exact absurd (Prod.ext (by decide +kernel) (by decide +kernel)) hlinks
      · exact .inl (by decide +kernel)
      · exact absurd (by decide +kernel) hparsed
      · exact absurd (by decide +kernel) hparsed
    case sweep => decide +kernel
    case passes =>
      intro _
      exact ⟨by decide +kernel, by decide +kernel, by decide +kernel, by decide +kernel⟩
  · exact fun _ => trivial

/-- What Phases 0 to 2b-final leave of three Python files. `run` calls `process`, which its file imports from
`app/util/helper.py`; the call is bound to the `process` whose path is closest. -/
def proximity : Call where
  extracted :=
    { index :=
        { files :=
            [⟨1, "app/core/caller.py", some "python"⟩, ⟨2, "app/core/helper.py", some "python"⟩,
              ⟨3, "app/util/helper.py", some "python"⟩]
          nodes :=
            [⟨1, 1, "module", "<module>", ""⟩, ⟨2, 1, "function", "run", "def run():\n    return process()"⟩,
              ⟨3, 2, "module", "<module>", ""⟩, ⟨4, 2, "function", "process", "def process():\n    return 1"⟩,
              ⟨5, 3, "module", "<module>", ""⟩, ⟨6, 3, "function", "process", "def process():\n    return 2"⟩]
          edges :=
            {.new 1 5 .imports (some "\x7b\"is_module_import\":true,\"python_module\":\"app.util.helper\"\x7d"),
              .new 1 6 .imports (some "\x7b\"python_module\":\"app.util.helper\"\x7d"),
              .new 2 4 .calls none}
          file_ids := by decide
          file_paths := by decide
          node_ids := by decide
          node_file := by decide
          edge_source := by decide
          edge_target := by decide
          edge_key := by decide }
      details := fun _ => {}
      context := fun _ => none }
  parsed := ["app/core/caller.py", "app/core/helper.py", "app/util/helper.py"]
  deletePaths := []
  deferredEdges := 3
  sweep := []
  scope := .global

/-- `json_extract` of the metadata above. -/
def pythonModuleJson : Json := fun _ k =>
  match k with
  | .pythonModule => some (.text "app.util.helper")
  | _ => none

/-- The call was repointed after both `process` were rendered: the one that it left still says `called_by`. -/
theorem proximity_stale :
    Extracts Db.empty proximity ∧
      (runFullIndex (fun _ => none) pythonModuleJson proximity).context 4 =
        some "function process\npython in app/core/helper.py\ncalled_by: run\ncode: def process():\n    return 1" ∧
      contextOf (fun _ => none) (runFullIndex (fun _ => none) pythonModuleJson proximity) 4 =
        "function process\npython in app/core/helper.py\ncode: def process():\n    return 1" ∧
      ¬ AllCurrent (fun _ => none) (runFullIndex (fun _ => none) pythonModuleJson proximity) := by
  have hinside : (runFullIndex (fun _ => none) pythonModuleJson proximity).Inside 4 :=
    ⟨by decide +kernel, by decide +kernel⟩
  refine ⟨?_, by decide +kernel, by decide +kernel, fun hall => ?_⟩
  · intro x hx hparsed
    have hall : ∀ y ∈ proximity.extracted.index.nodes.map NodeRow.id,
        proximity.extracted.path y ∈ proximity.parsed := by decide +kernel
    exact absurd (hall x hx) hparsed
  · have hne : (runFullIndex (fun _ => none) pythonModuleJson proximity).context 4 ≠
        some (contextOf (fun _ => none) (runFullIndex (fun _ => none) pythonModuleJson proximity) 4) := by
      decide +kernel
    exact hne (hall 4 hinside)

end CodeGraph.Pipeline.Context
