import CodeGraph.Pipeline.IndexFiles

/-!
# What every batch keeps

Between the first purge and the deferred pass the run never breaks a foreign key, and
`global_name_map` names only rows that exist, under their own name and path (`inv_indexFiles`). Both
hold for any answers of the resolution chain and any row ids SQLite may hand out.
-/

namespace CodeGraph.Pipeline.IndexFiles

open CodeGraph.Storage CodeGraph.Storage.Rows

variable {env : Env} {g g' : Graph} {path : String} {id : ℕ}

/-! ### Statements that write no node -/

/-- The two graphs differ in edges and pending calls only. -/
structure SameRows (g g' : Graph) : Prop where
  nodes : g'.nodes = g.nodes
  files : g'.files = g.files
  severed : g'.severed = g.severed

theorem SameRows.refl : SameRows g g := ⟨rfl, rfl, rfl⟩

theorem SameRows.trans {g₁ g₂ g₃ : Graph} (h : SameRows g₁ g₂) (h' : SameRows g₂ g₃) :
    SameRows g₁ g₃ :=
  ⟨h'.nodes.trans h.nodes, h'.files.trans h.files, h'.severed.trans h.severed⟩

theorem SameRows.ids (h : SameRows g g') : g'.ids = g.ids := by
  unfold Graph.ids
  rw [h.nodes]

theorem sameRows_insertEdge (e : Edge) : SameRows g (g.insertEdge e) :=
  ⟨insertEdge_nodes e, insertEdge_files e, insertEdge_severed e⟩

theorem sameRows_insertPending (c : PendingCall) : SameRows g (g.insertPending c) :=
  ⟨insertPending_nodes c, insertPending_files c, insertPending_severed c⟩

theorem mem_inboundKnown (hg : WellFormed g) {x : String × Edge × Node × Node}
    (hx : x ∈ inboundKnown g path) :
    x.2 ∈ g.inbound path ∧ (g.files x.2.2.1.path).join = some x.1 ∧ x.1 ≠ "" ∧
      x.2.2.1 ∈ g.nodes := by
  obtain ⟨y, hy, hxy⟩ := List.mem_filterMap.mp hx
  obtain ⟨language, hl, rfl⟩ := Option.map_eq_some_iff.mp hxy
  obtain ⟨hl, hne⟩ := Option.filter_eq_some_iff.mp hl
  exact ⟨hy, hl, by simpa using hne, ((mem_inbound hg).mp hy).2.1⟩

/-- Buffering writes pending calls of nodes that exist, and nothing else. -/
theorem wellFormed_buffer (env : Env) (hg : WellFormed g) (path : String) (deleteSet : List String)
    (deferred : List DeferredRelation) :
    WellFormed (bufferInboundBeforeNodePurge env deleteSet (g, deferred) path).1 ∧
      SameRows g (bufferInboundBeforeNodePurge env deleteSet (g, deferred) path).1 ∧
      (bufferInboundBeforeNodePurge env deleteSet (g, deferred) path).1.edges = g.edges := by
  unfold bufferInboundBeforeNodePurge
  dsimp only
  refine List.foldlRecOn (motive := fun g₁ => WellFormed g₁ ∧ SameRows g g₁ ∧ g₁.edges = g.edges)
    _ _ ⟨hg, SameRows.refl, rfl⟩ ?_
  rintro g₁ ⟨hg₁, hsame, hedges⟩ x hx
  have hlive := (mem_inboundKnown hg (List.mem_filter.mp hx).1).2.2.2
  have hid : x.2.2.1.id ∈ g₁.ids := by
    rw [hsame.ids]
    exact mem_ids.mpr ⟨_, hlive, rfl⟩
  exact ⟨hg₁.insertPending hid, hsame.trans (sameRows_insertPending _),
    (insertPending_edges _).trans hedges⟩

/-- A file set aside, just before its purge. -/
abbrev buffered (env : Env) (g : Graph) (deferred : List DeferredRelation) (file : String × String) :
    Graph × List DeferredRelation :=
  bufferInboundBeforeNodePurge env [] (g.upsertFile file.1 (some file.2), deferred) file.1

/-- A file set aside loses its nodes; nothing else of the rows changes. -/
theorem wellFormed_skipFile (env : Env) (hg : WellFormed g) (deferred : List DeferredRelation)
    (file : String × String) :
    WellFormed (skipFile env (g, deferred) file).1 ∧
      ∀ n, n ∈ (skipFile env (g, deferred) file).1.nodes ↔ n ∈ g.nodes ∧ n.path ≠ file.1 := by
  have hup : WellFormed (g.upsertFile file.1 (some file.2)) := hg.upsertFile
  obtain ⟨hb, hsame, -⟩ : WellFormed (buffered env g deferred file).1 ∧
      SameRows (g.upsertFile file.1 (some file.2)) (buffered env g deferred file).1 ∧
      (buffered env g deferred file).1.edges = g.edges := wellFormed_buffer env hup file.1 [] deferred
  refine ⟨hb.purge, fun n => ?_⟩
  show n ∈ ((buffered env g deferred file).1.purge file.1).nodes ↔ _
  rw [mem_purge_nodes, hsame.nodes]
  rfl

theorem wellFormed_skipped (env : Env) {s : State} (hg : WellFormed s.graph) (b : Batch) :
    WellFormed (skipped env s b).1 ∧
      ∀ n, n ∈ (skipped env s b).1.nodes ↔
        n ∈ s.graph.nodes ∧ n.path ∉ b.skipped.map Prod.fst := by
  have hfold : ∀ (files : List (String × String)) (g : Graph) (deferred : List DeferredRelation),
      WellFormed g → WellFormed (files.foldl (skipFile env) (g, deferred)).1 ∧
        ∀ n, n ∈ (files.foldl (skipFile env) (g, deferred)).1.nodes ↔
          n ∈ g.nodes ∧ n.path ∉ files.map Prod.fst := by
    intro files
    induction files with
    | nil =>
      intro g deferred hg
      exact ⟨hg, by simp⟩
    | cons file files ih =>
      intro g deferred hg
      obtain ⟨hw, hn⟩ := wellFormed_skipFile env hg deferred file
      obtain ⟨hw', hn'⟩ := ih _ (skipFile env (g, deferred) file).2 hw
      refine ⟨hw', fun n => ?_⟩
      rw [List.foldl_cons, hn', hn]
      simp only [List.map_cons, List.mem_cons, not_or]
      tauto
  exact hfold b.skipped s.graph s.deferred hg

/-! ### The nodes of a batch -/

/-- `g'` is `g` with new nodes of one file. -/
structure Added (alloc : List ℕ → ℕ) (path : String) (g g' : Graph) : Prop where
  wellFormed : WellFormed g'
  files : g'.files = g.files
  edges : g'.edges = g.edges
  pending : g'.pending = g.pending
  severed : g'.severed = g.severed
  old : g.nodes ⊆ g'.nodes
  new : ∀ n ∈ g'.nodes, n ∈ g.nodes ∨ n.path = path ∧ n.id ∉ g.ids ∧ ∃ l, n.id = alloc l

theorem Added.refl {alloc : List ℕ → ℕ} (hg : WellFormed g) : Added alloc path g g :=
  ⟨hg, rfl, rfl, rfl, rfl, List.Subset.refl _, fun _ hn => .inl hn⟩

theorem Added.trans {alloc : List ℕ → ℕ} {g₁ g₂ g₃ : Graph} (h : Added alloc path g₁ g₂)
    (h' : Added alloc path g₂ g₃) : Added alloc path g₁ g₃ where
  wellFormed := h'.wellFormed
  files := h'.files.trans h.files
  edges := h'.edges.trans h.edges
  pending := h'.pending.trans h.pending
  severed := h'.severed.trans h.severed
  old := List.Subset.trans h.old h'.old
  new := by
    intro n hn
    rcases h'.new n hn with hn | ⟨hp, hid, hl⟩
    · exact h.new n hn
    · refine .inr ⟨hp, fun hmem => hid ?_, hl⟩
      obtain ⟨m, hm, hmid⟩ := mem_ids.mp hmem
      exact mem_ids.mpr ⟨m, h.old hm, hmid⟩

theorem added_insertNode (hfresh : ∀ l, env.alloc l ∉ l) (hg : WellFormed g)
    (hfile : g.files path ≠ none) (type name : String) (q : Option String) :
    Added env.alloc path g (g.insertNode env.alloc path type name q).1 where
  wellFormed := hg.insertNode (hfresh _) hfile
  files := rfl
  edges := rfl
  pending := rfl
  severed := rfl
  old := fun _ hn => mem_insertNode_nodes.mpr (.inl hn)
  new := by
    intro n hn
    rcases mem_insertNode_nodes.mp hn with hn | rfl
    · exact .inl hn
    · exact .inr ⟨rfl, hfresh _, _, rfl⟩

/-- The new row of a node that Phase 1b reports. -/
def HasRow (g : Graph) (path : String) (x : ℕ × ParsedNode) : Prop :=
  ∃ n ∈ g.nodes, n.id = x.1 ∧ n.name = x.2.name ∧ n.path = path

theorem added_insertFileNodes (hfresh : ∀ l, env.alloc l ∉ l) (ns : List ParsedNode) {g : Graph}
    (hg : WellFormed g) (hfile : g.files path ≠ none) :
    Added env.alloc path g (insertFileNodes env path g ns).1 ∧
      (∀ x ∈ (insertFileNodes env path g ns).2, HasRow (insertFileNodes env path g ns).1 path x) ∧
      (insertFileNodes env path g ns).2.map Prod.snd = ns := by
  induction ns generalizing g with
  | nil =>
    refine ⟨Added.refl hg, ?_, rfl⟩
    intro x hx
    cases hx
  | cons n ns ih =>
    have hone := added_insertNode hfresh hg hfile n.type n.name n.qualifiedName
    obtain ⟨hrest, hrows, hparsed⟩ := ih hone.wellFormed hfile
    refine ⟨hone.trans hrest, ?_, congrArg (n :: ·) hparsed⟩
    intro x hx
    rcases List.mem_cons.mp hx with rfl | hx
    · exact ⟨_, hrest.old (mem_insertNode_nodes.mpr (.inr rfl)), rfl, rfl, rfl⟩
    · exact hrows x hx

/-- What replacing the nodes of one file does. -/
structure FileInserted (env : Env) (g : Graph) (f : FilePreParsed)
    (r : Graph × FileParsed × List (Edge × Node × Node)) : Prop where
  added : Added env.alloc f.relPath ((g.upsertFile f.relPath (some f.language)).purge f.relPath) r.1
  relPath : r.2.1.relPath = f.relPath
  language : r.2.1.language = f.language
  relations : r.2.1.relations = f.relations
  parsedNodes : r.2.1.nodes.map Prod.snd = moduleNode :: f.nodes
  rows : ∀ x ∈ r.2.1.nodes, HasRow r.1 f.relPath x
  saved : r.2.2 = g.inbound f.relPath

theorem fileInserted (hfresh : ∀ l, env.alloc l ∉ l) (hg : WellFormed g) (f : FilePreParsed) :
    FileInserted env g f (insertFile env g f) := by
  have hpurged : WellFormed ((g.upsertFile f.relPath (some f.language)).purge f.relPath) :=
    hg.upsertFile.purge
  have hfile : ((g.upsertFile f.relPath (some f.language)).purge f.relPath).files f.relPath ≠
      none := by
    show Function.update g.files f.relPath (some (some f.language)) f.relPath ≠ none
    rw [Function.update_self]
    exact Option.some_ne_none _
  have hone := added_insertNode hfresh hpurged hfile "module" "<module>" (some f.relPath)
  obtain ⟨hrest, hrows, hparsed⟩ := added_insertFileNodes hfresh f.nodes hone.wellFormed hfile
  refine ⟨hone.trans hrest, rfl, rfl, rfl, congrArg (moduleNode :: ·) hparsed, ?_, rfl⟩
  intro x hx
  rcases List.mem_cons.mp hx with rfl | hx
  · exact ⟨_, hrest.old (mem_insertNode_nodes.mpr (.inr rfl)), rfl, rfl, rfl⟩
  · exact hrows x hx

/-- A node outside the file survives; one in it is new. -/
theorem FileInserted.nodes {f : FilePreParsed} {r : Graph × FileParsed × List (Edge × Node × Node)}
    (h : FileInserted env g f r) {n : Node} :
    (n ∈ g.nodes → n.path ≠ f.relPath → n ∈ r.1.nodes) ∧
      (n ∈ r.1.nodes → n ∈ g.nodes ∧ n.path ≠ f.relPath ∨
        n.path = f.relPath ∧ ∃ l, n.id = env.alloc l) := by
  constructor
  · intro hn hp
    exact h.added.old (mem_purge_nodes.mpr ⟨hn, hp⟩)
  · intro hn
    rcases h.added.new n hn with hn | ⟨hp, -, hl⟩
    · exact .inl (mem_purge_nodes.mp hn)
    · exact .inr ⟨hp, hl⟩

/-- The two records of one file. -/
structure ParsedFrom (f : FilePreParsed) (pf : FileParsed) : Prop where
  relPath : pf.relPath = f.relPath
  language : pf.language = f.language
  relations : pf.relations = f.relations
  parsedNodes : pf.nodes.map Prod.snd = moduleNode :: f.nodes

/-- What Phase 1b does. -/
structure BatchInserted (env : Env) (g : Graph) (fs : List FilePreParsed)
    (r : Graph × List FileParsed × List (Edge × Node × Node)) : Prop where
  wellFormed : WellFormed r.1
  kept : ∀ n ∈ g.nodes, n.path ∉ fs.map FilePreParsed.relPath → n ∈ r.1.nodes
  only : ∀ n ∈ r.1.nodes, n ∈ g.nodes ∧ n.path ∉ fs.map FilePreParsed.relPath ∨
    n.path ∈ fs.map FilePreParsed.relPath ∧ ∃ l, n.id = env.alloc l
  paths : r.2.1.map FileParsed.relPath = fs.map FilePreParsed.relPath
  parsed : ∀ pf ∈ r.2.1, ∃ f ∈ fs, ParsedFrom f pf
  all : ∀ f ∈ fs, ∃ pf ∈ r.2.1, ParsedFrom f pf
  rows : ∀ pf ∈ r.2.1, ∀ x ∈ pf.nodes, HasRow r.1 pf.relPath x
  saved : ∀ x ∈ r.2.2, x.2.1.path ∈ fs.map FilePreParsed.relPath ∨ x.2.1 ∈ r.1.nodes

theorem insertBatchNodes_cons (f : FilePreParsed) (fs : List FilePreParsed) :
    insertBatchNodes env g (f :: fs) =
      ((insertBatchNodes env (insertFile env g f).1 fs).1,
        (insertFile env g f).2.1 :: (insertBatchNodes env (insertFile env g f).1 fs).2.1,
        (insertFile env g f).2.2 ++ (insertBatchNodes env (insertFile env g f).1 fs).2.2) := rfl

theorem batchInserted (hfresh : ∀ l, env.alloc l ∉ l) (fs : List FilePreParsed) {g : Graph}
    (hg : WellFormed g) (hn : (fs.map FilePreParsed.relPath).Nodup) :
    BatchInserted env g fs (insertBatchNodes env g fs) := by
  induction fs generalizing g with
  | nil =>
    refine ⟨hg, fun _ hn _ => hn, fun _ hn => .inl ⟨hn, List.not_mem_nil⟩, rfl, ?_, ?_, ?_, ?_⟩
    · intro pf hpf
      cases hpf
    · intro f hf
      cases hf
    · intro pf hpf
      cases hpf
    · intro x hx
      cases hx
  | cons f fs ih =>
    rw [List.map_cons, List.nodup_cons] at hn
    have hf := fileInserted hfresh hg f
    have hr := ih hf.added.wellFormed hn.2
    rw [insertBatchNodes_cons]
    have hfrom : ParsedFrom f (insertFile env g f).2.1 :=
      ⟨hf.relPath, hf.language, hf.relations, hf.parsedNodes⟩
    refine ⟨hr.wellFormed, ?_, ?_, ?_, ?_, ?_, ?_, ?_⟩
    · intro n hmem hp
      rw [List.map_cons, List.mem_cons, not_or] at hp
      exact hr.kept n (hf.nodes.1 hmem hp.1) hp.2
    · intro n hmem
      rw [List.map_cons, List.mem_cons]
      rcases hr.only n hmem with ⟨hold, hp⟩ | ⟨hp, hl⟩
      · rcases hf.nodes.2 hold with ⟨hg, hne⟩ | ⟨hp', hl⟩
        · exact .inl ⟨hg, not_or.mpr ⟨hne, hp⟩⟩
        · exact .inr ⟨.inl hp', hl⟩
      · exact .inr ⟨.inr hp, hl⟩
    · rw [List.map_cons, hr.paths, hf.relPath]
      rfl
    · intro pf hpf
      rcases List.mem_cons.mp hpf with rfl | hpf
      · exact ⟨f, List.mem_cons_self, hfrom⟩
      · obtain ⟨f', hf', h⟩ := hr.parsed pf hpf
        exact ⟨f', List.mem_cons_of_mem f hf', h⟩
    · intro f' hf'
      rcases List.mem_cons.mp hf' with rfl | hf'
      · exact ⟨_, List.mem_cons_self, hfrom⟩
      · obtain ⟨pf, hpf, h⟩ := hr.all f' hf'
        exact ⟨pf, List.mem_cons_of_mem _ hpf, h⟩
    · intro pf hpf x hx
      rcases List.mem_cons.mp hpf with rfl | hpf
      · -- The rows of the first file outlive the rest of the batch: its path comes once.
        obtain ⟨n, hmem, hid, hname, hp⟩ := hf.rows x hx
        rw [hf.relPath]
        exact ⟨n, hr.kept n hmem (hp ▸ hn.1), hid, hname, hp⟩
      · exact hr.rows pf hpf x hx
    · intro x hx
      rw [List.map_cons, List.mem_cons]
      rcases List.mem_append.mp hx with hx | hx
      · rw [hf.saved] at hx
        obtain ⟨-, hs, -, -, -, -, hne⟩ := (mem_inbound hg).mp hx
        by_cases hp : x.2.1.path ∈ fs.map FilePreParsed.relPath
        · exact .inl (.inr hp)
        · exact .inr (hr.kept _ (hf.nodes.1 hs hne) hp)
      · rcases hr.saved x hx with hp | hlive
        · exact .inl (.inr hp)
        · exact .inr hlive

/-! ### Relations -/

/-- `g'` is `g` with more nodes and edges; what the new edges carry satisfies `P`. -/
structure Grown (P : Relation → Option String → Prop) (g g' : Graph) : Prop where
  wellFormed : WellFormed g'
  nodes : g.nodes ⊆ g'.nodes
  severed : g'.severed = g.severed
  pending : g'.pending = g.pending
  edges : g.edges ⊆ g'.edges
  newEdges : ∀ e ∈ g'.edges, e ∈ g.edges ∨ P e.relation e.metadata

variable {P : Relation → Option String → Prop}

theorem Grown.refl (hg : WellFormed g) : Grown P g g :=
  ⟨hg, List.Subset.refl _, rfl, rfl, List.Subset.refl _, fun _ he => .inl he⟩

theorem Grown.trans {g₁ g₂ g₃ : Graph} (h : Grown P g₁ g₂) (h' : Grown P g₂ g₃) : Grown P g₁ g₃ where
  wellFormed := h'.wellFormed
  nodes := List.Subset.trans h.nodes h'.nodes
  severed := h'.severed.trans h.severed
  pending := h'.pending.trans h.pending
  edges := List.Subset.trans h.edges h'.edges
  newEdges := fun e he => (h'.newEdges e he).elim (h.newEdges e) .inr

theorem Grown.ids (h : Grown P g g') (hid : id ∈ g.ids) : id ∈ g'.ids := by
  obtain ⟨n, hn, rfl⟩ := mem_ids.mp hid
  exact mem_ids.mpr ⟨n, h.nodes hn, rfl⟩

theorem grown_insertEdge (hg : WellFormed g) {e : Edge} (hs : e.source ∈ g.ids)
    (ht : e.target ∈ g.ids) (hP : P e.relation e.metadata) : Grown P g (g.insertEdge e) := by
  refine ⟨hg.insertEdge hs ht, ?_, insertEdge_severed e, insertEdge_pending e,
    fun _ => subset_insertEdge, ?_⟩
  · rw [insertEdge_nodes]
    exact List.Subset.refl _
  · intro f hf
    rcases mem_insertEdge hf with hf | rfl
    · exact .inl hf
    · exact .inr hP

theorem grown_insertRelationEdges (hg : WellFormed g) {sources targets : List ℕ}
    (hs : ∀ id ∈ sources, id ∈ g.ids) (ht : ∀ id ∈ targets, id ∈ g.ids) {relation : Relation}
    {metadata : Option String} (hP : P relation metadata) (allowSelf : Bool) :
    Grown P g (insertRelationEdges g sources targets relation metadata allowSelf) ∧
      SameRows g (insertRelationEdges g sources targets relation metadata allowSelf) := by
  unfold insertRelationEdges
  refine List.foldlRecOn (motive := fun g₁ => Grown P g g₁ ∧ SameRows g g₁) _ _
    ⟨Grown.refl hg, SameRows.refl⟩ ?_
  rintro g₁ ⟨hgrown, hsame⟩ ⟨src, tgt⟩ hst
  obtain ⟨hs', ht'⟩ := List.mem_product.mp (List.mem_filter.mp hst).1
  have hnew : Grown P g₁ (g₁.insertEdge ⟨src, tgt, relation, metadata⟩) :=
    grown_insertEdge hgrown.wellFormed (hgrown.ids (hs _ hs')) (hgrown.ids (ht _ ht')) hP
  exact ⟨hgrown.trans hnew, hsame.trans (sameRows_insertEdge _)⟩

theorem innermost_mem {ns : List (ℕ × ParsedNode)} {n : ℕ × ParsedNode}
    (h : innermost ns = some n) : n ∈ ns := by
  induction ns generalizing n with
  | nil => cases h
  | cons m ns ih =>
    unfold innermost at h
    cases hm : innermost ns with
    | none =>
      rw [hm] at h
      exact Option.some_inj.mp h ▸ List.mem_cons_self
    | some m' =>
      rw [hm] at h
      dsimp only at h
      split_ifs at h
      · exact Option.some_inj.mp h ▸ List.mem_cons_self
      · exact List.mem_cons_of_mem m (ih (hm.trans h))

theorem narrow_subset {named : List (ℕ × ParsedNode)} {line : Option ℕ} :
    narrow named line ⊆ named := by
  intro x hx
  unfold narrow at hx
  split_ifs at hx
  · split at hx
    · next n hn =>
      obtain ⟨line, -, hline⟩ := Option.bind_eq_some_iff.mp hn
      rw [List.mem_singleton.mp hx]
      exact (List.mem_filter.mp (innermost_mem hline)).1
    · exact hx
  · exact hx

/-- A relation starts from nodes of its own file. -/
theorem mem_sourceIds {pf : FileParsed} {rel : ParsedRelation} (h : id ∈ sourceIds env pf rel) :
    ∃ x ∈ pf.nodes, x.1 = id := by
  unfold sourceIds at h
  obtain ⟨x, hx, rfl⟩ := List.mem_map.mp h
  exact ⟨x, (List.mem_filter.mp (narrow_subset hx)).1, rfl⟩

theorem refineAmbiguousTargets_subset {candidates : List ℕ} {caller : String} {pathOf : ℕ → String}
    (h : id ∈ refineAmbiguousTargets candidates caller pathOf) : id ∈ candidates := by
  unfold refineAmbiguousTargets at h
  split_ifs at h
  · exact h
  · have hpool := (List.mem_filter.mp h).1
    split_ifs at hpool
    · exact hpool
    · exact (List.mem_filter.mp hpool).1

/-- A recovered handler is a node of the pool with the handler's name. -/
theorem mem_recoverHandler {pool : List NameEntry} {pf : FileParsed} {rel : ParsedRelation}
    (h : id ∈ recoverHandler pool pf rel) : ∃ n ∈ pool, n.id = id ∧ n.name = rel.sourceName := by
  have hmem := refineAmbiguousTargets_subset h
  rw [List.mem_mergeSort, List.mem_dedup] at hmem
  obtain ⟨n, hn, rfl⟩ := List.mem_map.mp hmem
  obtain ⟨hn, hname⟩ := List.mem_filter.mp hn
  exact ⟨n, hn, rfl, (of_decide_eq_true hname).1⟩

theorem mem_sameFileTargets {pf : FileParsed} {rel : ParsedRelation}
    (h : id ∈ sameFileTargets env pf rel) : ∃ x ∈ pf.nodes, x.1 = id := by
  unfold sameFileTargets at h
  split_ifs at h
  · cases h
  · obtain ⟨x, hx, rfl⟩ := List.mem_map.mp h
    exact ⟨x, (List.mem_filter.mp hx).1, rfl⟩

/-- The relation is a route whose handler is recovered from the pool and which is then deferred with
the handler's ids. -/
def Recovers (env : Env) (pf : FileParsed) (rel : ParsedRelation) : Prop :=
  rel.relation = .routesTo ∧ sourceIds env pf rel = [] ∧ sameFileTargets env pf rel = []

/-- The deferred relation has its source ids from the file itself or from a recovery. -/
def FromBatch (env : Env) (pool : List NameEntry) (pfs : List FileParsed) (d : DeferredRelation) :
    Prop :=
  ∃ pf ∈ pfs, (∀ id ∈ d.sourceIds, ∃ x ∈ pf.nodes, x.1 = id) ∨
    ∃ rel ∈ pf.relations, Recovers env pf rel ∧ d.sourceIds = recoverHandler pool pf rel

/-- What the edges of a batch's own relations carry. -/
def Carried (pfs : List FileParsed) (relation : Relation) (metadata : Option String) : Prop :=
  metadata = none ∨ ∃ pf ∈ pfs, ∃ rel ∈ pf.relations, relation = rel.relation ∧
    metadata = rel.metadata

structure Resolved (env : Env) (pool : List NameEntry) (pfs : List FileParsed) (g : Graph)
    (deferred : List DeferredRelation) (r : Resolving) : Prop where
  grown : Grown (Carried pfs) g r.graph
  same : SameRows g r.graph
  kept : deferred ⊆ r.deferred
  deferred : ∀ d ∈ r.deferred, d ∈ deferred ∨ FromBatch env pool pfs d
  pythonImports : ∀ x ∈ r.externalPythonImports, x.source ∈ g.ids
  unresolved : ∀ x ∈ r.unresolvedExternals, x.source ∈ g.ids

section Resolving

variable {pool : List NameEntry} {pfs : List FileParsed} {deferred : List DeferredRelation}
  {r : Resolving}

theorem Resolved.defer (h : Resolved env pool pfs g deferred r) {d : DeferredRelation}
    (hd : FromBatch env pool pfs d) :
    Resolved env pool pfs g deferred { r with deferred := r.deferred ++ [d] } := by
  refine ⟨h.grown, h.same, fun x hx => List.mem_append_left _ (h.kept hx), ?_, h.pythonImports,
    h.unresolved⟩
  intro x hx
  rcases List.mem_append.mp hx with hx | hx
  · exact h.deferred x hx
  · rw [List.mem_singleton.mp hx]
    exact .inr hd

theorem Resolved.bind (h : Resolved env pool pfs g deferred r) {sources targets : List ℕ}
    (hs : ∀ id ∈ sources, id ∈ g.ids) (ht : ∀ id ∈ targets, id ∈ g.ids) {relation : Relation}
    {metadata : Option String} (hP : Carried pfs relation metadata) (allowSelf : Bool) :
    Resolved env pool pfs g deferred
      { r with graph := insertRelationEdges r.graph sources targets relation metadata allowSelf } := by
  have hids : r.graph.ids = g.ids := h.same.ids
  obtain ⟨hgrown, hsame⟩ := grown_insertRelationEdges h.grown.wellFormed (hids ▸ hs) (hids ▸ ht) hP
    allowSelf
  exact ⟨h.grown.trans hgrown, h.same.trans hsame, h.kept, h.deferred, h.pythonImports,
    h.unresolved⟩

theorem resolved_resolveRelation (h : Resolved env pool pfs g deferred r) {pf : FileParsed}
    (hpf : pf ∈ pfs) {rel : ParsedRelation} (hrel : rel ∈ pf.relations)
    (hown : ∀ x ∈ pf.nodes, x.1 ∈ g.ids) (hpool : ∀ n ∈ pool, n.id ∈ g.ids) :
    Resolved env pool pfs g deferred (resolveRelation env pool pf r rel) := by
  have hsources : ∀ id ∈ sourceIds env pf rel, id ∈ g.ids := by
    intro id hid
    obtain ⟨x, hx, rfl⟩ := mem_sourceIds hid
    exact hown x hx
  have hcarried : Carried pfs rel.relation rel.metadata := .inr ⟨pf, hpf, rel, hrel, rfl, rfl⟩
  unfold resolveRelation
  -- a route binds its handler, from the file's own rows or from the pool
  by_cases hroute : rel.relation = .routesTo
  · simp only [if_pos hroute]
    by_cases hlocal : sourceIds env pf rel = []
    · simp only [if_pos hlocal]
      have hrec : ∀ id ∈ recoverHandler pool pf rel, id ∈ g.ids := by
        intro id hid
        obtain ⟨n, hn, rfl, -⟩ := mem_recoverHandler hid
        exact hpool n hn
      by_cases hnone : recoverHandler pool pf rel = []
      · simp only [if_pos hnone, if_true]
        refine h.defer ⟨pf, hpf, .inl ?_⟩
        rw [hnone]
        intro id hid
        cases hid
      · simp only [if_neg hnone]
        by_cases hsame : sameFileTargets env pf rel = []
        · rw [if_pos hsame]
          exact h.defer ⟨pf, hpf, .inr ⟨rel, hrel, ⟨hroute, hlocal, hsame⟩, rfl⟩⟩
        · rw [if_neg hsame]
          refine h.bind hrec ?_ (hroute ▸ hcarried) true
          intro id hid
          obtain ⟨x, hx, rfl⟩ := mem_sameFileTargets hid
          exact hown x hx
    · simp only [if_neg hlocal]
      by_cases hsame : sameFileTargets env pf rel = []
      · rw [if_pos hsame]
        exact h.defer ⟨pf, hpf, .inl fun id hid => mem_sourceIds hid⟩
      · rw [if_neg hsame]
        refine h.bind hsources ?_ (hroute ▸ hcarried) true
        intro id hid
        obtain ⟨x, hx, rfl⟩ := mem_sameFileTargets hid
        exact hown x hx
  · simp only [if_neg hroute]
    -- any other relation goes by the answer of the chain
    cases env.chain r.graph pool pf rel with
    | bind targets =>
      refine h.bind hsources ?_ hcarried false
      intro id hid
      rw [← h.same.ids]
      exact of_decide_eq_true (List.mem_filter.mp hid).2
    | defer nsFile => exact h.defer ⟨pf, hpf, .inl fun id hid => mem_sourceIds hid⟩
    | externalModule module =>
      refine ⟨h.grown, h.same, h.kept, h.deferred, ?_, h.unresolved⟩
      intro x hx
      rcases List.mem_append.mp hx with hx | hx
      · exact h.pythonImports x hx
      · obtain ⟨src, hsrc, rfl⟩ := List.mem_map.mp hx
        exact hsources src hsrc
    | unresolvedExternal =>
      refine ⟨h.grown, h.same, h.kept, h.deferred, h.pythonImports, ?_⟩
      intro x hx
      rcases List.mem_append.mp hx with hx | hx
      · exact h.unresolved x hx
      · obtain ⟨src, hsrc, rfl⟩ := List.mem_map.mp hx
        exact hsources src hsrc
    | drop => exact h

theorem resolved_resolveBatchRelations (hg : WellFormed g)
    (hown : ∀ pf ∈ pfs, ∀ x ∈ pf.nodes, x.1 ∈ g.ids) (hpool : ∀ n ∈ pool, n.id ∈ g.ids) :
    Resolved env pool pfs g deferred
      (resolveBatchRelations env pool pfs ⟨g, deferred, [], []⟩) := by
  unfold resolveBatchRelations
  refine List.foldlRecOn (motive := Resolved env pool pfs g deferred) _ _ ?_ ?_
  · refine ⟨Grown.refl hg, SameRows.refl, List.Subset.refl _, fun d hd => .inl hd, ?_, ?_⟩
    · intro x hx
      cases hx
    · intro x hx
      cases hx
  · intro r hr pf hpf
    refine List.foldlRecOn (motive := Resolved env pool pfs g deferred) _ _ hr ?_
    intro r hr rel hrel
    exact resolved_resolveRelation hr hpf hrel (hown pf hpf) hpool

end Resolving

/-! ### Sentinels -/

theorem sentinel?_mem {name : String} {n : Node} (h : sentinel? g name = some n) : n ∈ g.nodes :=
  List.mem_reverse.mp (List.mem_of_find?_eq_some h)

theorem grown_upsertFile (hg : WellFormed g) {language : Option String} :
    Grown P g (g.upsertFile path language) :=
  ⟨hg.upsertFile, List.Subset.refl _, rfl, rfl, List.Subset.refl _, fun _ he => .inl he⟩

/-- A channel adds sentinels and edges without metadata. -/
theorem grown_mintChannel (hfresh : ∀ l, env.alloc l ∉ l) (hg : WellFormed g)
    (hP : ∀ relation, P relation none) (type : String → String) {refs : List ExternalRef}
    (hrefs : ∀ r ∈ refs, r.source ∈ g.ids) :
    Grown P g (mintChannel env type g refs) ∧
      ∀ n ∈ (mintChannel env type g refs).nodes, n ∈ g.nodes ∨ ∃ l, n.id = env.alloc l := by
  unfold mintChannel
  split_ifs with hempty
  · exact ⟨Grown.refl hg, fun n hn => .inl hn⟩
  · -- The sentinels: the external file has its row by now.
    have hnodes : ∀ names : List String,
        let g₁ := names.foldl (fun g name =>
          if (sentinel? g name).isSome then g
          else (g.insertNode env.alloc externalFilePath (type name) name
            (some (externalFilePath ++ "/" ++ name))).1)
          (g.upsertFile externalFilePath (some "external"))
        Grown P g g₁ ∧ g₁.files externalFilePath ≠ none ∧
          ∀ n ∈ g₁.nodes, n ∈ g.nodes ∨ ∃ l, n.id = env.alloc l := by
      intro names
      refine List.foldlRecOn (motive := fun g₁ => Grown P g g₁ ∧
        g₁.files externalFilePath ≠ none ∧
        ∀ n ∈ g₁.nodes, n ∈ g.nodes ∨ ∃ l, n.id = env.alloc l) _ _ ?_ ?_
      · refine ⟨grown_upsertFile hg, ?_, fun n hn => .inl hn⟩
        show Function.update g.files externalFilePath _ externalFilePath ≠ none
        rw [Function.update_self]
        exact Option.some_ne_none _
      · rintro g₁ ⟨hgrown, hfile, honly⟩ name -
        split_ifs
        · exact ⟨hgrown, hfile, honly⟩
        · have hadd := added_insertNode hfresh hgrown.wellFormed hfile (type name) name
            (some (externalFilePath ++ "/" ++ name))
          refine ⟨hgrown.trans ⟨hadd.wellFormed, hadd.old, hadd.severed, hadd.pending, ?_, ?_⟩,
            hfile, ?_⟩
          · rw [hadd.edges]
            exact List.Subset.refl _
          · rw [hadd.edges]
            exact fun e he => .inl he
          · intro n hn
            rcases hadd.new n hn with hn | ⟨-, -, hl⟩
            · exact honly n hn
            · exact .inr hl
    obtain ⟨hgrown, -, honly⟩ := hnodes ((refs.map ExternalRef.name).dedup.mergeSort (· ≤ ·))
    refine List.foldlRecOn (motive := fun g₁ => Grown P g g₁ ∧
      ∀ n ∈ g₁.nodes, n ∈ g.nodes ∨ ∃ l, n.id = env.alloc l) _ _ ⟨hgrown, honly⟩ ?_
    rintro g₁ ⟨hgrown, honly⟩ r hr
    cases hs : sentinel? g₁ r.name with
    | none => exact ⟨hgrown, honly⟩
    | some n =>
      have htarget : n.id ∈ g₁.ids := mem_ids.mpr ⟨n, sentinel?_mem hs, rfl⟩
      have hedge : Grown P g₁ (g₁.insertEdge ⟨r.source, n.id, r.relation, none⟩) :=
        grown_insertEdge hgrown.wellFormed (hgrown.ids (hrefs r hr)) htarget (hP _)
      refine ⟨hgrown.trans hedge, ?_⟩
      dsimp only
      rw [insertEdge_nodes]
      exact honly

theorem grown_mintExternalSentinels (hfresh : ∀ l, env.alloc l ∉ l) (hg : WellFormed g)
    (hP : ∀ relation, P relation none) {pythonImports unresolved : List ExternalRef}
    (hpy : ∀ r ∈ pythonImports, r.source ∈ g.ids) (hun : ∀ r ∈ unresolved, r.source ∈ g.ids) :
    Grown P g (mintExternalSentinels env g pythonImports unresolved) ∧
      ∀ n ∈ (mintExternalSentinels env g pythonImports unresolved).nodes,
        n ∈ g.nodes ∨ ∃ l, n.id = env.alloc l := by
  obtain ⟨hone, honly⟩ := grown_mintChannel hfresh hg hP (fun _ => "external_module") hpy
  obtain ⟨htwo, honly'⟩ := grown_mintChannel hfresh hone.wellFormed hP
    (fun name => if name ∈ (unresolved.filter fun r => r.relation = .implements).map ExternalRef.name
      then "trait" else "module") (fun r hr => hone.ids (hun r hr))
  refine ⟨hone.trans htwo, ?_⟩
  intro n hn
  rcases honly' n hn with hn | hl
  · exact honly n hn
  · exact .inr hl

/-! ### Restored edges -/

theorem mem_batchNamed {pfs : List FileParsed} {name : String} {x : ℕ × ParsedNode} :
    x ∈ batchNamed pfs path name ↔
      ∃ pf ∈ pfs, pf.relPath = path ∧ x ∈ pf.nodes ∧ x.2.name = name := by
  unfold batchNamed
  simp only [List.mem_flatMap, List.mem_filter, decide_eq_true_eq]
  constructor
  · rintro ⟨pf, ⟨hpf, hp⟩, hx, hname⟩
    exact ⟨pf, hpf, hp, hx, hname⟩
  · rintro ⟨pf, hpf, hp, hx, hname⟩
    exact ⟨pf, ⟨hpf, hp⟩, hx, hname⟩

/-- An edge is restored to new nodes of its target's name in its target's file. -/
theorem mem_newTargetIds {pfs : List FileParsed} {srcPath srcLang : String}
    {x : Edge × Node × Node} (h : id ∈ newTargetIds env pfs srcPath srcLang x) :
    ∃ pf ∈ pfs, pf.relPath = x.2.2.path ∧ ∃ y ∈ pf.nodes, y.1 = id ∧ y.2.name = x.2.2.name := by
  unfold newTargetIds at h
  dsimp only at h
  split_ifs at h
  · cases h
  · obtain ⟨y, hy, rfl⟩ := List.mem_map.mp h
    obtain ⟨pf, hpf, hp, hmem, hname⟩ := mem_batchNamed.mp (List.mem_filter.mp hy).1
    exact ⟨pf, hpf, hp, y, hmem, rfl, hname⟩

/-- The relation is a requeue of an edge whose source file is not of a later batch. -/
def Requeued (env : Env) (done : List String) (saved : List (Edge × Node × Node))
    (pfs : List FileParsed) (d : DeferredRelation) : Prop :=
  ∃ x ∈ saved, d.sourceIds = [x.2.1.id] ∧ x.2.1.path ∉ pfs.map FileParsed.relPath ∧
    (x.2.1.path ∈ env.run → x.2.1.path ∈ done)

structure Restored (env : Env) (done : List String) (saved : List (Edge × Node × Node))
    (pfs : List FileParsed) (g : Graph) (deferred : List DeferredRelation) (r : Restoring) :
    Prop where
  wellFormed : WellFormed r.graph
  same : SameRows g r.graph
  kept : deferred ⊆ r.deferred
  deferred : ∀ d ∈ r.deferred, d ∈ deferred ∨ Requeued env done saved pfs d

section Restoring

variable {done : List String} {saved : List (Edge × Node × Node)} {pfs : List FileParsed}
  {deferred : List DeferredRelation} {r : Restoring}

theorem Restored.requeue (h : Restored env done saved pfs g deferred r) {g' : Graph}
    (hw : WellFormed g') (hsame : SameRows r.graph g') {d : DeferredRelation}
    (hd : Requeued env done saved pfs d) (requeued : List (ℕ × String × Option String)) :
    Restored env done saved pfs g deferred ⟨g', r.deferred ++ [d], requeued⟩ := by
  refine ⟨hw, h.same.trans hsame, fun x hx => List.mem_append_left _ (h.kept hx), ?_⟩
  intro x hx
  rcases List.mem_append.mp hx with hx | hx
  · exact h.deferred x hx
  · rw [List.mem_singleton.mp hx]
    exact .inr hd

/-- What Phase 2c makes of an edge whose source is in no file of the batch. -/
inductive Outcome (env : Env) (pfs : List FileParsed) (done : List String) (r : Restoring) (e : Edge)
    (src t : Node) (language : Option String) : Restoring → Prop
  | bound (ids : List ℕ) (hids : ids = newTargetIds env pfs src.path (language.getD "") (e, src, t))
      (hne : ids ≠ []) :
    Outcome env pfs done r e src t language
      { r with
        graph := (ids.filter fun id => id ≠ src.id).foldl
          (fun g id => g.insertEdge ⟨src.id, id, e.relation, e.metadata⟩) r.graph }
  | noPath (hpath : src.path = "") : Outcome env pfs done r e src t language r
  | later (hrun : src.path ∈ env.run) (hdone : src.path ∉ done) :
    Outcome env pfs done r e src t language r
  | again (name : String)
      (hmarked : receiverTyped e.relation e.metadata ∨ attrCall e.relation e.metadata ∨
        (attrImport env pfs (e, src, t)).isSome)
      (hkey : (src.id, name, e.metadata) ∈ r.requeued) :
    Outcome env pfs done r e src t language r
  | requeued (name : String)
      (hmarked : receiverTyped e.relation e.metadata ∨ attrCall e.relation e.metadata ∨
        (attrImport env pfs (e, src, t)).isSome)
      (hdone : src.path ∈ env.run → src.path ∈ done) :
    Outcome env pfs done r e src t language
      ⟨if (attrImport env pfs (e, src, t)).isSome then
          r.graph.deleteEdges fun f => f.source = src.id && f.relation = e.relation &&
            (f.metadata = e.metadata && e.metadata.isSome)
        else r.graph,
        r.deferred ++ [⟨[src.id], "", name, e.relation, e.metadata, src.path, language.getD "",
          none⟩],
        (src.id, name, e.metadata) :: r.requeued⟩
  | pending (hcalls : e.relation = .calls) :
    Outcome env pfs done r e src t language
      { r with
        graph := r.graph.insertPending ⟨src.id, env.jsImportPendingName e.metadata t.name,
          language.getD "", e.metadata⟩ }
  | deferred (hdone : src.path ∈ env.run → src.path ∈ done) :
    Outcome env pfs done r e src t language
      { r with
        deferred := r.deferred ++ [⟨[src.id], "", (env.asExtracted e.metadata t.name).1, e.relation,
          (env.asExtracted e.metadata t.name).2, src.path, language.getD "", none⟩] }

/-- An edge from a file of the batch is left to the relations of that file. -/
theorem restoreInboundEdge_of_batch {x : Edge × Node × Node}
    (h : x.2.1.path ∈ pfs.map FileParsed.relPath) : restoreInboundEdge env pfs done r x = r :=
  if_pos h

theorem outcome_restoreInboundEdge {e : Edge} {src t : Node} {language : Option String}
    (hbatch : src.path ∉ pfs.map FileParsed.relPath)
    (hfile : r.graph.files src.path = some language) :
    Outcome env pfs done r e src t language (restoreInboundEdge env pfs done r (e, src, t)) := by
  unfold restoreInboundEdge
  dsimp only
  rw [if_neg hbatch, hfile]
  dsimp only
  -- the name is gone from its file, or there are rows to bind
  by_cases htargets : newTargetIds env pfs src.path (language.getD "") (e, src, t) = []
  · rw [if_neg (not_not.mpr htargets)]
    by_cases hempty : src.path = ""
    · rw [if_pos hempty]
      exact .noPath hempty
    rw [if_neg hempty]
    by_cases hlater : src.path ∈ env.run ∧ src.path ∉ done
    · rw [if_pos hlater]
      exact .later hlater.1 hlater.2
    rw [if_neg hlater]
    have hdone : src.path ∈ env.run → src.path ∈ done := by
      intro hrun
      by_contra hnot
      exact hlater ⟨hrun, hnot⟩
    -- an edge that was resolved by its receiver or its import is resolved again
    by_cases hmarked : receiverTyped e.relation e.metadata = true ∨
        attrCall e.relation e.metadata = true ∨ (attrImport env pfs (e, src, t)).isSome = true
    · rw [if_pos hmarked]
      by_cases hkey : (src.id, (attrImport env pfs (e, src, t)).getD t.name, e.metadata) ∈ r.requeued
      · rw [if_pos hkey]
        exact .again _ hmarked hkey
      · rw [if_neg hkey]
        exact .requeued _ hmarked hdone
    rw [if_neg hmarked]
    by_cases hcalls : e.relation = .calls
    · rw [if_pos hcalls]
      exact .pending hcalls
    · rw [if_neg hcalls]
      exact .deferred hdone
  · rw [if_pos htargets]
    exact .bound _ rfl htargets

theorem restored_restoreInboundEdge (h : Restored env done saved pfs g deferred r)
    {x : Edge × Node × Node} (hx : x ∈ saved)
    (hlive : x.2.1.path ∉ pfs.map FileParsed.relPath → x.2.1 ∈ g.nodes)
    (hrows : ∀ pf ∈ pfs, ∀ y ∈ pf.nodes, y.1 ∈ g.ids) :
    Restored env done saved pfs g deferred (restoreInboundEdge env pfs done r x) := by
  obtain ⟨e, src, t⟩ := x
  -- a source of the batch resolves its own edges again
  by_cases hbatch : src.path ∈ pfs.map FileParsed.relPath
  · rw [restoreInboundEdge_of_batch hbatch]
    exact h
  have hmem : src ∈ r.graph.nodes := by
    rw [h.same.nodes]
    exact hlive hbatch
  have hsrc : src.id ∈ r.graph.ids := mem_ids.mpr ⟨src, hmem, rfl⟩
  obtain ⟨language, hfile⟩ := Option.ne_none_iff_exists'.mp (h.wellFormed.node_file src hmem)
  have hreq : (src.path ∈ env.run → src.path ∈ done) → ∀ d : DeferredRelation,
      d.sourceIds = [src.id] → Requeued env done saved pfs d :=
    fun hdone d hd => ⟨(e, src, t), hx, hd, hbatch, hdone⟩
  have houtcome : Outcome env pfs done r e src t language
      (restoreInboundEdge env pfs done r (e, src, t)) := outcome_restoreInboundEdge hbatch hfile
  generalize restoreInboundEdge env pfs done r (e, src, t) = r' at houtcome ⊢
  -- the edge is bound to the new rows, waits, or is dropped
  cases houtcome with
  | bound ids hids hne =>
    have hfold : WellFormed ((ids.filter fun id => id ≠ src.id).foldl
          (fun g id => g.insertEdge ⟨src.id, id, e.relation, e.metadata⟩) r.graph) ∧
        SameRows r.graph ((ids.filter fun id => id ≠ src.id).foldl
          (fun g id => g.insertEdge ⟨src.id, id, e.relation, e.metadata⟩) r.graph) := by
      refine List.foldlRecOn (motive := fun g₁ => WellFormed g₁ ∧ SameRows r.graph g₁) _ _
        ⟨h.wellFormed, SameRows.refl⟩ ?_
      rintro g₁ ⟨hw, hsame⟩ id hid
      rw [hids] at hid
      obtain ⟨pf, hpf, -, y, hy, rfl, -⟩ := mem_newTargetIds (List.mem_filter.mp hid).1
      have htgt : y.1 ∈ g₁.ids := by
        rw [hsame.ids, h.same.ids]
        exact hrows pf hpf y hy
      exact ⟨hw.insertEdge (hsame.ids ▸ hsrc) htgt, hsame.trans (sameRows_insertEdge _)⟩
    exact ⟨hfold.1, h.same.trans hfold.2, h.kept, h.deferred⟩
  | noPath hpath => exact h
  | later hrun hdone => exact h
  | again name hmarked hkey => exact h
  | requeued name hmarked hdone =>
    split_ifs
    · exact h.requeue h.wellFormed.deleteEdges ⟨rfl, rfl, rfl⟩ (hreq hdone _ rfl) _
    · exact h.requeue h.wellFormed SameRows.refl (hreq hdone _ rfl) _
  | pending hcalls =>
    exact ⟨h.wellFormed.insertPending hsrc, h.same.trans (sameRows_insertPending _), h.kept,
      h.deferred⟩
  | deferred hdone => exact h.requeue h.wellFormed SameRows.refl (hreq hdone _ rfl) _

end Restoring

/-! ### One batch, and the loop -/

/-- The entry names a row, under the row's name and path. -/
def NameOK (g : Graph) (n : NameEntry) : Prop :=
  ∃ r ∈ g.nodes, r.id = n.id ∧ r.name = n.name ∧ r.path = n.path

theorem NameOK.id_mem {n : NameEntry} (h : NameOK g n) : n.id ∈ g.ids := by
  obtain ⟨r, hr, hid, -⟩ := h
  exact mem_ids.mpr ⟨r, hr, hid⟩

structure Inv (s : State) : Prop where
  wellFormed : WellFormed s.graph
  names : ∀ n ∈ s.nameMap, NameOK s.graph n

/-- What the phases of a batch do, one after the other. -/
structure Phases (env : Env) (s : State) (b : Batch) : Prop where
  skips : ∀ n, n ∈ (skipped env s b).1.nodes ↔
    n ∈ s.graph.nodes ∧ n.path ∉ b.skipped.map Prod.fst
  inserts : BatchInserted env (skipped env s b).1 b.parsed (inserted env s b)
  pool : ∀ n ∈ ownEntries env s b ++ otherEntries s b, NameOK (inserted env s b).1 n
  resolves : Resolved env (ownEntries env s b ++ otherEntries s b) (inserted env s b).2.1
    (inserted env s b).1 (skipped env s b).2 (resolved env s b)
  mints : Grown (Carried (inserted env s b).2.1) (resolved env s b).graph
    (minted env s b)
  mintsOnly : ∀ n ∈ (minted env s b).nodes,
    n ∈ (inserted env s b).1.nodes ∨ ∃ l, n.id = env.alloc l
  restores : Restored env s.done (inserted env s b).2.2 (inserted env s b).2.1
    (minted env s b) (resolved env s b).deferred (restored env s b)

variable {s : State} {b : Batch}

/-- The nodes of files outside the batch are there after Phase 1b. -/
theorem mem_inserted_of_other (hins : BatchInserted env (skipped env s b).1 b.parsed
      (inserted env s b))
    (hskip : ∀ n, n ∈ (skipped env s b).1.nodes ↔
      n ∈ s.graph.nodes ∧ n.path ∉ b.skipped.map Prod.fst)
    {n : Node} (hn : n ∈ s.graph.nodes) (hp : n.path ∉ b.paths) : n ∈ (inserted env s b).1.nodes := by
  rw [Batch.paths, List.mem_append, not_or] at hp
  exact hins.kept n ((hskip n).mpr ⟨hn, hp.2⟩) hp.1

theorem phases (hfresh : ∀ l, env.alloc l ∉ l) (hs : Inv s) (hn : b.paths.Nodup) :
    Phases env s b := by
  obtain ⟨hw, hskip⟩ := wellFormed_skipped env hs.wellFormed b
  have hparsed : (b.parsed.map FilePreParsed.relPath).Nodup := (List.nodup_append.mp hn).1
  have hins : BatchInserted env (skipped env s b).1 b.parsed (inserted env s b) :=
    batchInserted hfresh b.parsed hw hparsed
  -- the pool's names are rows of the graph: the batch's own, and those of files that it leaves alone
  have hpool : ∀ n ∈ ownEntries env s b ++ otherEntries s b, NameOK (inserted env s b).1 n := by
    intro n hn
    rcases List.mem_append.mp hn with hn | hn
    · obtain ⟨pf, hpf, hn⟩ := List.mem_flatMap.mp hn
      obtain ⟨x, hx, rfl⟩ := List.mem_map.mp hn
      obtain ⟨r, hr, hid, hname, hp⟩ := hins.rows pf hpf x hx
      exact ⟨r, hr, hid, hname, hp⟩
    · obtain ⟨hn, hp⟩ := List.mem_filter.mp hn
      obtain ⟨r, hr, hid, hname, hrp⟩ := hs.names n hn
      refine ⟨r, mem_inserted_of_other hins hskip hr ?_, hid, hname, hrp⟩
      rw [hrp]
      exact of_decide_eq_true hp
  -- what the batch parsed, it inserted
  have hown : ∀ pf ∈ (inserted env s b).2.1, ∀ x ∈ pf.nodes, x.1 ∈ (inserted env s b).1.ids := by
    intro pf hpf x hx
    obtain ⟨r, hr, hid, -⟩ := hins.rows pf hpf x hx
    exact mem_ids.mpr ⟨r, hr, hid⟩
  have hres : Resolved env (ownEntries env s b ++ otherEntries s b) (inserted env s b).2.1
      (inserted env s b).1 (skipped env s b).2 (resolved env s b) :=
    resolved_resolveBatchRelations hins.wellFormed hown fun n hn => (hpool n hn).id_mem
  have hids : (resolved env s b).graph.ids = (inserted env s b).1.ids := hres.same.ids
  obtain ⟨hmint, honly⟩ : Grown (Carried (inserted env s b).2.1) (resolved env s b).graph
      (minted env s b) ∧ ∀ n ∈ (minted env s b).nodes,
        n ∈ (resolved env s b).graph.nodes ∨ ∃ l, n.id = env.alloc l :=
    grown_mintExternalSentinels hfresh hres.grown.wellFormed (fun _ => .inl rfl)
      (hids ▸ hres.pythonImports) (hids ▸ hres.unresolved)
  rw [hres.same.nodes] at honly
  have hgrown : (inserted env s b).1.nodes ⊆ (minted env s b).nodes :=
    List.Subset.trans hres.grown.nodes hmint.nodes
  refine ⟨hskip, hins, hpool, hres, hmint, honly, ?_⟩
  -- the saved edges come back one by one
  refine List.foldlRecOn (motive := Restored env s.done (inserted env s b).2.2
    (inserted env s b).2.1 (minted env s b) (resolved env s b).deferred) _ _ ?_ ?_
  · exact ⟨hmint.wellFormed, SameRows.refl, List.Subset.refl _, fun d hd => .inl hd⟩
  · intro r hr x hx
    refine restored_restoreInboundEdge hr hx ?_ ?_
    · intro hp
      rw [hins.paths] at hp
      exact hgrown ((hins.saved x hx).resolve_left hp)
    · intro pf hpf y hy
      obtain ⟨n, hn, hid⟩ := mem_ids.mp (hown pf hpf y hy)
      exact mem_ids.mpr ⟨n, hgrown hn, hid⟩

/-- From Phase 1b on, a batch only adds nodes. -/
theorem Phases.nodes (h : Phases env s b) {n : Node} :
    (n ∈ (inserted env s b).1.nodes → n ∈ (batchStep env s b).graph.nodes) ∧
      (n ∈ (batchStep env s b).graph.nodes →
        n ∈ (inserted env s b).1.nodes ∨ ∃ l, n.id = env.alloc l) := by
  have hrow : (batchStep env s b).graph.nodes = (minted env s b).nodes := h.restores.same.nodes
  rw [hrow]
  exact ⟨fun hn => h.mints.nodes (h.resolves.grown.nodes hn), h.mintsOnly n⟩

theorem Phases.nameOK (h : Phases env s b) {n : NameEntry}
    (hn : NameOK (inserted env s b).1 n) : NameOK (batchStep env s b).graph n := by
  obtain ⟨r, hr, hrow⟩ := hn
  exact ⟨r, h.nodes.1 hr, hrow⟩

/-- **A batch keeps the foreign keys and the name map.** -/
theorem inv_batchStep (hfresh : ∀ l, env.alloc l ∉ l) (hs : Inv s) (hn : b.paths.Nodup) :
    Inv (batchStep env s b) := by
  have h := phases hfresh hs hn
  refine ⟨h.restores.wellFormed, ?_⟩
  intro n hmem
  apply h.nameOK
  apply h.pool
  rcases List.mem_append.mp hmem with hmem | hmem
  · exact List.mem_append_right _ hmem
  · exact List.mem_append_left _ hmem

/-! ### The start -/

theorem wellFormed_settleForeignRoutes (env : Env) (hg : WellFormed g) (deletePaths : List String) :
    WellFormed (settleForeignRoutes env deletePaths g).1 := hg.deleteEdges

/-- Buffering for the deleted files, before any of them goes. -/
theorem wellFormed_bufferAll (env : Env) (hg : WellFormed g) (deleteSet paths : List String)
    (deferred : List DeferredRelation) :
    WellFormed (paths.foldl (bufferInboundBeforeNodePurge env deleteSet) (g, deferred)).1 ∧
      SameRows g (paths.foldl (bufferInboundBeforeNodePurge env deleteSet) (g, deferred)).1 ∧
      (paths.foldl (bufferInboundBeforeNodePurge env deleteSet) (g, deferred)).1.edges =
        g.edges := by
  refine List.foldlRecOn (motive := fun s : Graph × List DeferredRelation =>
    WellFormed s.1 ∧ SameRows g s.1 ∧ s.1.edges = g.edges) _ _ ⟨hg, SameRows.refl, rfl⟩ ?_
  rintro ⟨g₁, deferred₁⟩ ⟨hw, hsame, hedges⟩ path -
  obtain ⟨hw', hsame', hedges'⟩ := wellFormed_buffer env hw path deleteSet deferred₁
  exact ⟨hw', hsame.trans hsame', hedges'.trans hedges⟩

theorem wellFormed_deleteFiles (hg : WellFormed g) (paths : List String) :
    WellFormed (paths.foldl Graph.deleteFile g) ∧
      ∀ n, n ∈ (paths.foldl Graph.deleteFile g).nodes ↔ n ∈ g.nodes ∧ n.path ∉ paths := by
  induction paths generalizing g with
  | nil => exact ⟨hg, by simp⟩
  | cons path paths ih =>
    have hone : WellFormed (g.deleteFile path) := hg.deleteFile
    obtain ⟨hw, hn⟩ := ih hone
    refine ⟨hw, fun n => ?_⟩
    have hone : n ∈ (g.deleteFile path).nodes ↔ n ∈ g.nodes ∧ n.path ≠ path := mem_purge_nodes
    rw [List.foldl_cons, hn, hone, List.mem_cons, not_or, and_assoc]

/-- The loop starts on a sound name map: it is read after the deletes. -/
theorem inv_start (hg : WellFormed g) (deletePaths : List String) :
    Inv (start env deletePaths g) := by
  have hset := wellFormed_settleForeignRoutes env hg deletePaths
  obtain ⟨hbuf, -⟩ := wellFormed_bufferAll env hset deletePaths
    (deletePaths.filter fun path => ((settleForeignRoutes env deletePaths g).1.files path).isSome)
    (settleForeignRoutes env deletePaths g).2
  refine ⟨(wellFormed_deleteFiles hbuf deletePaths).1, ?_⟩
  intro n hn
  obtain ⟨r, hr, rfl⟩ := List.mem_map.mp hn
  exact ⟨r, hr, rfl, rfl, rfl⟩

theorem start_nodes_subset (hg : WellFormed g) {deletePaths : List String} :
    (start env deletePaths g).graph.nodes ⊆ g.nodes := by
  intro n hn
  have hset := wellFormed_settleForeignRoutes env hg deletePaths
  obtain ⟨hw, hsame, -⟩ := wellFormed_bufferAll env hset deletePaths
    (deletePaths.filter fun path => ((settleForeignRoutes env deletePaths g).1.files path).isSome)
    (settleForeignRoutes env deletePaths g).2
  have hn := (((wellFormed_deleteFiles hw deletePaths).2 n).mp hn).1
  rw [hsame.nodes] at hn
  exact hn

/-! ### The plan -/

variable {rest batches : List Batch} {deletePaths : List String}

/-- The batches hold the files of the run, each once. -/
structure Planned (env : Env) (batches : List Batch) : Prop where
  run : ∀ p, p ∈ env.run ↔ p ∈ batches.flatMap Batch.files
  nodup : (batches.flatMap Batch.files).Nodup

/-- The files whose nodes some of the batches purge. -/
def purged (batches : List Batch) : List String := batches.flatMap Batch.paths

theorem purged_subset_files : purged batches ⊆ batches.flatMap Batch.files := by
  intro p hp
  obtain ⟨b, hb, hp⟩ := List.mem_flatMap.mp hp
  exact List.mem_flatMap.mpr ⟨b, hb, List.mem_append_left _ hp⟩

/-- A state of the loop, with the batches still to come. -/
structure Underway (env : Env) (s : State) (rest : List Batch) : Prop where
  inv : Inv s
  nodup : (rest.flatMap Batch.files).Nodup
  run : ∀ p ∈ rest.flatMap Batch.files, p ∈ env.run
  done : ∀ p ∈ s.done, p ∉ rest.flatMap Batch.files

theorem Underway.paths_nodup (h : Underway env s (b :: rest)) : b.paths.Nodup := by
  have hfiles : b.files.Nodup := by
    have hn := h.nodup
    rw [List.flatMap_cons] at hn
    exact (List.nodup_append.mp hn).1
  exact (List.nodup_append.mp hfiles).1

theorem Underway.not_mem_rest (h : Underway env s (b :: rest)) {p : String} (hp : p ∈ b.paths) :
    p ∉ rest.flatMap Batch.files := by
  have hn := h.nodup
  rw [List.flatMap_cons] at hn
  intro hr
  exact (List.nodup_append.mp hn).2.2 p (List.mem_append_left _ hp) p hr rfl

theorem underway_batchStep (hfresh : ∀ l, env.alloc l ∉ l) (h : Underway env s (b :: rest)) :
    Underway env (batchStep env s b) rest := by
  have hrest : ∀ p, p ∈ rest.flatMap Batch.files → p ∈ (b :: rest).flatMap Batch.files := by
    intro p hp
    rw [List.flatMap_cons]
    exact List.mem_append_right _ hp
  refine ⟨inv_batchStep hfresh h.inv h.paths_nodup, ?_, fun p hp => h.run p (hrest p hp), ?_⟩
  · have hn := h.nodup
    rw [List.flatMap_cons] at hn
    exact (List.nodup_append.mp hn).2.1
  · intro p hp
    rcases List.mem_append.mp hp with hp | hp
    · exact fun hr => h.done p hp (hrest p hr)
    · exact h.not_mem_rest hp

theorem underway_start (hg : WellFormed g) (h : Planned env batches) :
    Underway env (start env deletePaths g) batches := by
  refine ⟨inv_start hg deletePaths, h.nodup, fun p hp => (h.run p).mpr hp, ?_⟩
  intro p hp
  cases hp

/-- A run over files whose metadata holds none of the keys that the loop reads. -/
def plainEnv (run : List String)
    (chain : Graph → List NameEntry → FileParsed → ParsedRelation → Verdict) : Env where
  typed := fun _ => false
  renamedImport := fun _ => false
  pythonAttrOf := fun _ => none
  asExtracted := fun metadata name => (name, metadata)
  jsImportPendingName := fun _ name => name
  routeFileOf := fun _ => none
  isPackageBound := fun _ => false
  run := run
  alloc := Lib.nextRowId
  rustAdmits := fun _ _ _ => true
  implTypeName := fun _ name => name
  chain := chain

end CodeGraph.Pipeline.IndexFiles
