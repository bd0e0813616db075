import CodeGraph.Lib.Run
import CodeGraph.Pipeline.Correct.IndexFiles
import CodeGraph.Pipeline.JsModules

/-!
# The edges that a purge cuts

A purge takes the edges that other files have into the purged file. What stands in for such an edge at
the end of the loop is an edge to a new node of the same name, a deferred relation, or a pending call
(`Met`). `Settled` is the invariant of the loop: a cut edge is met, or its source is purged itself
before the loop ends, or it waits to be restored at the end of the batch.

The files that a batch sets aside are purged under the rule of the deleted ones, which passes over
every source of the run. That is right for a source of a later batch and loses the edge of a source
whose batch is done (`KeepsInbound`).
-/

namespace CodeGraph.Pipeline.IndexFiles

open CodeGraph.Lib CodeGraph.Storage CodeGraph.Storage.Rows

variable {env : Env} {g g' : Graph} {path : String} {deferred deferred' : List DeferredRelation}
  {rest : List String} {saved saved' : List (Edge × Node × Node)} {o : Severed}
  {x : Edge × Node × Node}

/-! ### What stands in for a cut edge -/

/-- An edge of the same kind leads to a node of the target's name in the target's file. -/
def MetByEdge (g : Graph) (o : Severed) : Prop :=
  ∃ e ∈ g.edges, ∃ t ∈ g.nodes, e.source = o.source ∧ e.target = t.id ∧ e.relation = o.relation ∧
    e.metadata = o.metadata ∧ t.name = o.targetName ∧ t.path = o.targetPath

/-- A relation of the same kind is deferred for the source. -/
def MetByDeferred (env : Env) (deferred : List DeferredRelation) (o : Severed) : Prop :=
  ∃ d ∈ deferred, o.source ∈ d.sourceIds ∧ d.relation = o.relation ∧
    (d.metadata = o.metadata ∨ d.metadata = (env.asExtracted o.metadata o.targetName).2)

/-- A call is pending for the source. -/
def MetByPending (g : Graph) (o : Severed) : Prop :=
  o.relation = .calls ∧ ∃ c ∈ g.pending, c.source = o.source ∧ c.metadata = o.metadata

def Met (env : Env) (g : Graph) (deferred : List DeferredRelation) (o : Severed) : Prop :=
  MetByEdge g o ∨ MetByDeferred env deferred o ∨ MetByPending g o

theorem MetByDeferred.mono (hd : deferred ⊆ deferred') (h : MetByDeferred env deferred o) :
    MetByDeferred env deferred' o := by
  obtain ⟨d, hmem, hrow⟩ := h
  exact ⟨d, hd hmem, hrow⟩

theorem MetByPending.mono (hp : g.pending ⊆ g'.pending) (h : MetByPending g o) :
    MetByPending g' o := by
  obtain ⟨hcalls, c, hc, hrow⟩ := h
  exact ⟨hcalls, c, hp hc, hrow⟩

theorem MetByEdge.mono (he : g.edges ⊆ g'.edges) (hn : g.nodes ⊆ g'.nodes) (h : MetByEdge g o) :
    MetByEdge g' o := by
  obtain ⟨e, hmem, t, ht, hrow⟩ := h
  exact ⟨e, he hmem, t, hn ht, hrow⟩

theorem Met.mono (he : g.edges ⊆ g'.edges) (hn : g.nodes ⊆ g'.nodes) (hp : g.pending ⊆ g'.pending)
    (hd : deferred ⊆ deferred') (h : Met env g deferred o) : Met env g' deferred' o := by
  rcases h with h | h | h
  · exact .inl (h.mono he hn)
  · exact .inr (.inl (h.mono hd))
  · exact .inr (.inr (h.mono hp))

/-- Every cut edge is met, or its source is in a file still to be purged, or it is saved. -/
def Settled (env : Env) (rest : List String) (saved : List (Edge × Node × Node)) (g : Graph)
    (deferred : List DeferredRelation) : Prop :=
  ∀ o ∈ g.severed, Met env g deferred o ∨ o.sourcePath ∈ rest ∨
    ∃ x ∈ saved, Graph.Severed.of x = o

theorem Settled.mono (he : g.edges ⊆ g'.edges) (hn : g.nodes ⊆ g'.nodes)
    (hp : g.pending ⊆ g'.pending) (hs : g'.severed = g.severed) (hd : deferred ⊆ deferred')
    (h : Settled env rest saved g deferred) : Settled env rest saved g' deferred' := by
  intro o ho
  rw [hs] at ho
  exact (h o ho).imp_left (Met.mono he hn hp hd)

theorem Settled.subset {rest' : List String} (hsub : rest ⊆ rest')
    (h : Settled env rest saved g deferred) : Settled env rest' saved g deferred :=
  fun o ho => (h o ho).imp_right (Or.imp_left fun hp => hsub hp)

/-- An inbound edge for which something is written down before the purge. -/
def Covered (g : Graph) (deferred : List DeferredRelation) (rest : List String)
    (x : Edge × Node × Node) : Prop :=
  (x.1.relation = .calls ∧ ∃ c ∈ g.pending, c.source = x.2.1.id ∧ c.metadata = x.1.metadata) ∨
    (∃ d ∈ deferred, x.2.1.id ∈ d.sourceIds ∧ d.relation = x.1.relation ∧
      d.metadata = x.1.metadata) ∨
    x.2.1.path ∈ rest

theorem Covered.mono (hp : g.pending ⊆ g'.pending) (hd : deferred ⊆ deferred')
    (h : Covered g deferred rest x) : Covered g' deferred' rest x := by
  rcases h with ⟨hcalls, c, hc, hrow⟩ | ⟨d, hmem, hrow⟩ | h
  · exact .inl ⟨hcalls, c, hp hc, hrow⟩
  · exact .inr (.inl ⟨d, hd hmem, hrow⟩)
  · exact .inr (.inr h)

/-- The purge takes nothing of what is written down for a source it leaves. -/
theorem Covered.purge (hg : WellFormed g) (hx : x.2.1 ∈ g.nodes) (hp : x.2.1.path ≠ path)
    (h : Covered g deferred (path :: rest) x) : Covered (g.purge path) deferred rest x := by
  rcases h with ⟨hcalls, c, hc, hsrc, hmeta⟩ | h | h
  · refine .inl ⟨hcalls, c, mem_purge_pending.mpr ⟨hc, ?_⟩, hsrc, hmeta⟩
    rw [hsrc]
    exact not_mem_idsOf hg hx hp
  · exact .inr (.inl h)
  · exact .inr (.inr ((List.mem_cons.mp h).resolve_left hp))

theorem Covered.met (h : Covered g deferred rest x) :
    Met env g deferred (Graph.Severed.of x) ∨ (Graph.Severed.of x).sourcePath ∈ rest := by
  rcases h with ⟨hcalls, h⟩ | ⟨d, hd, hsrc, hrel, hmeta⟩ | h
  · exact .inl (.inr (.inr ⟨hcalls, h⟩))
  · exact .inl (.inr (.inl ⟨d, hd, hsrc, hrel, .inl hmeta⟩))
  · exact .inr h

/-- **A purge keeps the cut edges settled** when each edge it cuts is covered or saved. -/
theorem settled_purge (hg : WellFormed g) (h : Settled env (path :: rest) saved g deferred)
    (hsaved : saved ⊆ saved')
    (hnew : ∀ x ∈ g.inbound path, Covered g deferred (path :: rest) x ∨ x ∈ saved') :
    Settled env rest saved' (g.purge path) deferred := by
  have hcut : ∀ x ∈ g.inbound path, Met env (g.purge path) deferred (Graph.Severed.of x) ∨
      (Graph.Severed.of x).sourcePath ∈ rest ∨
      ∃ y ∈ saved', Graph.Severed.of y = Graph.Severed.of x := by
    intro x hx
    obtain ⟨-, hs, -, -, -, -, hne⟩ := (mem_inbound hg).mp hx
    rcases hnew x hx with hcov | hsav
    · exact (hcov.purge hg hs hne).met.imp_right .inl
    · exact .inr (.inr ⟨x, hsav, rfl⟩)
  intro o ho
  rcases mem_purge_severed.mp ho with ⟨ho, hsrc⟩ | ⟨x, hx, rfl⟩
  · obtain ⟨n, hn, hid, hpath⟩ := hg.severed_source o ho
    have hne : n.path ≠ path := by
      intro hp
      exact hsrc (mem_idsOf.mpr ⟨n, hn, hp, hid⟩)
    rcases h o ho with (⟨e, he, t, ht, hes, het, hrow⟩ | hdef | ⟨hcalls, c, hc, hcs, hmeta⟩) |
      hrest | ⟨x, hx, hxo⟩
    · by_cases htp : t.path = path
      · -- The edge that met the obligation is cut as well, and leaves the same one.
        have hx : (e, n, t) ∈ g.inbound path :=
          (mem_inbound hg).mpr ⟨he, hn, ht, hid.trans hes.symm, het.symm, htp, hne⟩
        have hsame : Graph.Severed.of (e, n, t) = o := by
          obtain ⟨hrel, hmeta, hname, htpath⟩ := hrow
          cases o
          simp_all [Graph.Severed.of]
        rw [← hsame]
        exact hcut _ hx
      · refine .inl (.inl ⟨e, mem_purge_edges.mpr ⟨he, hes ▸ hsrc, ?_⟩, t,
          mem_purge_nodes.mpr ⟨ht, htp⟩, hes, het, hrow⟩)
        rw [het]
        exact not_mem_idsOf hg ht htp
    · exact .inl (.inr (.inl hdef))
    · exact .inl (.inr (.inr ⟨hcalls, c, mem_purge_pending.mpr ⟨hc, hcs ▸ hsrc⟩, hcs, hmeta⟩))
    · rcases List.mem_cons.mp hrest with hp | hrest
      · exact absurd (hpath.trans hp) hne
      · exact .inr (.inl hrest)
    · exact .inr (.inr ⟨x, hsaved hx, hxo⟩)
  · exact hcut x hx

/-! ### What the extraction and the tables write -/

/-- The metadata that only a call carries. -/
def callMarked (metadata : Option String) : Bool :=
  mentions "\"rt\":" metadata ||
    (mentions "\"attr\":" metadata && mentions "\"q\":\"module\"" metadata)

/-- Metadata is JSON text, never an empty one, and an import does not carry a call's. -/
def Written (relation : Relation) (metadata : Option String) : Prop :=
  metadata ≠ some "" ∧ (relation = .imports → callMarked metadata = false)

/-- A file with nodes has a path and a language, and metadata is as it was written. -/
structure Clean (g : Graph) : Prop where
  located : ∀ n ∈ g.nodes, n.path ≠ "" ∧ ∃ l, l ≠ "" ∧ g.files n.path = some (some l)
  edges : ∀ e ∈ g.edges, Written e.relation e.metadata
  pending : ∀ c ∈ g.pending, c.metadata ≠ some ""

theorem getD_inj {a b : Option String} (ha : a ≠ some "") (hb : b ≠ some "")
    (h : a.getD "" = b.getD "") : a = b := by
  cases a with
  | none =>
    cases b with
    | none => rfl
    | some b => exact absurd (congrArg some h.symm) hb
  | some a =>
    cases b with
    | none => exact absurd (congrArg some h) ha
    | some b => exact congrArg some h

/-- The rows of `g'` are rows of `g`, under the same files. -/
theorem Clean.subset (h : Clean g) (hn : g'.nodes ⊆ g.nodes)
    (hf : ∀ n ∈ g'.nodes, g'.files n.path = g.files n.path) (he : g'.edges ⊆ g.edges)
    (hp : g'.pending ⊆ g.pending) : Clean g' := by
  refine ⟨?_, fun e hmem => h.edges e (he hmem), fun c hc => h.pending c (hp hc)⟩
  intro n hmem
  obtain ⟨hne, l, hl, hfile⟩ := h.located n (hn hmem)
  exact ⟨hne, l, hl, (hf n hmem).trans hfile⟩

theorem Clean.purge (h : Clean g) : Clean (g.purge path) :=
  h.subset (fun _ hn => (mem_purge_nodes.mp hn).1) (fun _ _ => rfl)
    (fun _ he => (mem_purge_edges.mp he).1) fun _ hc => (mem_purge_pending.mp hc).1

theorem Clean.deleteFile (h : Clean g) : Clean (g.deleteFile path) := by
  refine h.purge.subset (fun _ hn => hn) ?_ (fun _ he => he) fun _ hc => hc
  intro n hn
  exact Function.update_of_ne (mem_purge_nodes.mp hn).2 _ _

theorem Clean.upsertFile (h : Clean g) {language : String} (hl : language ≠ "") :
    Clean (g.upsertFile path (some language)) := by
  refine ⟨?_, h.edges, h.pending⟩
  intro n hn
  obtain ⟨hne, l, hl', hfile⟩ := h.located n hn
  refine ⟨hne, ?_⟩
  show ∃ l, l ≠ "" ∧ Function.update g.files path (some (some language)) n.path = some (some l)
  by_cases hp : n.path = path
  · rw [hp, Function.update_self]
    exact ⟨language, hl, rfl⟩
  · rw [Function.update_of_ne hp]
    exact ⟨l, hl', hfile⟩

theorem Clean.insertPending (h : Clean g) {c : PendingCall} (hc : c.metadata ≠ some "") :
    Clean (g.insertPending c) := by
  refine ⟨?_, ?_, ?_⟩
  · rw [insertPending_nodes, insertPending_files]
    exact h.located
  · rw [insertPending_edges]
    exact h.edges
  · intro d hd
    rcases mem_insertPending hd with hd | rfl
    · exact h.pending d hd
    · exact hc

theorem Clean.insertEdge (h : Clean g) {e : Edge} (he : Written e.relation e.metadata) :
    Clean (g.insertEdge e) := by
  refine ⟨?_, ?_, ?_⟩
  · rw [insertEdge_nodes, insertEdge_files]
    exact h.located
  · intro f hf
    rcases mem_insertEdge hf with hf | rfl
    · exact h.edges f hf
    · exact he
  · rw [insertEdge_pending]
    exact h.pending

/-- A pending call that is inserted is there with its metadata. -/
theorem exists_pending (h : Clean g) (c : PendingCall) (hc : c.metadata ≠ some "") :
    ∃ d ∈ (g.insertPending c).pending, d.source = c.source ∧ d.metadata = c.metadata := by
  obtain ⟨d, hd, hkey⟩ := exists_insertPending (g := g) c
  simp only [PendingCall.key, Prod.mk.injEq] at hkey
  exact ⟨d, hd, hkey.1, getD_inj ((h.insertPending hc).pending d hd) hc hkey.2.2.2⟩

theorem exists_edge (h : Clean g) (e : Edge) (he : Written e.relation e.metadata) :
    ∃ f ∈ (g.insertEdge e).edges, f.source = e.source ∧ f.target = e.target ∧
      f.relation = e.relation ∧ f.metadata = e.metadata := by
  obtain ⟨f, hf, hkey⟩ := exists_insertEdge (g := g) e
  simp only [Edge.key, Prod.mk.injEq] at hkey
  exact ⟨f, hf, hkey.1, hkey.2.1, hkey.2.2.1,
    getD_inj ((h.insertEdge he).edges f hf).1 he.1 hkey.2.2.2⟩

/-! ### Buffering -/

theorem inbound_congr (hn : g'.nodes = g.nodes) (he : g'.edges = g.edges) :
    g'.inbound path = g.inbound path := by
  unfold Graph.inbound Graph.node?
  rw [hn, he]

/-- What is inbound in a part of the tables is inbound in all of them. -/
theorem inbound_subset (hg : WellFormed g) (hg' : WellFormed g') (hn : g.nodes ⊆ g'.nodes)
    (he : g.edges ⊆ g'.edges) (hx : x ∈ g.inbound path) : x ∈ g'.inbound path := by
  obtain ⟨hedge, hs, ht, hrow⟩ := (mem_inbound hg).mp hx
  exact (mem_inbound hg').mpr ⟨he hedge, hn hs, hn ht, hrow⟩

theorem exists_inboundKnown (hg : WellFormed g) (hclean : Clean g) (hx : x ∈ g.inbound path) :
    ∃ l, (l, x) ∈ inboundKnown g path := by
  obtain ⟨-, hs, -⟩ := (mem_inbound hg).mp hx
  obtain ⟨-, l, hl, hfile⟩ := hclean.located _ hs
  refine ⟨l, List.mem_filterMap.mpr ⟨x, hx, ?_⟩⟩
  rw [hfile]
  simp [hl]

/-- What buffering leaves: the tables as they were but for pending calls, and every inbound edge
covered, unless its source is passed over. -/
structure Buffered (env : Env) (deleteSet : List String) (path : String) (g : Graph)
    (deferred : List DeferredRelation) (r : Graph × List DeferredRelation) : Prop where
  clean : Clean r.1
  pending : g.pending ⊆ r.1.pending
  deferred : deferred ⊆ r.2
  covers : ∀ x ∈ g.inbound path, ∀ rest : List String,
    (x.1.relation ≠ .calls → x.2.1.path ∈ env.run ∨ x.2.1.path ∈ deleteSet → x.2.1.path ∈ rest) →
    Covered r.1 r.2 rest x

theorem buffered_buffer (hg : WellFormed g) (hclean : Clean g) (deleteSet : List String)
    (path : String) (deferred : List DeferredRelation) :
    Buffered env deleteSet path g deferred
      (bufferInboundBeforeNodePurge env deleteSet (g, deferred) path) := by
  have hwritten : ∀ x ∈ inboundKnown g path, x.2.1.metadata ≠ some "" := by
    intro x hx
    have hin := (mem_inboundKnown hg hx).1
    exact (hclean.edges _ ((mem_inbound hg).mp hin).1).1
  -- a call is written as a pending row, which is never taken back
  have hstep : ∀ g₁, ∀ x ∈ (inboundKnown g path).filter (fun x => x.2.1.relation = .calls),
      Clean g₁ ∧ g.pending ⊆ g₁.pending →
      Clean (g₁.insertPending ⟨x.2.2.1.id, env.jsImportPendingName x.2.1.metadata x.2.2.2.name, x.1,
        x.2.1.metadata⟩) ∧ g.pending ⊆ (g₁.insertPending ⟨x.2.2.1.id,
          env.jsImportPendingName x.2.1.metadata x.2.2.2.name, x.1, x.2.1.metadata⟩).pending := by
    rintro g₁ x hx ⟨hc, hsub⟩
    exact ⟨hc.insertPending (hwritten x (List.mem_filter.mp hx).1),
      fun c hmem => subset_insertPending (hsub hmem)⟩
  obtain ⟨hc, hsub⟩ := List.foldlRecOn (motive := fun g₁ => Clean g₁ ∧ g.pending ⊆ g₁.pending)
    ((inboundKnown g path).filter fun x => x.2.1.relation = .calls) _
    ⟨hclean, List.Subset.refl _⟩ fun g₁ h x hx => hstep g₁ x hx h
  refine ⟨hc, hsub, List.subset_append_left _ _, ?_⟩
  intro x hx rest hpassed
  obtain ⟨l, hl⟩ := exists_inboundKnown hg hclean hx
  -- any other edge is deferred, or its source is parsed or deleted anyway
  by_cases hcalls : x.1.relation = .calls
  · refine .inl ⟨hcalls, ?_⟩
    refine foldl_establishes (P := fun g₁ : Graph => ∃ c ∈ g₁.pending, c.source = x.2.1.id ∧
      c.metadata = x.1.metadata) hstep ?_ (List.mem_filter.mpr ⟨hl, decide_eq_true hcalls⟩) ?_
      ⟨hclean, List.Subset.refl _⟩
    · rintro g₁ y - ⟨c, hc, hrow⟩
      exact ⟨c, subset_insertPending hc, hrow⟩
    · rintro g₁ ⟨hc, -⟩
      exact exists_pending hc _ (hwritten _ hl)
  · by_cases hrest : x.2.1.path ∈ env.run ∨ x.2.1.path ∈ deleteSet
    · exact .inr (.inr (hpassed hcalls hrest))
    · rw [not_or] at hrest
      obtain ⟨-, hs, -⟩ := (mem_inbound hg).mp hx
      refine .inr (.inl ⟨⟨[x.2.1.id], "", x.2.2.name, x.1.relation, x.1.metadata, x.2.1.path, l,
        none⟩, List.mem_append_right _ (List.mem_map.mpr ⟨(l, x), ?_, rfl⟩),
        List.mem_singleton_self _, rfl, rfl⟩)
      exact List.mem_filter.mpr ⟨hl, decide_eq_true
        ⟨hcalls, (hclean.located _ hs).1, hrest.1, hrest.2⟩⟩

/-! ### The start -/

/-- Buffering has written pending calls only. -/
structure Writing (g : Graph) (r : Graph × List DeferredRelation) : Prop where
  wellFormed : WellFormed r.1
  clean : Clean r.1
  same : SameRows g r.1
  edges : r.1.edges = g.edges

/-- The purge of a deleted file, with the files still to be deleted. -/
structure Deleting (env : Env) (g : Graph) (deferred : List DeferredRelation)
    (paths later : List String) : Prop where
  wellFormed : WellFormed g
  clean : Clean g
  settled : Settled env (paths ++ later) [] g deferred
  covers : ∀ path ∈ paths, ∀ x ∈ g.inbound path, Covered g deferred (paths ++ later) x

theorem deleting_deleteFile {paths later : List String}
    (h : Deleting env g deferred (path :: paths) later) :
    Deleting env (g.deleteFile path) deferred paths later := by
  refine ⟨h.wellFormed.deleteFile, h.clean.deleteFile, ?_, ?_⟩
  · have hp : Settled env (paths ++ later) [] (g.purge path) deferred :=
      settled_purge h.wellFormed h.settled (List.Subset.refl _) fun x hx =>
        .inl (h.covers path List.mem_cons_self x hx)
    exact hp
  · intro p hp x hx
    have hw : WellFormed (g.purge path) := h.wellFormed.purge
    have hx : x ∈ (g.purge path).inbound p := hx
    have hold : x ∈ g.inbound p := inbound_subset hw h.wellFormed
      (fun _ hn => (mem_purge_nodes.mp hn).1) (fun _ he => (mem_purge_edges.mp he).1) hx
    obtain ⟨hs, hsp⟩ := mem_purge_nodes.mp ((mem_inbound hw).mp hx).2.1
    exact (h.covers p (List.mem_cons_of_mem _ hp) x hold).purge h.wellFormed hs hsp

/-- **The purge of the deleted files leaves every cut edge settled.** -/
theorem settled_start (hg : WellFormed g) (hclean : Clean g) (hnone : g.severed = [])
    {later : List String} (hlater : ∀ p ∈ env.run, p ∈ later) (deletePaths : List String) :
    Clean (start env deletePaths g).graph ∧
      Settled env later [] (start env deletePaths g).graph (start env deletePaths g).deferred := by
  -- the routes of other files are settled first
  have hset := wellFormed_settleForeignRoutes env hg deletePaths
  set g₁ := (settleForeignRoutes env deletePaths g).1 with hg₁
  set d₁ := (settleForeignRoutes env deletePaths g).2 with hd₁
  have hclean₁ : Clean g₁ :=
    hclean.subset (List.Subset.refl _) (fun _ _ => rfl)
      (fun _ he => (List.mem_filter.mp he).1) (List.Subset.refl _)
  -- then the edges into each deleted file are buffered
  set present := deletePaths.filter fun path => (g₁.files path).isSome
  set r := present.foldl (bufferInboundBeforeNodePurge env deletePaths) (g₁, d₁) with hr
  obtain ⟨hw, hsame, hedges⟩ := wellFormed_bufferAll env hset deletePaths present d₁
  have hall : Clean r.1 ∧ ∀ path ∈ present, ∀ x ∈ g₁.inbound path,
      Covered r.1 r.2 (deletePaths ++ later) x := by
    have hstep : ∀ r : Graph × List DeferredRelation, ∀ path ∈ present,
        Writing g₁ r → Writing g₁ (bufferInboundBeforeNodePurge env deletePaths r path) := by
      rintro ⟨g₂, d₂⟩ path - h
      obtain ⟨hw', hsame', hedges'⟩ := wellFormed_buffer env h.wellFormed path deletePaths d₂
      exact ⟨hw', (buffered_buffer h.wellFormed h.clean deletePaths path d₂).clean,
        h.same.trans hsame', hedges'.trans h.edges⟩
    have hfirst : Writing g₁ (g₁, d₁) := ⟨hset, hclean₁, SameRows.refl, rfl⟩
    refine ⟨(List.foldlRecOn (motive := Writing g₁) _ _ hfirst fun r h p hp => hstep r p hp h).clean,
      ?_⟩
    intro path hpath
    refine foldl_establishes (P := fun r : Graph × List DeferredRelation =>
      ∀ x ∈ g₁.inbound path, Covered r.1 r.2 (deletePaths ++ later) x) hstep ?_ hpath ?_ hfirst
    · rintro ⟨g₂, d₂⟩ p h hcov x hx
      have hb : Buffered env deletePaths p g₂ d₂ _ :=
        buffered_buffer h.wellFormed h.clean deletePaths p d₂
      exact (hcov x hx).mono hb.pending hb.deferred
    · rintro ⟨g₂, d₂⟩ h x hx
      have hb : Buffered env deletePaths path g₂ d₂ _ :=
        buffered_buffer h.wellFormed h.clean deletePaths path d₂
      refine hb.covers x (by rw [inbound_congr h.same.nodes h.edges]; exact hx) _ ?_
      rintro - (hrun | hdel)
      · exact List.mem_append_right _ (hlater _ hrun)
      · exact List.mem_append_left _ hdel
  -- then the files are deleted, each with its edges covered
  have hstart : Deleting env r.1 r.2 deletePaths later := by
    refine ⟨hw, hall.1, ?_, ?_⟩
    · intro o ho
      rw [hsame.severed] at ho
      rw [show g₁.severed = [] from hnone] at ho
      cases ho
    · intro path hp x hx
      rw [inbound_congr hsame.nodes hedges] at hx
      refine hall.2 path (List.mem_filter.mpr ⟨hp, ?_⟩) x hx
      obtain ⟨-, -, ht, -, -, htp, -⟩ := (mem_inbound hset).mp hx
      exact Option.isSome_iff_ne_none.mpr (htp ▸ hset.node_file _ ht)
  have hend := foldl_invariant (I := fun g paths => Deleting env g r.2 paths later)
    (fun h => deleting_deleteFile h) hstart
  exact ⟨hend.clean, hend.settled⟩

/-! ### The files set aside -/

/-- No relation other than a call leads from a file whose batch is done into one that is set aside. -/
def KeepsInbound (s : State) (b : Batch) : Prop :=
  ∀ file ∈ b.skipped, ∀ x ∈ s.graph.inbound file.1, x.1.relation ≠ .calls → x.2.1.path ∉ s.done

/-- The purge of the files set aside, with those still to be purged. -/
structure Skipping (env : Env) (s : State) (later : List String) (r : Graph × List DeferredRelation)
    (files : List (String × String)) : Prop where
  wellFormed : WellFormed r.1
  clean : Clean r.1
  nodes : r.1.nodes ⊆ s.graph.nodes
  edges : r.1.edges ⊆ s.graph.edges
  deferred : s.deferred ⊆ r.2
  due : ∀ n ∈ r.1.nodes, n.path ∈ env.run → n.path ∈ s.done ∨ n.path ∈ files.map Prod.fst ++ later
  settled : Settled env (files.map Prod.fst ++ later) [] r.1 r.2

theorem skipping_skipFile {s : State} {later : List String} {r : Graph × List DeferredRelation}
    {file : String × String} {files : List (String × String)} (hs : WellFormed s.graph)
    (hkeep : ∀ x ∈ s.graph.inbound file.1, x.1.relation ≠ .calls → x.2.1.path ∉ s.done)
    (hlang : file.2 ≠ "") (h : Skipping env s later r (file :: files)) :
    Skipping env s later (skipFile env r file) files := by
  obtain ⟨g, deferred⟩ := r
  have hup : WellFormed (g.upsertFile file.1 (some file.2)) := h.wellFormed.upsertFile
  have hclean : Clean (g.upsertFile file.1 (some file.2)) := h.clean.upsertFile hlang
  obtain ⟨hw, hsame, hedges⟩ := wellFormed_buffer env hup file.1 [] deferred
  have hb : Buffered env [] file.1 (g.upsertFile file.1 (some file.2)) deferred _ :=
    buffered_buffer hup hclean [] file.1 deferred
  set r := bufferInboundBeforeNodePurge env [] (g.upsertFile file.1 (some file.2), deferred) file.1
    with hr
  have hnodes : r.1.nodes = g.nodes := hsame.nodes
  have hedges : r.1.edges = g.edges := hedges
  refine ⟨hw.purge, hb.clean.purge, ?_, ?_, fun d hd => hb.deferred (h.deferred hd), ?_, ?_⟩
  · intro n hn
    exact h.nodes (hnodes ▸ (mem_purge_nodes.mp hn).1)
  · intro e he
    exact h.edges (hedges ▸ (mem_purge_edges.mp he).1)
  · intro n hn hrun
    obtain ⟨hn, hp⟩ := mem_purge_nodes.mp hn
    exact (h.due n (hnodes ▸ hn) hrun).imp_right fun hin => (List.mem_cons.mp hin).resolve_left hp
  · -- the edges into the file are buffered, so the purge severs none that is not covered
    have hset : Settled env (file.1 :: (files.map Prod.fst ++ later)) [] r.1 r.2 := by
      refine Settled.mono ?_ ?_ hb.pending hsame.severed hb.deferred h.settled
      · exact hedges ▸ List.Subset.refl _
      · exact hnodes ▸ List.Subset.refl _
    refine settled_purge hw hset (List.Subset.refl _) fun x hx => .inl ?_
    have hx : x ∈ r.1.inbound file.1 := hx
    rw [inbound_congr hnodes hedges] at hx
    refine hb.covers x hx _ ?_
    rintro hcalls (hrun | hnil)
    · have hsrc := ((mem_inbound h.wellFormed).mp hx).2.1
      refine (h.due _ hsrc hrun).resolve_left ?_
      exact hkeep x (inbound_subset h.wellFormed hs h.nodes h.edges hx) hcalls
    · cases hnil

/-! ### The nodes of a batch -/

/-- No edge and no cut edge starts from a file of the list. -/
structure Bare (g : Graph) (paths : List String) : Prop where
  edges : ∀ e ∈ g.edges, ∀ n ∈ g.nodes, n.id = e.source → n.path ∉ paths
  severed : ∀ o ∈ g.severed, o.sourcePath ∉ paths

theorem Bare.purge {paths : List String} (hg : WellFormed g) (h : Bare g paths) :
    Bare (g.purge path) (path :: paths) := by
  constructor
  · intro e he n hn hid
    obtain ⟨hn, hp⟩ := mem_purge_nodes.mp hn
    rw [List.mem_cons, not_or]
    exact ⟨hp, h.edges e (mem_purge_edges.mp he).1 n hn hid⟩
  · intro o ho
    have hw : WellFormed (g.purge path) := hg.purge
    obtain ⟨n, hn, -, hnp⟩ := hw.severed_source o ho
    rw [List.mem_cons, not_or]
    refine ⟨hnp ▸ (mem_purge_nodes.mp hn).2, ?_⟩
    rcases mem_purge_severed.mp ho with ⟨ho, -⟩ | ⟨x, hx, rfl⟩
    · exact h.severed o ho
    · obtain ⟨he, hs, -, hsid, -⟩ := (mem_inbound hg).mp hx
      exact h.edges _ he _ hs hsid

theorem Bare.added {alloc : List ℕ → ℕ} {paths : List String} (hg : WellFormed g)
    (h : Bare g paths) (ha : Added alloc path g g') : Bare g' paths := by
  constructor
  · rw [ha.edges]
    intro e he n hn hid
    rcases ha.new n hn with hn | ⟨-, hnew, -⟩
    · exact h.edges e he n hn hid
    · exact absurd (hid ▸ hg.edge_source e he) hnew
  · rw [ha.severed]
    exact h.severed

theorem Clean.added {alloc : List ℕ → ℕ} (h : Clean g) (ha : Added alloc path g g')
    (hpath : path ≠ "") {l : String} (hl : l ≠ "") (hfile : g.files path = some (some l)) :
    Clean g' := by
  refine ⟨?_, ha.edges ▸ h.edges, ha.pending ▸ h.pending⟩
  rw [ha.files]
  intro n hn
  rcases ha.new n hn with hn | ⟨rfl, -⟩
  · exact h.located n hn
  · exact ⟨hpath, l, hl, hfile⟩

theorem Settled.added {alloc : List ℕ → ℕ} (h : Settled env rest saved g deferred)
    (ha : Added alloc path g g') : Settled env rest saved g' deferred :=
  h.mono (ha.edges ▸ List.Subset.refl _) ha.old (ha.pending ▸ List.Subset.refl _) ha.severed
    (List.Subset.refl _)

/-- What Phase 1b does to the cut edges. -/
structure Inserting (env : Env) (deferred : List DeferredRelation) (paths rest : List String)
    (saved : List (Edge × Node × Node))
    (r : Graph × List FileParsed × List (Edge × Node × Node)) : Prop where
  clean : Clean r.1
  bare : Bare r.1 paths
  settled : Settled env rest (saved ++ r.2.2) r.1 deferred
  saved : ∀ x ∈ r.2.2, Written x.1.relation x.1.metadata ∧ x.2.1.path ≠ ""

theorem inserting_insertBatchNodes (hfresh : ∀ l, env.alloc l ∉ l) (fs : List FilePreParsed)
    {paths : List String} (hg : WellFormed g) (hclean : Clean g) (hbare : Bare g paths)
    (hset : Settled env (fs.map FilePreParsed.relPath ++ rest) saved g deferred)
    (hfs : ∀ f ∈ fs, f.relPath ≠ "" ∧ f.language ≠ "") :
    Inserting env deferred (fs.map FilePreParsed.relPath ++ paths) rest saved
      (insertBatchNodes env g fs) := by
  -- the induction is on the batch: each file is written behind the ones before it
  induction fs generalizing g paths saved with
  | nil =>
    refine ⟨hclean, hbare, ?_, ?_⟩
    · show Settled env rest (saved ++ []) g deferred
      rw [List.append_nil]
      exact hset
    · intro x hx
      cases hx
  | cons f fs ih =>
    obtain ⟨hpath, hlang⟩ := hfs f List.mem_cons_self
    have hup : WellFormed (g.upsertFile f.relPath (some f.language)) := hg.upsertFile
    have hclean₁ : Clean (g.upsertFile f.relPath (some f.language)) := hclean.upsertFile hlang
    have hf := fileInserted hfresh hg f
    have hfile : ((g.upsertFile f.relPath (some f.language)).purge f.relPath).files f.relPath =
        some (some f.language) := Function.update_self _ _ _
    -- the file's old rows are purged, so no edge ends at its new ones
    have hbare₁ : Bare (insertFile env g f).1 (f.relPath :: paths) :=
      Bare.added hup.purge (Bare.purge hup ⟨hbare.edges, hbare.severed⟩) hf.added
    have hset₁ : Settled env (fs.map FilePreParsed.relPath ++ rest)
        (saved ++ (insertFile env g f).2.2) (insertFile env g f).1 deferred := by
      have hset' : Settled env (f.relPath :: (fs.map FilePreParsed.relPath ++ rest)) saved
          (g.upsertFile f.relPath (some f.language)) deferred := hset
      refine (settled_purge hup hset' (List.subset_append_left _ _) fun x hx => .inr ?_).added
        hf.added
      exact List.mem_append_right _ hx
    have hr := ih hf.added.wellFormed (hclean₁.purge.added hf.added hpath hlang hfile) hbare₁ hset₁
      fun f' hf' => hfs f' (List.mem_cons_of_mem f hf')
    rw [insertBatchNodes_cons]
    refine ⟨hr.clean, ?_, ?_, ?_⟩
    · have hsub : (f :: fs).map FilePreParsed.relPath ++ paths ⊆
          fs.map FilePreParsed.relPath ++ f.relPath :: paths := by
        intro p hp
        simp only [List.map_cons, List.cons_append, List.mem_cons, List.mem_append] at hp ⊢
        tauto
      exact ⟨fun e he n hn hid hp => hr.bare.edges e he n hn hid (hsub hp),
        fun o ho hp => hr.bare.severed o ho (hsub hp)⟩
    · rw [← List.append_assoc]
      exact hr.settled
    · intro x hx
      rcases List.mem_append.mp hx with hx | hx
      · rw [hf.saved] at hx
        obtain ⟨he, hs, -⟩ := (mem_inbound hg).mp hx
        exact ⟨hclean.edges _ he, (hclean.located _ hs).1⟩
      · exact hr.saved x hx

/-! ### Relations and sentinels -/

theorem written_none (relation : Relation) : Written relation none :=
  ⟨fun h => (nomatch h), fun _ => rfl⟩

theorem clean_mintChannel (hclean : Clean g) (type : String → String) (refs : List ExternalRef) :
    Clean (mintChannel env type g refs) := by
  unfold mintChannel
  split_ifs
  · exact hclean
  · -- The sentinels live in a file with a path and a language.
    have hnodes : ∀ names : List String, Clean (names.foldl (fun g name =>
        if (sentinel? g name).isSome then g
        else (g.insertNode env.alloc externalFilePath (type name) name
          (some (externalFilePath ++ "/" ++ name))).1)
        (g.upsertFile externalFilePath (some "external"))) := by
      intro names
      refine (List.foldlRecOn (motive := fun g₁ => Clean g₁ ∧
        g₁.files externalFilePath = some (some "external")) _ _ ?_ ?_).1
      · refine ⟨hclean.upsertFile (by decide), ?_⟩
        show Function.update g.files externalFilePath _ externalFilePath = _
        exact Function.update_self _ _ _
      · rintro g₁ ⟨hc, hfile⟩ name -
        split_ifs
        · exact ⟨hc, hfile⟩
        · refine ⟨⟨?_, hc.edges, hc.pending⟩, hfile⟩
          intro n hn
          rcases mem_insertNode_nodes.mp hn with hn | rfl
          · exact hc.located n hn
          · have hpath : externalFilePath ≠ "" := by decide
            exact ⟨hpath, "external", by decide, hfile⟩
    refine List.foldlRecOn (motive := Clean) _ _ (hnodes _) ?_
    intro g₁ hc r _
    cases sentinel? g₁ r.name with
    | none => exact hc
    | some n => exact hc.insertEdge (written_none _)

theorem clean_mintExternalSentinels (hclean : Clean g) (pythonImports unresolved : List ExternalRef) :
    Clean (mintExternalSentinels env g pythonImports unresolved) :=
  clean_mintChannel (clean_mintChannel hclean _ _) _ _

theorem Carried.written {pfs : List FileParsed}
    (hpfs : ∀ pf ∈ pfs, ∀ rel ∈ pf.relations, Written rel.relation rel.metadata)
    {relation : Relation} {metadata : Option String} (h : Carried pfs relation metadata) :
    Written relation metadata := by
  rcases h with rfl | ⟨pf, hpf, rel, hrel, rfl, rfl⟩
  · exact written_none relation
  · exact hpfs pf hpf rel hrel

theorem Settled.grown {P : Relation → Option String → Prop} (h : Settled env rest saved g deferred)
    (hg : Grown P g g') (hd : deferred ⊆ deferred') : Settled env rest saved g' deferred' :=
  h.mono hg.edges hg.nodes (hg.pending ▸ List.Subset.refl _) hg.severed hd

/-! ### Restored edges -/

theorem Settled.drop (h : Settled env rest (x :: saved) g deferred)
    (hx : Graph.Severed.of x ∈ g.severed →
      Met env g deferred (Graph.Severed.of x) ∨ x.2.1.path ∈ rest) :
    Settled env rest saved g deferred := by
  intro o ho
  rcases h o ho with hmet | hrest | ⟨y, hy, rfl⟩
  · exact .inl hmet
  · exact .inr (.inl hrest)
  · rcases List.mem_cons.mp hy with rfl | hy
    · exact (hx ho).imp_right .inl
    · exact .inr (.inr ⟨y, hy, rfl⟩)

/-- Deleting the edges of one relation is made up for by deferring it. -/
theorem Settled.deleteEdges (h : Settled env rest saved g deferred) {p : Edge → Bool}
    {d : DeferredRelation} (hp : ∀ e ∈ g.edges, p e = true → e.source ∈ d.sourceIds ∧
      d.relation = e.relation ∧ d.metadata = e.metadata) :
    Settled env rest saved (g.deleteEdges p) (deferred ++ [d]) := by
  intro o ho
  refine (h o ho).imp_left ?_
  rintro (⟨e, he, t, ht, hes, het, hrel, hmeta, hrow⟩ | hdef | hpend)
  · by_cases hpe : p e = true
    · obtain ⟨hsrc, hdrel, hdmeta⟩ := hp e he hpe
      exact .inr (.inl ⟨d, List.mem_append_right _ List.mem_cons_self, hes ▸ hsrc,
        hdrel.trans hrel, .inl (hdmeta.trans hmeta)⟩)
    · exact .inl ⟨e, List.mem_filter.mpr ⟨he, by simp [hpe]⟩, t, ht, hes, het, hrel, hmeta, hrow⟩
  · exact .inr (.inl (hdef.mono (List.subset_append_left _ _)))
  · exact .inr (.inr hpend)

/-- Phase 2c, with the saved edges still to be restored. A key of `requeued` stands for a deferred
relation, of the kind that its metadata tells. -/
structure Restoration (env : Env) (rest : List String) (r : Restoring)
    (saved : List (Edge × Node × Node)) : Prop where
  clean : Clean r.graph
  requeued : ∀ k ∈ r.requeued, ∃ d ∈ r.deferred, k.1 ∈ d.sourceIds ∧ d.metadata = k.2.2 ∧
    (d.relation = .calls ∧ callMarked k.2.2 = true ∨ d.relation = .imports ∧ callMarked k.2.2 = false)
  settled : Settled env rest saved r.graph r.deferred

/-- An edge that is requeued at most once is a call or an import, and its metadata tells which. -/
theorem marked_cases {pfs : List FileParsed} {e : Edge} {src t : Node}
    (hw : Written e.relation e.metadata)
    (h : receiverTyped e.relation e.metadata ∨ attrCall e.relation e.metadata ∨
      (attrImport env pfs (e, src, t)).isSome) :
    e.relation = .calls ∧ callMarked e.metadata = true ∨
      e.relation = .imports ∧ callMarked e.metadata = false := by
  rcases h with h | h | h
  · unfold receiverTyped at h
    rw [Bool.and_eq_true, decide_eq_true_eq] at h
    exact .inl ⟨h.1, by rw [callMarked, h.2, Bool.true_or]⟩
  · unfold attrCall at h
    rw [Bool.and_eq_true, decide_eq_true_eq] at h
    exact .inl ⟨h.1, by rw [callMarked, h.2, Bool.or_true]⟩
  · unfold attrImport at h
    split_ifs at h with himp
    · exact .inr ⟨himp.1, hw.2 himp.1⟩
    · cases h

section Restoring

variable {done : List String} {pfs : List FileParsed} {r : Restoring}
  {all : List (Edge × Node × Node)}

/-- The edges that an outcome binds are there, to new nodes of the target's name and file. -/
theorem metByEdge_bound (hclean : Clean r.graph) {e : Edge} {src t : Node}
    (hw : Written e.relation e.metadata) (hg : WellFormed g) (hnodes : r.graph.nodes = g.nodes)
    (hsrc : src ∈ g.nodes) (hbatch : src.path ∉ pfs.map FileParsed.relPath)
    (hrows : ∀ pf ∈ pfs, ∀ y ∈ pf.nodes, HasRow g pf.relPath y) {lang : String} {ids : List ℕ}
    (hids : ids = newTargetIds env pfs src.path lang (e, src, t)) (hne : ids ≠ []) :
    MetByEdge ((ids.filter fun id => id ≠ src.id).foldl
      (fun g id => g.insertEdge ⟨src.id, id, e.relation, e.metadata⟩) r.graph)
      (Graph.Severed.of (e, src, t)) := by
  obtain ⟨id, hid⟩ := List.exists_mem_of_ne_nil ids hne
  obtain ⟨pf, hpf, hpfp, y, hy, rfl, hyname⟩ := mem_newTargetIds (hids ▸ hid)
  obtain ⟨n, hn, hnid, hnname, hnp⟩ := hrows pf hpf y hy
  -- the source is not of the batch, so the edge is no loop
  have hother : y.1 ≠ src.id := by
    intro heq
    have hsame : n = src := node_unique hg hn hsrc (hnid.trans heq)
    exact hbatch (hsame ▸ hnp ▸ List.mem_map_of_mem hpf)
  have hmem : y.1 ∈ ids.filter fun id => id ≠ src.id :=
    List.mem_filter.mpr ⟨hid, decide_eq_true hother⟩
  -- each insertion keeps what the ones before it wrote
  have hstep : ∀ g₁, ∀ id ∈ ids.filter (fun id => id ≠ src.id),
      Clean g₁ ∧ g₁.nodes = g.nodes →
      Clean (g₁.insertEdge ⟨src.id, id, e.relation, e.metadata⟩) ∧
        (g₁.insertEdge ⟨src.id, id, e.relation, e.metadata⟩).nodes = g.nodes := by
    rintro g₁ id - ⟨hc, hsame⟩
    exact ⟨hc.insertEdge hw, (insertEdge_nodes _).trans hsame⟩
  obtain ⟨f, hf, hfs, hft, hfr, hfm⟩ := foldl_establishes (P := fun g₁ : Graph => ∃ f ∈ g₁.edges,
    f.source = src.id ∧ f.target = y.1 ∧ f.relation = e.relation ∧ f.metadata = e.metadata)
    hstep (fun g₁ id _ ⟨f, hf, hrow⟩ => ⟨f, subset_insertEdge hf, hrow⟩) hmem
    (fun g₁ h => exists_edge h.1 ⟨src.id, y.1, e.relation, e.metadata⟩ hw) ⟨hclean, hnodes⟩
  have hfinal := (List.foldlRecOn (motive := fun g₁ : Graph => Clean g₁ ∧ g₁.nodes = g.nodes) _ _
    ⟨hclean, hnodes⟩ fun g₁ h id hid => hstep g₁ id hid h).2
  exact ⟨f, hf, n, hfinal ▸ hn, hfs, hft.trans hnid.symm, hfr, hfm, hnname.trans hyname,
    hnp.trans hpfp⟩

/-- **Restoring an edge settles it.** -/
theorem restoration_restoreInboundEdge (h : Restored env done all pfs g deferred r)
    (hr : Restoration env rest r (x :: saved)) (hg : WellFormed g)
    (hw : Written x.1.relation x.1.metadata) (hpath : x.2.1.path ≠ "")
    (hsrc : x.2.1.path ∉ pfs.map FileParsed.relPath → x.2.1 ∈ g.nodes)
    (hdue : x.2.1.path ∉ pfs.map FileParsed.relPath → x.2.1.path ∈ env.run →
      x.2.1.path ∈ done ∨ x.2.1.path ∈ rest)
    (hrows : ∀ pf ∈ pfs, ∀ y ∈ pf.nodes, HasRow g pf.relPath y)
    (hbare : ∀ o ∈ g.severed, o.sourcePath ∉ pfs.map FileParsed.relPath) :
    Restoration env rest (restoreInboundEdge env pfs done r x) saved := by
  -- A source of the batch is passed over: it was re-extracted just now.
  by_cases hbatch : x.2.1.path ∈ pfs.map FileParsed.relPath
  · rw [restoreInboundEdge_of_batch hbatch]
    refine ⟨hr.clean, hr.requeued, hr.settled.drop ?_⟩
    intro ho
    rw [h.same.severed] at ho
    exact absurd hbatch (hbare _ ho)
  obtain ⟨e, src, t⟩ := x
  have hmem : src ∈ r.graph.nodes := h.same.nodes ▸ hsrc hbatch
  obtain ⟨language, hfile⟩ := Option.ne_none_iff_exists'.mp (h.wellFormed.node_file src hmem)
  have houtcome : Outcome env pfs done r e src t language
      (restoreInboundEdge env pfs done r (e, src, t)) := outcome_restoreInboundEdge hbatch hfile
  generalize restoreInboundEdge env pfs done r (e, src, t) = r' at houtcome ⊢
  -- A key that is there already, or is put there now, stands for the deferred relation.
  have hkept : ∀ d : DeferredRelation, ∀ k ∈ r.requeued, ∃ d' ∈ r.deferred ++ [d],
      k.1 ∈ d'.sourceIds ∧ d'.metadata = k.2.2 ∧ (d'.relation = .calls ∧ callMarked k.2.2 = true ∨
        d'.relation = .imports ∧ callMarked k.2.2 = false) := by
    intro d k hk
    obtain ⟨d', hd', hrow⟩ := hr.requeued k hk
    exact ⟨d', List.mem_append_left _ hd', hrow⟩
  cases houtcome with
  -- The name is found at once: an edge to each row of it, and one of them is the target's.
  | bound ids hids hne =>
    have hfold : Clean ((ids.filter fun id => id ≠ src.id).foldl
          (fun g id => g.insertEdge ⟨src.id, id, e.relation, e.metadata⟩) r.graph) ∧
        Settled env rest ((e, src, t) :: saved) ((ids.filter fun id => id ≠ src.id).foldl
          (fun g id => g.insertEdge ⟨src.id, id, e.relation, e.metadata⟩) r.graph) r.deferred := by
      refine List.foldlRecOn (motive := fun g₁ => Clean g₁ ∧
        Settled env rest ((e, src, t) :: saved) g₁ r.deferred) _ _ ⟨hr.clean, hr.settled⟩ ?_
      rintro g₁ ⟨hc, hset⟩ id -
      refine ⟨hc.insertEdge hw, hset.mono (fun _ => subset_insertEdge) ?_ ?_ (insertEdge_severed _)
        (List.Subset.refl _)⟩
      · rw [insertEdge_nodes]
        exact List.Subset.refl _
      · rw [insertEdge_pending]
        exact List.Subset.refl _
    exact ⟨hfold.1, hr.requeued, hfold.2.drop fun _ => .inl (.inl
      (metByEdge_bound hr.clean hw hg h.same.nodes (hsrc hbatch) hbatch hrows hids hne))⟩
  | noPath hempty => exact absurd hempty hpath
  -- The source's own batch is still to come.
  | later hrun hdone =>
    exact ⟨hr.clean, hr.requeued,
      hr.settled.drop fun _ => .inr ((hdue hbatch hrun).resolve_left hdone)⟩
  -- A deferred relation of the same key is there; the marker says whether it is a call or an import.
  | again name hmarked hkey =>
    refine ⟨hr.clean, hr.requeued, hr.settled.drop fun _ => .inl (.inr (.inl ?_))⟩
    obtain ⟨d, hd, hsrcd, hmeta, hkind⟩ := hr.requeued _ hkey
    refine ⟨d, hd, hsrcd, ?_, .inl hmeta⟩
    show d.relation = e.relation
    rcases marked_cases hw hmarked with ⟨hrel, hmark⟩ | ⟨hrel, hmark⟩
    · rcases hkind with ⟨hdrel, -⟩ | ⟨-, hno⟩
      · exact hdrel.trans hrel.symm
      · rw [hmark] at hno
        cases hno
    · rcases hkind with ⟨-, hyes⟩ | ⟨hdrel, -⟩
      · rw [hmark] at hyes
        cases hyes
      · exact hdrel.trans hrel.symm
  | requeued name hmarked hdone =>
    set d : DeferredRelation :=
      ⟨[src.id], "", name, e.relation, e.metadata, src.path, language.getD "", none⟩ with hd
    have hmet : MetByDeferred env (r.deferred ++ [d]) (Graph.Severed.of (e, src, t)) :=
      ⟨d, List.mem_append_right _ List.mem_cons_self, List.mem_cons_self, rfl, .inl rfl⟩
    have hkeys : ∀ k ∈ (src.id, name, e.metadata) :: r.requeued, ∃ d' ∈ r.deferred ++ [d],
        k.1 ∈ d'.sourceIds ∧ d'.metadata = k.2.2 ∧ (d'.relation = .calls ∧ callMarked k.2.2 = true ∨
          d'.relation = .imports ∧ callMarked k.2.2 = false) := by
      intro k hk
      rcases List.mem_cons.mp hk with rfl | hk
      · exact ⟨d, List.mem_append_right _ List.mem_cons_self, List.mem_cons_self, rfl,
          marked_cases hw hmarked⟩
      · exact hkept d k hk
    -- The stale edge of the marker, where there is one, goes; no other obligation needs it.
    split_ifs
    · refine ⟨hr.clean.subset (List.Subset.refl _) (fun _ _ => rfl)
        (fun _ he => (List.mem_filter.mp he).1) (List.Subset.refl _), hkeys, ?_⟩
      refine (hr.settled.deleteEdges ?_).drop fun _ => .inl (.inr (.inl hmet))
      intro f _ hf
      simp only [Bool.and_eq_true, decide_eq_true_eq] at hf
      obtain ⟨⟨hfs, hfr⟩, hfm, -⟩ := hf
      exact ⟨List.mem_singleton.mpr hfs, hfr.symm, hfm.symm⟩
    · exact ⟨hr.clean, hkeys, (hr.settled.mono (List.Subset.refl _) (List.Subset.refl _)
        (List.Subset.refl _) rfl (List.subset_append_left _ _)).drop fun _ =>
          .inl (.inr (.inl hmet))⟩
  | pending hcalls =>
    refine ⟨hr.clean.insertPending hw.1, hr.requeued, (hr.settled.mono ?_ ?_
      (fun _ => subset_insertPending) (insertPending_severed _) (List.Subset.refl _)).drop ?_⟩
    · rw [insertPending_edges]
      exact List.Subset.refl _
    · rw [insertPending_nodes]
      exact List.Subset.refl _
    · intro _
      exact .inl (.inr (.inr ⟨hcalls, exists_pending hr.clean _ hw.1⟩))
  -- No rule applies: the relation is deferred as it was extracted.
  | deferred hdone =>
    refine ⟨hr.clean, hkept _, (hr.settled.mono (List.Subset.refl _) (List.Subset.refl _)
      (List.Subset.refl _) rfl (List.subset_append_left _ _)).drop fun _ => .inl (.inr (.inl ?_))⟩
    exact ⟨_, List.mem_append_right _ List.mem_cons_self, List.mem_cons_self, rfl, .inr rfl⟩

end Restoring

/-! ### One batch -/

/-- What the pre-parse promises of a batch whose files are all parsed or set aside. -/
structure Extracted (b : Batch) : Prop where
  files : ∀ f ∈ b.parsed, f.relPath ≠ "" ∧ f.language ≠ ""
  relations : ∀ f ∈ b.parsed, ∀ rel ∈ f.relations, Written rel.relation rel.metadata
  languages : ∀ file ∈ b.skipped, file.2 ≠ ""
  unread : b.unread = []

/-- The invariant of the loop. -/
structure Kept (env : Env) (s : State) (rest : List Batch) : Prop where
  underway : Underway env s rest
  extracted : ∀ b ∈ rest, Extracted b
  clean : Clean s.graph
  due : ∀ p ∈ env.run, p ∈ s.done ∨ p ∈ purged rest
  settled : Settled env (purged rest) [] s.graph s.deferred

section Batch

variable {s : State} {b : Batch} {batches : List Batch}

theorem skipping_skipped (h : Kept env s (b :: batches)) (hkeep : KeepsInbound s b) :
    Skipping env s (b.parsed.map FilePreParsed.relPath ++ purged batches) (skipped env s b) [] := by
  have hpaths : purged (b :: batches) ⊆
      b.skipped.map Prod.fst ++ (b.parsed.map FilePreParsed.relPath ++ purged batches) := by
    intro p hp
    simp only [purged, Batch.paths, List.flatMap_cons, List.mem_append] at hp ⊢
    tauto
  have hlangs := (h.extracted b List.mem_cons_self).languages
  have hfirst : Skipping env s (b.parsed.map FilePreParsed.relPath ++ purged batches)
      (s.graph, s.deferred) b.skipped :=
    ⟨h.underway.inv.wellFormed, h.clean, List.Subset.refl _, List.Subset.refl _, List.Subset.refl _,
      fun n _ hrun => (h.due _ hrun).imp_right fun hp => hpaths hp, h.settled.subset hpaths⟩
  refine (foldl_invariant (I := fun r files => Skipping env s
    (b.parsed.map FilePreParsed.relPath ++ purged batches) r files ∧ files ⊆ b.skipped) ?_
    ⟨hfirst, List.Subset.refl _⟩).1
  rintro r file files ⟨hskip, hsub⟩
  have hfile : file ∈ b.skipped := hsub List.mem_cons_self
  exact ⟨skipping_skipFile h.underway.inv.wellFormed (hkeep file hfile) (hlangs file hfile) hskip,
    List.Subset.trans (List.subset_cons_self _ _) hsub⟩

/-- **A batch keeps the cut edges settled.** -/
theorem kept_batchStep (hfresh : ∀ l, env.alloc l ∉ l) (h : Kept env s (b :: batches))
    (hkeep : KeepsInbound s b) : Kept env (batchStep env s b) batches := by
  have hb := h.extracted b List.mem_cons_self
  have hp := phases hfresh h.underway.inv h.underway.paths_nodup
  have hskip := skipping_skipped h hkeep
  -- The rows of the batch are deleted and written anew, file by file.
  have hins : Inserting env (skipped env s b).2 (b.parsed.map FilePreParsed.relPath ++ [])
      (purged batches) [] (inserted env s b) :=
    inserting_insertBatchNodes hfresh b.parsed hskip.wellFormed hskip.clean
      ⟨fun _ _ _ _ _ => List.not_mem_nil, fun _ _ => List.not_mem_nil⟩ hskip.settled hb.files
  have hpfs : ∀ pf ∈ (inserted env s b).2.1, ∀ rel ∈ pf.relations,
      Written rel.relation rel.metadata := by
    intro pf hpf rel hrel
    obtain ⟨f, hf, hfrom⟩ := hp.inserts.parsed pf hpf
    exact hb.relations f hf rel (hfrom.relations ▸ hrel)
  -- Binding and the sentinels add edges and take none.
  have hres : Clean (resolved env s b).graph := by
    refine ⟨?_, ?_, ?_⟩
    · rw [hp.resolves.same.nodes, hp.resolves.same.files]
      exact hins.clean.located
    · intro e he
      rcases hp.resolves.grown.newEdges e he with he | hcarried
      · exact hins.clean.edges e he
      · exact hcarried.written hpfs
    · rw [hp.resolves.grown.pending]
      exact hins.clean.pending
  have hmint : Clean (minted env s b) := clean_mintExternalSentinels hres _ _
  have hset : Settled env (purged batches) (inserted env s b).2.2 (minted env s b)
      (resolved env s b).deferred :=
    (hins.settled.grown hp.resolves.grown hp.resolves.kept).grown hp.mints (List.Subset.refl _)
  have hgrown : (inserted env s b).1.nodes ⊆ (minted env s b).nodes :=
    List.Subset.trans hp.resolves.grown.nodes hp.mints.nodes
  have hrows : ∀ pf ∈ (inserted env s b).2.1, ∀ y ∈ pf.nodes,
      HasRow (minted env s b) pf.relPath y := by
    intro pf hpf y hy
    obtain ⟨n, hn, hrow⟩ := hp.inserts.rows pf hpf y hy
    exact ⟨n, hgrown hn, hrow⟩
  -- A source outside the batch kept its row.
  have hsrc : ∀ x ∈ (inserted env s b).2.2,
      x.2.1.path ∉ (inserted env s b).2.1.map FileParsed.relPath →
      x.2.1 ∈ (inserted env s b).1.nodes := by
    intro x hx hpath
    rw [hp.inserts.paths] at hpath
    exact (hp.inserts.saved x hx).resolve_left hpath
  -- A source outside the batch was there before the batch, so it is done or still to come.
  have hdue : ∀ x ∈ (inserted env s b).2.2,
      x.2.1.path ∉ (inserted env s b).2.1.map FileParsed.relPath → x.2.1.path ∈ env.run →
      x.2.1.path ∈ s.done ∨ x.2.1.path ∈ purged batches := by
    intro x hx hpath hrun
    have hmem := hsrc x hx hpath
    rw [hp.inserts.paths] at hpath
    rcases hp.inserts.only _ hmem with ⟨hold, -⟩ | ⟨hin, -⟩
    · refine (hskip.due _ hold hrun).imp_right fun hin => ?_
      have hin : x.2.1.path ∈ b.parsed.map FilePreParsed.relPath ++ purged batches := hin
      exact (List.mem_append.mp hin).resolve_left hpath
    · exact absurd hin hpath
  have hbare : ∀ o ∈ (minted env s b).severed,
      o.sourcePath ∉ (inserted env s b).2.1.map FileParsed.relPath := by
    intro o ho
    rw [hp.mints.severed, hp.resolves.grown.severed] at ho
    rw [hp.inserts.paths]
    exact fun hmem => hins.bare.severed o ho (List.mem_append_left _ hmem)
  -- The restoration, edge by edge: the invariant is over the edges still to restore.
  have hend : Restoration env (purged batches) (restored env s b) [] := by
    refine (foldl_invariant (I := fun r xs =>
      Restored env s.done (inserted env s b).2.2 (inserted env s b).2.1 (minted env s b)
        (resolved env s b).deferred r ∧
      Restoration env (purged batches) r xs ∧ xs ⊆ (inserted env s b).2.2) ?_ ?_).2.1
    · rintro r x xs ⟨hrest, hr, hsub⟩
      have hx : x ∈ (inserted env s b).2.2 := hsub List.mem_cons_self
      obtain ⟨hw, hpath⟩ := hins.saved x hx
      refine ⟨restored_restoreInboundEdge hrest hx (fun hn => hgrown (hsrc x hx hn)) ?_,
        restoration_restoreInboundEdge hrest hr hp.mints.wellFormed hw hpath
          (fun hn => hgrown (hsrc x hx hn)) (hdue x hx) hrows hbare,
        List.Subset.trans (List.subset_cons_self _ _) hsub⟩
      intro pf hpf y hy
      obtain ⟨n, hn, hid, -⟩ := hrows pf hpf y hy
      exact mem_ids.mpr ⟨n, hn, hid⟩
    · refine ⟨⟨hp.mints.wellFormed, SameRows.refl, List.Subset.refl _, fun d hd => .inl hd⟩,
        ⟨hmint, ?_, hset⟩, List.Subset.refl _⟩
      intro k hk
      cases hk
  refine ⟨underway_batchStep hfresh h.underway,
    fun b' hb' => h.extracted b' (List.mem_cons_of_mem b hb'), hend.clean, ?_, hend.settled⟩
  -- A path of the run is done when its batch is.
  intro p hrun
  rcases h.due p hrun with hdone | hpur
  · exact .inl (List.mem_append_left _ hdone)
  · rw [purged, List.flatMap_cons, List.mem_append] at hpur
    exact hpur.imp_left fun hin => List.mem_append_right _ hin

end Batch

/-! ### Every run -/

/-- **No inbound relation is lost**, in a run where no file set aside has one from a file whose batch
is done. -/
theorem inbound_relations_kept {batches : List Batch} {deletePaths : List String}
    (hfresh : ∀ l, env.alloc l ∉ l) (hg : WellFormed g) (hclean : Clean g) (hnone : g.severed = [])
    (hplan : Planned env batches) (hb : ∀ b ∈ batches, Extracted b)
    (hkeep : AllFold (batchStep env) (fun s b _ => KeepsInbound s b) (start env deletePaths g)
      batches) :
    ∀ o ∈ (indexFiles env deletePaths g batches).graph.severed,
      Met env (indexFiles env deletePaths g batches).graph
        (indexFiles env deletePaths g batches).deferred o := by
  have hall : ∀ p ∈ env.run, p ∈ purged batches := by
    intro p hp
    obtain ⟨b, hmem, hpb⟩ := List.mem_flatMap.mp ((hplan.run p).mp hp)
    refine List.mem_flatMap.mpr ⟨b, hmem, ?_⟩
    rw [Batch.files, (hb b hmem).unread, List.append_nil] at hpb
    exact hpb
  obtain ⟨hclean', hset⟩ := settled_start hg hclean hnone hall deletePaths
  have hstart : Kept env (start env deletePaths g) batches :=
    ⟨underway_start hg hplan, hb, hclean', fun p hp => .inr (hall p hp), hset⟩
  have hend := AllFold.invariant (I := fun s rest => Kept env s rest)
    (fun h hk => kept_batchStep hfresh h hk) hstart hkeep
  intro o ho
  rcases hend.settled o ho with hmet | hrest | ⟨x, hx, -⟩
  · exact hmet
  · cases hrest
  · cases hx

/-! An import in one file and the class it names in another, which has grown past the size limit. -/

/-- `resolve_js_module_targets`. -/
def resolveJsModuleTargets (specifier importer target : String) (fileSet : Finset String) (pool : List NameEntry) :
    Option (List ℕ) :=
  (resolveJsSpecifierPath specifier importer fileSet).bind fun file =>
    let targets := (pool.filter fun n => n.name = target ∧ n.path = file).map NameEntry.id
    if targets = [] then none else some targets

/-- The metadata of `import { Base } from './base'`. -/
def importMetadata : String := "\x7b\"js_module\":\"./base\"\x7d"

/-- The specifier in that metadata. -/
def jsModuleOf (metadata : Option String) : Option String :=
  if metadata = some importMetadata then some "./base" else none

def appFile : FilePreParsed :=
  ⟨"app.ts", "typescript", [], [⟨"<module>", "Base", .imports, some importMetadata, none⟩]⟩

def appBatch : Batch := ⟨[appFile], [], []⟩

def baseBatch : Batch := ⟨[], [("base.ts", "typescript")], []⟩

def importIndex : Graph where
  files := fun p => if p = "app.ts" ∨ p = "base.ts" then some (some "typescript") else none
  nodes := [⟨1, "app.ts", "module", "<module>", some "app.ts"⟩,
    ⟨2, "base.ts", "module", "<module>", some "base.ts"⟩,
    ⟨3, "base.ts", "class", "Base", none⟩]
  edges := [⟨1, 3, .imports, some importMetadata⟩]
  pending := []
  severed := []

/-- An import with a specifier is bound to the nodes of its name in the file that the specifier names; every other
relation of these files has no target in its own file and is deferred. -/
def importEnv (run : List String) : Env :=
  plainEnv run fun _ pool pf rel =>
    match (jsModuleOf rel.metadata).bind fun specifier =>
      resolveJsModuleTargets specifier pf.relPath rel.targetName {"app.ts", "base.ts"} pool with
    | some targets => .bind targets
    | none => .defer none

theorem wellFormed_importIndex : WellFormed importIndex := by
  constructor <;> decide

theorem clean_importIndex : Clean importIndex := by
  refine ⟨?_, ?_, by decide⟩
  · intro n hn
    have hfile : n.path ≠ "" ∧ importIndex.files n.path = some (some "typescript") := by
      revert n
      decide
    exact ⟨hfile.1, "typescript", by decide, hfile.2⟩
  · intro e he
    rw [List.mem_singleton.mp he]
    exact ⟨by decide, fun _ => by decide⟩

/-- The importer is indexed again in the first batch, which binds the import to the old row of the class, and the
second batch takes that row away. -/
theorem inbound_relation_lost :
    WellFormed importIndex ∧ Clean importIndex ∧
      Planned (importEnv ["app.ts", "base.ts"]) [appBatch, baseBatch] ∧
      ¬ ∀ o ∈ (indexFiles (importEnv ["app.ts", "base.ts"]) [] importIndex
          [appBatch, baseBatch]).graph.severed,
        Met (importEnv ["app.ts", "base.ts"])
          (indexFiles (importEnv ["app.ts", "base.ts"]) [] importIndex [appBatch, baseBatch]).graph
          (indexFiles (importEnv ["app.ts", "base.ts"]) [] importIndex
            [appBatch, baseBatch]).deferred o := by
  refine ⟨wellFormed_importIndex, clean_importIndex, ⟨fun p => Iff.rfl, by decide⟩, ?_⟩
  unfold Met MetByEdge MetByDeferred MetByPending
  decide +kernel

/-- When only the class's file is indexed, the edge of the import is deferred. -/
theorem inbound_relations_kept_base :
    (indexFiles (importEnv ["base.ts"]) [] importIndex [baseBatch]).graph.severed ≠ [] ∧
      ∀ o ∈ (indexFiles (importEnv ["base.ts"]) [] importIndex [baseBatch]).graph.severed,
        Met (importEnv ["base.ts"])
          (indexFiles (importEnv ["base.ts"]) [] importIndex [baseBatch]).graph
          (indexFiles (importEnv ["base.ts"]) [] importIndex [baseBatch]).deferred o := by
  refine ⟨by decide +kernel, inbound_relations_kept nextRowId_not_mem wellFormed_importIndex
    clean_importIndex rfl ⟨fun p => Iff.rfl, by decide⟩ ?_ ?_⟩
  · intro b hb
    rw [List.mem_singleton.mp hb]
    refine ⟨?_, ?_, by decide, rfl⟩
    · intro f hf
      cases hf
    · intro f hf
      cases hf
  · refine ⟨?_, trivial⟩
    intro file _ x _ _ hdone
    cases hdone

end CodeGraph.Pipeline.IndexFiles
