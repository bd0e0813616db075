import CodeGraph.Pipeline.Correct.PassContext

/-!
# Scoped import binding against global import binding

`bindCallsToImportedTargets` and `pruneImportContradictedCallEdges` take a scope after an incremental
run, the files of the run and the sources of the edges it dropped. `scoped_eq_global_iff` says when
that is the global pair of passes, on any index and any scope: every bare call it leaves out has its
bound edge already (or a call in scope brings it), and no edge it leaves out is contradicted.

`Reindexed` then says what a run does to a state on which the global passes had nothing left to do.
The prune is complete there (`touches_of_contradicted`): an import of an untouched file leads to the
same name before and after. The bind is complete where the import was unique before
(`exists_bound_of_unique`), and `Reindexed.scoped_eq_global_iff` leaves the one case in which it can
fall short: an import that led to several nodes and leads to one.
-/

namespace CodeGraph.Pipeline.Resolve

open CodeGraph.Lib CodeGraph.Storage

variable {json : Json} {I G₀ G₁ : Index} {scope : PostPassScope} {e f r : EdgeRow}

/-! ### Any index and any scope -/

/-- Bind, then prune. -/
def bindThenPrune (json : Json) (I : Index) (scope : PostPassScope) : Index :=
  pruneImportContradictedCallEdges json (bindCallsToImportedTargets json I scope) scope

def callEdges (I : Index) : Finset EdgeRow := I.edges.filter fun e => e.relation = .calls

theorem mem_bindThenPrune :
    e ∈ (bindThenPrune json I scope).edges ↔
      (e ∈ I.edges ∨ e ∈ bindRows json I scope ∧ ∀ f ∈ I.edges, f.key ≠ e.key) ∧
        ¬ (scope.Touches I e ∧ Contradicted json I e) := by
  have hB : SameContext I (bindCallsToImportedTargets json I scope) := sameContext_bind I scope
  have hmem : e ∈ (bindCallsToImportedTargets json I scope).edges ↔
      e ∈ I.edges ∨ e ∈ bindRows json I scope ∧ ∀ f ∈ I.edges, f.key ≠ e.key := mem_insertOrIgnore
  refine Finset.mem_filter.trans ?_
  rw [hmem]
  exact and_congr_right fun _ => not_congr (and_congr hB.touches hB.contradicted)

/-- The bind offers edges to imported nodes only, and those are never contradicted. -/
theorem not_contradicted_of_bindRows (h : r ∈ bindRows json I scope) : ¬ Contradicted json I r := by
  obtain ⟨e, -, -, -, t, ht, rfl⟩ := (mem_bindRows json).mp h
  rintro ⟨-, -, -, -, -, -, hno⟩
  have himp : t ∈ importTargets json I (I.node e.source).fileId (.text (I.node e.target).name) := by
    rw [((mem_boundTargets json).mp ht).1]
    exact Finset.mem_singleton_self t
  obtain ⟨ie, hie, hr, -, ha, hf, -, htt⟩ := (mem_importTargets json).mp himp
  exact hno ⟨ie, hie, hr, hf, ha, htt⟩

theorem bindRows_subset_global : bindRows json I scope ⊆ bindRows json I .global := by
  intro r hr
  obtain ⟨e, he, -, hb, t, ht, rfl⟩ := (mem_bindRows json).mp hr
  exact (mem_bindRows json).mpr ⟨e, he, trivial, hb, t, ht, rfl⟩

/-- **When a scope loses nothing.** -/
theorem scoped_eq_global_iff :
    callEdges (bindThenPrune json I scope) = callEdges (bindThenPrune json I .global) ↔
      (∀ r ∈ bindRows json I .global,
        (∃ f ∈ I.edges, f.key = r.key) ∨ r ∈ bindRows json I scope) ∧
      ∀ e ∈ I.edges, Contradicted json I e → scope.Touches I e := by
  have hcalls : ∀ {J : Index} {e : EdgeRow}, e ∈ callEdges J ↔ e ∈ J.edges ∧ e.relation = .calls :=
    Finset.mem_filter
  constructor
  · intro h
    constructor
    · intro r hr
      -- a row that the global pass binds is kept by it, so the scoped pass has it too
      by_cases hex : ∃ f ∈ I.edges, f.key = r.key
      · exact .inl hex
      right
      push Not at hex
      have hrel : r.relation = .calls := by
        obtain ⟨_, -, -, -, _, -, rfl⟩ := (mem_bindRows json).mp hr
        rfl
      have hglobal : r ∈ callEdges (bindThenPrune json I .global) :=
        hcalls.mpr ⟨mem_bindThenPrune.mpr
          ⟨.inr ⟨hr, hex⟩, fun hc => not_contradicted_of_bindRows hr hc.2⟩, hrel⟩
      rw [← h] at hglobal
      rcases (mem_bindThenPrune.mp (hcalls.mp hglobal).1).1 with hmem | hmem
      · exact absurd rfl (hex r hmem)
      · exact hmem.1
    · -- a contradicted edge out of the scope is kept by the scoped pass alone
      intro e he hc
      by_contra ht
      have hscoped : e ∈ callEdges (bindThenPrune json I scope) :=
        hcalls.mpr ⟨mem_bindThenPrune.mpr ⟨.inl he, fun h' => ht h'.1⟩, hc.1⟩
      rw [h] at hscoped
      exact (mem_bindThenPrune.mp (hcalls.mp hscoped).1).2 ⟨trivial, hc⟩
  · -- what the scope leaves out was there before, or is bound in it
    rintro ⟨hbind, hprune⟩
    ext e
    rw [hcalls, hcalls, mem_bindThenPrune, mem_bindThenPrune]
    refine and_congr_left fun _ => ?_
    constructor
    · rintro ⟨he | ⟨hr, hfree⟩, hkeep⟩
      · exact ⟨.inl he, fun hc => hkeep ⟨hprune e he hc.2, hc.2⟩⟩
      · exact ⟨.inr ⟨bindRows_subset_global hr, hfree⟩,
          fun hc => not_contradicted_of_bindRows hr hc.2⟩
    · rintro ⟨he | ⟨hr, hfree⟩, hkeep⟩
      · exact ⟨.inl he, fun hc => hkeep ⟨trivial, hc.2⟩⟩
      · refine ⟨.inr ⟨?_, hfree⟩, fun hc => not_contradicted_of_bindRows hr hc.2⟩
        rcases hbind e hr with ⟨f, hf, hk⟩ | hin
        · exact absurd hk (hfree f hf)
        · exact hin

/-- A state that the global passes leave alone has every bound edge and nothing contradicted. -/
theorem of_bindThenPrune_eq_self (h : bindThenPrune json I .global = I) :
    (∀ r ∈ bindRows json I .global, ∃ f ∈ I.edges, f.key = r.key) ∧
      ∀ e ∈ I.edges, ¬ Contradicted json I e := by
  constructor
  · intro r hr
    by_contra hno
    push Not at hno
    have hin : r ∈ (bindThenPrune json I .global).edges :=
      mem_bindThenPrune.mpr ⟨.inr ⟨hr, hno⟩, fun hc => not_contradicted_of_bindRows hr hc.2⟩
    rw [h] at hin
    exact hno r hin rfl
  · intro e he hc
    rw [← h] at he
    exact (mem_bindThenPrune.mp he).2 ⟨trivial, hc⟩

/-! ### A run that re-indexes files -/

/-- The node is in a file the run did not touch. -/
def Outside (I : Index) (paths : Finset String) (x : ℕ) : Prop := (I.fileOf x).path ∉ paths

instance (I : Index) (paths : Finset String) (x : ℕ) : Decidable (Outside I paths x) :=
  inferInstanceAs (Decidable (_ ∉ _))

/-- `G₁` is `G₀` after a run that re-indexed or deleted the files at `paths`. Their nodes and outgoing
edges are whatever the run extracted. An edge of another file into one of them is restored to every
node of its target's name there; where there is none, it is dropped and its source's file is in
`fids`, beside the re-indexed files. -/
structure Reindexed (G₀ G₁ : Index) (paths : Finset String) (fids : Finset ℕ) : Prop where
  nodes : ∀ n : NodeRow, n ∈ G₀.nodes ∧ (G₀.file n.fileId).path ∉ paths ↔
    n ∈ G₁.nodes ∧ (G₁.file n.fileId).path ∉ paths
  files : ∀ f : FileRow, f.path ∉ paths → (f ∈ G₀.files ↔ f ∈ G₁.files)
  /-- Edges between two untouched files stay. -/
  kept : ∀ e : EdgeRow,
    e ∈ G₀.edges ∧ Outside G₀ paths e.source ∧ Outside G₀ paths e.target ↔
      e ∈ G₁.edges ∧ Outside G₁ paths e.source ∧ Outside G₁ paths e.target
  restored : ∀ e ∈ G₀.edges, Outside G₀ paths e.source → ¬ Outside G₀ paths e.target →
    ∀ t ∈ G₁.nodes, (G₁.file t.fileId).path = (G₀.fileOf e.target).path →
      t.name = (G₀.node e.target).name →
      ∃ e' ∈ G₁.edges, e'.source = e.source ∧ e'.target = t.id ∧ e'.relation = e.relation ∧
        e'.metadata = e.metadata
  /-- An untouched file has no other edge into a re-indexed one. -/
  restored_only : ∀ e' ∈ G₁.edges, Outside G₁ paths e'.source → ¬ Outside G₁ paths e'.target →
    ∃ e ∈ G₀.edges, e.source = e'.source ∧ e.relation = e'.relation ∧ e.metadata = e'.metadata ∧
      (G₀.fileOf e.target).path = (G₁.fileOf e'.target).path ∧
      (G₀.node e.target).name = (G₁.node e'.target).name
  dropped : ∀ e ∈ G₀.edges, Outside G₀ paths e.source → ¬ Outside G₀ paths e.target →
    (∀ t ∈ G₁.nodes, (G₁.file t.fileId).path = (G₀.fileOf e.target).path →
      t.name ≠ (G₀.node e.target).name) → (G₁.node e.source).fileId ∈ fids
  scope : ∀ f ∈ G₁.files, f.path ∈ paths → f.id ∈ fids

namespace Reindexed

variable {paths : Finset String} {fids : Finset ℕ} {names : Finset String} {x : ℕ}

/-- A node of an untouched file is the same row in both states. -/
theorem node_eq (h : Reindexed G₀ G₁ paths fids) (hx : x ∈ G₁.nodes.map NodeRow.id)
    (ho : Outside G₁ paths x) :
    x ∈ G₀.nodes.map NodeRow.id ∧ G₀.node x = G₁.node x ∧ Outside G₀ paths x := by
  obtain ⟨hmem, hid⟩ := Index.node_mem hx
  obtain ⟨hmem₀, hpath₀⟩ := (h.nodes _).mpr ⟨hmem, ho⟩
  have hnode : G₀.node x = G₁.node x := by
    have hn := Index.node_of_mem hmem₀
    rwa [hid] at hn
  refine ⟨hid ▸ List.mem_map_of_mem hmem₀, hnode, ?_⟩
  unfold Outside Index.fileOf
  rw [hnode]
  exact hpath₀

theorem fileOf_eq (h : Reindexed G₀ G₁ paths fids) (hx : x ∈ G₁.nodes.map NodeRow.id)
    (ho : Outside G₁ paths x) : G₀.fileOf x = G₁.fileOf x := by
  obtain ⟨hx₀, hnode, ho₀⟩ := h.node_eq hx ho
  obtain ⟨hf₀, hid₀⟩ := Index.fileOf_mem hx₀
  obtain ⟨-, hid⟩ := Index.fileOf_mem hx
  have hf : G₀.fileOf x ∈ G₁.files := (h.files _ ho₀).mp hf₀
  have hids : (G₀.fileOf x).id = (G₁.fileOf x).id := by rw [hid₀, hid, hnode]
  have heq := Index.file_of_mem hf
  rw [hids, hid] at heq
  exact heq.symm

/-- A file outside the scope was not re-indexed. -/
theorem outside_of_not_mem (h : Reindexed G₀ G₁ paths fids) (hx : x ∈ G₁.nodes.map NodeRow.id)
    (hf : (G₁.node x).fileId ∉ fids) : Outside G₁ paths x := by
  intro hp
  obtain ⟨hmem, hid⟩ := Index.fileOf_mem hx
  exact hf (hid ▸ h.scope _ hmem hp)

/-- An import of an untouched file stems from one of the state before, with the same metadata and a
target of the same name at the same path; the same one where that file is untouched too. -/
theorem exists_import_before (h : Reindexed G₀ G₁ paths fids) {ie : EdgeRow} (hie : ie ∈ G₁.edges)
    (ho : Outside G₁ paths ie.source) :
    ∃ ie₀ ∈ G₀.edges, ie₀.source = ie.source ∧ ie₀.relation = ie.relation ∧
      ie₀.metadata = ie.metadata ∧ (G₀.fileOf ie₀.target).path = (G₁.fileOf ie.target).path ∧
      (G₀.node ie₀.target).name = (G₁.node ie.target).name ∧
      (Outside G₁ paths ie.target → ie₀ = ie) := by
  by_cases hot : Outside G₁ paths ie.target
  · obtain ⟨hie₀, -, -⟩ := (h.kept ie).mpr ⟨hie, ho, hot⟩
    obtain ⟨-, hnode, -⟩ := h.node_eq (G₁.edge_target ie hie) hot
    refine ⟨ie, hie₀, rfl, rfl, rfl, ?_, ?_, fun _ => rfl⟩
    · rw [h.fileOf_eq (G₁.edge_target ie hie) hot]
    · rw [hnode]
  · obtain ⟨ie₀, hie₀, hs, hr, hm, hp, hn⟩ := h.restored_only ie hie ho hot
    exact ⟨ie₀, hie₀, hs, hr, hm, hp, hn, fun h' => absurd h' hot⟩

theorem importName_eq {ie ie₀ : EdgeRow} (hm : ie₀.metadata = ie.metadata)
    (hn : (G₀.node ie₀.target).name = (G₁.node ie.target).name) :
    importName json G₀ ie₀ = importName json G₁ ie := by
  unfold importName
  rw [hm, hn]

/-- An import of an untouched file from a known state starts in the same file there. -/
theorem source_fileId_eq (h : Reindexed G₀ G₁ paths fids) {ie ie₀ : EdgeRow} (hie : ie ∈ G₁.edges)
    (ho : Outside G₁ paths ie.source) (hs : ie₀.source = ie.source) :
    (G₀.node ie₀.source).fileId = (G₁.node ie.source).fileId := by
  rw [hs, (h.node_eq (G₁.edge_source ie hie) ho).2.1]

/-- A caller and an import of one file are both outside, or neither is. -/
theorem outside_of_fileId {y : ℕ} (hxy : (G₁.node x).fileId = (G₁.node y).fileId)
    (ho : Outside G₁ paths y) : Outside G₁ paths x := by
  unfold Outside Index.fileOf at ho ⊢
  rw [hxy]
  exact ho

/-- **The scoped prune misses nothing.** -/
theorem touches_of_contradicted (h : Reindexed G₀ G₁ paths fids)
    (hfixed : ∀ e ∈ G₀.edges, ¬ Contradicted json G₀ e) (he : e ∈ G₁.edges)
    (hc : Contradicted json G₁ e) : (PostPassScope.files fids names).Touches G₁ e := by
  by_contra ht
  have ht' : ¬ ((G₁.node e.source).fileId ∈ fids ∨ (G₁.node e.target).fileId ∈ fids) := ht
  push Not at ht'
  have hos := h.outside_of_not_mem (G₁.edge_source e he) ht'.1
  have hot := h.outside_of_not_mem (G₁.edge_target e he) ht'.2
  obtain ⟨he₀, hos₀, hot₀⟩ := (h.kept e).mpr ⟨he, hos, hot⟩
  have hsn := (h.node_eq (G₁.edge_source e he) hos).2.1
  have htn := (h.node_eq (G₁.edge_target e he) hot).2.1
  obtain ⟨hrel, hbare, hfile, hinstr, htrunc, himp, hnot⟩ := hc
  apply hfixed e he₀
  unfold Contradicted
  dsimp only
  rw [hsn, htn]
  refine ⟨hrel, hbare, hfile, hinstr, htrunc, ?_, ?_⟩
  · -- The import of the same name was there before, and led to another node then too.
    obtain ⟨ie, hie, hir, hif, hia, hin, hit⟩ := himp
    have hio : Outside G₁ paths ie.source := outside_of_fileId hif hos
    obtain ⟨ie₀, hie₀, hs, hr, hm, hp, hn, hsame⟩ := h.exists_import_before hie hio
    refine ⟨ie₀, hie₀, hr.trans hir, (h.source_fileId_eq hie hio hs).trans hif, ?_, ?_, ?_⟩
    · rw [hm]
      exact hia
    · exact (importName_eq hm hn).trans hin
    · intro heq
      have hoie : Outside G₁ paths ie.target := by
        unfold Outside
        rw [← hp, heq]
        exact hot₀
      exact hit ((hsame hoie) ▸ heq)
  · -- An import of this target joins two untouched files, so it is there after as well.
    rintro ⟨ie, hie, hir, hif, hia, hit⟩
    apply hnot
    have hif₀ : (G₀.node ie.source).fileId = (G₀.node e.source).fileId := by rw [hif, hsn]
    have hio₀ : Outside G₀ paths ie.source := by
      unfold Outside Index.fileOf at hos₀ ⊢
      rw [hif₀]
      exact hos₀
    obtain ⟨hie₁, hio, -⟩ := (h.kept ie).mp ⟨hie, hio₀, hit ▸ hot₀⟩
    refine ⟨ie, hie₁, hir, ?_, hia, hit⟩
    rw [← hif, (h.node_eq (G₁.edge_source ie hie₁) hio).2.1]

/-- Every node an untouched file imports a name as stems from one it imported the name as before; the
same one where that node's file is untouched. -/
theorem exists_importTarget_before (h : Reindexed G₀ G₁ paths fids) {nm : SqlVal} {u : ℕ}
    (ho : Outside G₁ paths x) (hu : u ∈ importTargets json G₁ (G₁.node x).fileId nm) :
    ∃ u₀ ∈ importTargets json G₀ (G₁.node x).fileId nm,
      (G₀.fileOf u₀).path = (G₁.fileOf u).path ∧ (G₀.node u₀).name = (G₁.node u).name ∧
      (Outside G₁ paths u → u₀ = u) := by
  obtain ⟨ie, hie, hr, hext, ha, hf, hn, rfl⟩ := (mem_importTargets json).mp hu
  have hio : Outside G₁ paths ie.source := outside_of_fileId hf ho
  obtain ⟨ie₀, hie₀, hs₀, hr₀, hm₀, hp₀, hn₀, hsame⟩ := h.exists_import_before hie hio
  refine ⟨ie₀.target, ?_, hp₀, hn₀, fun hot => by rw [hsame hot]⟩
  refine (mem_importTargets json).mpr ⟨ie₀, hie₀, hr₀.trans hr, hp₀ ▸ hext, ?_, ?_, ?_, rfl⟩
  · rw [hm₀]
    exact ha
  · exact (h.source_fileId_eq hie hio hs₀).trans hf
  · exact (importName_eq hm₀ hn₀).trans hn

/-- **The scoped bind misses nothing where the import was unique before.** The bound edge was there,
and the run kept or restored it. -/
theorem exists_bound_of_unique (h : Reindexed G₀ G₁ paths fids)
    (hfixed : ∀ r ∈ bindRows json G₀ .global, ∃ f ∈ G₀.edges, f.key = r.key) (he : e ∈ G₁.edges)
    (hos : Outside G₁ paths e.source) (hot : Outside G₁ paths e.target) (hb : Bindable json G₁ e)
    {u : ℕ} (hu : u ∈ boundTargets json G₁ e)
    (hcard : (importTargets json G₀ (G₁.node e.source).fileId
      (.text (G₁.node e.target).name)).card = 1) :
    ∃ f ∈ G₁.edges, f.key = (EdgeRow.new e.source u .calls none).key := by
  obtain ⟨hsing, hne⟩ := (mem_boundTargets json).mp hu
  have humem : u ∈ importTargets json G₁ (G₁.node e.source).fileId (.text (G₁.node e.target).name) :=
    hsing ▸ Finset.mem_singleton_self u
  obtain ⟨u₀, hu₀, hp₀, hn₀, hsame⟩ := h.exists_importTarget_before hos humem
  have hone : importTargets json G₀ (G₁.node e.source).fileId (.text (G₁.node e.target).name) =
      {u₀} := by
    obtain ⟨w, hw⟩ := Finset.card_eq_one.mp hcard
    rw [hw, Finset.mem_singleton] at hu₀
    rw [hw, hu₀]
  obtain ⟨he₀, hos₀, -⟩ := (h.kept e).mpr ⟨he, hos, hot⟩
  obtain ⟨-, hsn, -⟩ := h.node_eq (G₁.edge_source e he) hos
  obtain ⟨-, htn, -⟩ := h.node_eq (G₁.edge_target e he) hot
  have huid : u ∈ G₁.nodes.map NodeRow.id := target_mem_of_importTargets json humem
  -- The caller is untouched, so it is no node that the run made.
  have hne₀ : u₀ ≠ e.source := by
    rintro rfl
    have hou : Outside G₁ paths u := by
      unfold Outside
      rw [← hp₀]
      exact hos₀
    exact hne (hsame hou).symm
  have hb₀ : Bindable json G₀ e := by
    refine ⟨hb.1, hb.2.1, fun ln hln hsh => ?_⟩
    rw [hsn, htn] at hsh
    have hlo : (G₀.file ln.fileId).path ∉ paths := by
      unfold Outside Index.fileOf at hos₀
      rw [hsn] at hos₀
      rw [hsh.1]
      exact hos₀
    exact hb.2.2 ln ((h.nodes ln).mp ⟨hln, hlo⟩).1 hsh
  have hbt₀ : u₀ ∈ boundTargets json G₀ e := by
    refine (mem_boundTargets json).mpr ⟨?_, hne₀⟩
    rw [hsn, htn]
    exact hone
  obtain ⟨f, hf, hk⟩ := hfixed _ ((mem_bindRows json).mpr ⟨e, he₀, trivial, hb₀, u₀, hbt₀, rfl⟩)
  have hfs : f.source = e.source := (source_eq_of_key hk).trans rfl
  have hft : f.target = u₀ := (target_eq_of_key hk).trans rfl
  by_cases hou : Outside G₁ paths u
  · -- Both ends are untouched: the edge is the same row.
    have huu := hsame hou
    have hof : Outside G₀ paths f.target := by
      rw [hft, huu]
      exact (h.node_eq huid hou).2.2
    obtain ⟨hf₁, -, -⟩ := (h.kept f).mp ⟨hf, hfs ▸ hos₀, hof⟩
    exact ⟨f, hf₁, by rw [hk, huu]⟩
  · -- The imported node is of a re-indexed file, which has `u` by its name.
    have hof : ¬ Outside G₀ paths f.target := by
      unfold Outside at hou ⊢
      rw [hft, hp₀]
      exact hou
    obtain ⟨humem₁, hid⟩ := Index.node_mem huid
    obtain ⟨e', he', hs', ht', hr', hm'⟩ := h.restored f hf (hfs ▸ hos₀) hof (G₁.node u) humem₁
      (by rw [hft]; exact hp₀.symm) (by rw [hft]; exact hn₀.symm)
    refine ⟨e', he', ?_⟩
    unfold EdgeRow.key at hk ⊢
    rw [hs', ht', hr', hm', hid, hfs]
    simp only [EdgeRow.new, Prod.mk.injEq] at hk ⊢
    exact ⟨trivial, trivial, hk.2.2.1, hk.2.2.2⟩

/-- **When the scope is no approximation.** On a state that stems from a settled one by re-indexing
files, the scoped passes leave the call edges the global ones do exactly when every bare call out of
scope, whose name its file imported as several nodes before and as the one node `u` now, has its edge
to `u` already or shares its caller with a call in scope that is bound to `u`. -/
theorem callEdges_files_eq_global_iff (h : Reindexed G₀ G₁ paths fids)
    (hfixed : bindThenPrune json G₀ .global = G₀) (names : Finset String) :
    callEdges (bindThenPrune json G₁ (.files fids names)) =
        callEdges (bindThenPrune json G₁ .global) ↔
      ∀ e ∈ G₁.edges, ¬ (PostPassScope.files fids names).Touches G₁ e → Bindable json G₁ e →
        ∀ u ∈ boundTargets json G₁ e,
          1 < (importTargets json G₀ (G₁.node e.source).fileId
            (.text (G₁.node e.target).name)).card →
          (∃ f ∈ G₁.edges, f.key = (EdgeRow.new e.source u .calls none).key) ∨
            ∃ e' ∈ G₁.edges, (PostPassScope.files fids names).Touches G₁ e' ∧
              e'.source = e.source ∧ Bindable json G₁ e' ∧ u ∈ boundTargets json G₁ e' := by
  obtain ⟨hfb, hfp⟩ := of_bindThenPrune_eq_self hfixed
  rw [scoped_eq_global_iff]
  constructor
  · rintro ⟨hbind, -⟩ e he _ hb u hu _
    rcases hbind _ ((mem_bindRows json).mpr ⟨e, he, trivial, hb, u, hu, rfl⟩) with hex | hin
    · exact .inl hex
    · right
      obtain ⟨e', he', ht', hb', u', hu', heq⟩ := (mem_bindRows json).mp hin
      simp only [EdgeRow.new, EdgeRow.mk.injEq] at heq
      exact ⟨e', he', ht', heq.1.symm, hb', heq.2.1 ▸ hu'⟩
  · intro hcond
    refine ⟨fun r hr => ?_, fun e he hc => h.touches_of_contradicted hfp he hc⟩
    obtain ⟨e, he, -, hb, u, hu, rfl⟩ := (mem_bindRows json).mp hr
    by_cases ht : (PostPassScope.files fids names).Touches G₁ e
    · exact .inr ((mem_bindRows json).mpr ⟨e, he, ht, hb, u, hu, rfl⟩)
    have hnot : ¬ ((G₁.node e.source).fileId ∈ fids ∨ (G₁.node e.target).fileId ∈ fids) := ht
    push Not at hnot
    -- both ends are out of the scope, so their files read as before
    have hos := h.outside_of_not_mem (G₁.edge_source e he) hnot.1
    have hot := h.outside_of_not_mem (G₁.edge_target e he) hnot.2
    have hpos : 0 < (importTargets json G₀ (G₁.node e.source).fileId
        (.text (G₁.node e.target).name)).card := by
      have humem : u ∈ importTargets json G₁ (G₁.node e.source).fileId
          (.text (G₁.node e.target).name) := by
        rw [((mem_boundTargets json).mp hu).1]
        exact Finset.mem_singleton_self u
      obtain ⟨u₀, hu₀, -⟩ := h.exists_importTarget_before hos humem
      exact Finset.card_pos.mpr ⟨u₀, hu₀⟩
    -- one target before the run was bound then, and the edge is still there
    by_cases hcard : (importTargets json G₀ (G₁.node e.source).fileId
        (.text (G₁.node e.target).name)).card = 1
    · exact .inl (h.exists_bound_of_unique hfb he hos hot hb hu hcard)
    · have hmany : 1 < (importTargets json G₀ (G₁.node e.source).fileId
          (.text (G₁.node e.target).name)).card := by omega
      rcases hcond e he ht hb u hu hmany with hex | ⟨e', he', ht', hs', hb', hu'⟩
      · exact .inl hex
      · exact .inr ((mem_bindRows json).mpr ⟨e', he', ht', hb', u, hu', by rw [hs']⟩)

end Reindexed

/-! ### An import that becomes unique -/

/-- `f.py` imports `x`, which `a.py` defines twice; `s` has a call bound to the `x` of `c.py`, which a
qualified `c.x()` in its code keeps. -/
def twoImported : Index where
  files := [⟨1, "f.py", some "python"⟩, ⟨2, "a.py", some "python"⟩, ⟨3, "c.py", some "python"⟩]
  nodes := [⟨1, 1, "module", "<module>", ""⟩, ⟨2, 1, "function", "s", "c.x()"⟩,
    ⟨3, 2, "function", "x", ""⟩, ⟨4, 2, "function", "x", ""⟩, ⟨5, 3, "function", "x", ""⟩]
  edges := {⟨1, 3, .imports, none, .extracted⟩, ⟨1, 4, .imports, none, .extracted⟩,
    ⟨2, 5, .calls, none, .ambiguous⟩}
  file_ids := by decide
  file_paths := by decide
  node_ids := by decide
  node_file := by decide
  edge_source := by decide
  edge_target := by decide
  edge_key := by decide

/-- `a.py` was re-indexed with one `x`. -/
def oneImported : Index where
  files := [⟨1, "f.py", some "python"⟩, ⟨2, "a.py", some "python"⟩, ⟨3, "c.py", some "python"⟩]
  nodes := [⟨1, 1, "module", "<module>", ""⟩, ⟨2, 1, "function", "s", "c.x()"⟩,
    ⟨6, 2, "function", "x", ""⟩, ⟨5, 3, "function", "x", ""⟩]
  edges := {⟨1, 6, .imports, none, .extracted⟩, ⟨2, 5, .calls, none, .ambiguous⟩}
  file_ids := by decide
  file_paths := by decide
  node_ids := by decide
  node_file := by decide
  edge_source := by decide
  edge_target := by decide
  edge_key := by decide

/-- Before the run the import of `x` was unique, and the call was bound to it. -/
def oneImportedBefore : Index where
  files := [⟨1, "f.py", some "python"⟩, ⟨2, "a.py", some "python"⟩, ⟨3, "c.py", some "python"⟩]
  nodes := [⟨1, 1, "module", "<module>", ""⟩, ⟨2, 1, "function", "s", "c.x()"⟩,
    ⟨3, 2, "function", "x", ""⟩, ⟨5, 3, "function", "x", ""⟩]
  edges := {⟨1, 3, .imports, none, .extracted⟩, ⟨2, 3, .calls, none, .inferred⟩,
    ⟨2, 5, .calls, none, .ambiguous⟩}
  file_ids := by decide
  file_paths := by decide
  node_ids := by decide
  node_file := by decide
  edge_source := by decide
  edge_target := by decide
  edge_key := by decide

/-- The run restored both edges into `a.py`. -/
def oneImportedAfter : Index where
  files := [⟨1, "f.py", some "python"⟩, ⟨2, "a.py", some "python"⟩, ⟨3, "c.py", some "python"⟩]
  nodes := [⟨1, 1, "module", "<module>", ""⟩, ⟨2, 1, "function", "s", "c.x()"⟩,
    ⟨6, 2, "function", "x", ""⟩, ⟨5, 3, "function", "x", ""⟩]
  edges := {⟨1, 6, .imports, none, .extracted⟩, ⟨2, 6, .calls, none, .extracted⟩,
    ⟨2, 5, .calls, none, .ambiguous⟩}
  file_ids := by decide
  file_paths := by decide
  node_ids := by decide
  node_file := by decide
  edge_source := by decide
  edge_target := by decide
  edge_key := by decide

/-- `Reindexed`, with its quantifiers over the rows there are. -/
theorem Reindexed.of_rows {paths : Finset String} {fids : Finset ℕ}
    (hn₀ : ∀ n ∈ G₀.nodes, (G₀.file n.fileId).path ∉ paths →
      n ∈ G₁.nodes ∧ (G₁.file n.fileId).path ∉ paths)
    (hn₁ : ∀ n ∈ G₁.nodes, (G₁.file n.fileId).path ∉ paths →
      n ∈ G₀.nodes ∧ (G₀.file n.fileId).path ∉ paths)
    (hf₀ : ∀ f ∈ G₀.files, f.path ∉ paths → f ∈ G₁.files)
    (hf₁ : ∀ f ∈ G₁.files, f.path ∉ paths → f ∈ G₀.files)
    (he₀ : ∀ e ∈ G₀.edges, Outside G₀ paths e.source → Outside G₀ paths e.target →
      e ∈ G₁.edges ∧ Outside G₁ paths e.source ∧ Outside G₁ paths e.target)
    (he₁ : ∀ e ∈ G₁.edges, Outside G₁ paths e.source → Outside G₁ paths e.target →
      e ∈ G₀.edges ∧ Outside G₀ paths e.source ∧ Outside G₀ paths e.target)
    (hrestored : ∀ e ∈ G₀.edges, Outside G₀ paths e.source → ¬ Outside G₀ paths e.target →
      ∀ t ∈ G₁.nodes, (G₁.file t.fileId).path = (G₀.fileOf e.target).path →
        t.name = (G₀.node e.target).name →
        ∃ e' ∈ G₁.edges, e'.source = e.source ∧ e'.target = t.id ∧ e'.relation = e.relation ∧
          e'.metadata = e.metadata)
    (honly : ∀ e' ∈ G₁.edges, Outside G₁ paths e'.source → ¬ Outside G₁ paths e'.target →
      ∃ e ∈ G₀.edges, e.source = e'.source ∧ e.relation = e'.relation ∧ e.metadata = e'.metadata ∧
        (G₀.fileOf e.target).path = (G₁.fileOf e'.target).path ∧
        (G₀.node e.target).name = (G₁.node e'.target).name)
    (hdropped : ∀ e ∈ G₀.edges, Outside G₀ paths e.source → ¬ Outside G₀ paths e.target →
      (∀ t ∈ G₁.nodes, (G₁.file t.fileId).path = (G₀.fileOf e.target).path →
        t.name ≠ (G₀.node e.target).name) → (G₁.node e.source).fileId ∈ fids)
    (hscope : ∀ f ∈ G₁.files, f.path ∈ paths → f.id ∈ fids) : Reindexed G₀ G₁ paths fids where
  nodes n := ⟨fun h => hn₀ n h.1 h.2, fun h => hn₁ n h.1 h.2⟩
  files f hf := ⟨fun h => hf₀ f h hf, fun h => hf₁ f h hf⟩
  kept e := ⟨fun h => he₀ e h.1 h.2.1 h.2.2, fun h => he₁ e h.1 h.2.1 h.2.2⟩
  restored := hrestored
  restored_only := honly
  dropped := hdropped
  scope := hscope

theorem bindThenPrune_eq_self_of_edges (h : (bindThenPrune json I .global).edges = I.edges) :
    bindThenPrune json I .global = I :=
  ((sameContext_bind I .global).trans (sameContext_prune _ .global)).eq_of_edges h

/-- The scope is the re-indexed file, nothing was dropped, and the scoped bind misses the edge from
`s` to the `x` that is now the only one `f.py` imports. -/
theorem scoped_bind_misses_import_become_unique :
    bindThenPrune (fun _ _ => none) twoImported .global = twoImported ∧
      Reindexed twoImported oneImported {"a.py"} {2} ∧
      callEdges (bindThenPrune (fun _ _ => none) oneImported (.files {2} ∅)) ≠
        callEdges (bindThenPrune (fun _ _ => none) oneImported .global) := by
  refine ⟨bindThenPrune_eq_self_of_edges (by decide +kernel), ?_, by decide +kernel⟩
  apply Reindexed.of_rows <;> decide +kernel

/-- Where the import was unique before, the run restored the bound edge and both scopes agree. -/
theorem scoped_bind_complete_for_unique_import :
    callEdges (bindThenPrune (fun _ _ => none) oneImportedAfter (.files {2} ∅)) =
      callEdges (bindThenPrune (fun _ _ => none) oneImportedAfter .global) := by
  have hre : Reindexed oneImportedBefore oneImportedAfter {"a.py"} {2} := by
    apply Reindexed.of_rows <;> decide +kernel
  have hfixed : bindThenPrune (fun _ _ => none) oneImportedBefore .global = oneImportedBefore :=
    bindThenPrune_eq_self_of_edges (by decide +kernel)
  exact (Reindexed.callEdges_files_eq_global_iff hre hfixed ∅).mpr (by decide +kernel)

end CodeGraph.Pipeline.Resolve
