import CodeGraph.Lib.Run
import CodeGraph.Pipeline.Correct.IndexFiles

/-!
# The ids that reach the deferred pass

`global_name_map` names rows that exist whenever a batch ends. The ids that a deferred relation holds
were rows when they were taken, and three of the four places that take them choose a file whose nodes
are final. The fourth, the recovery of an imported route handler, reads the whole name map, so it may
take a node of a file that a later batch purges (`KeepsHandlers` says when it does not).
-/

namespace CodeGraph.Pipeline.IndexFiles

open CodeGraph.Lib CodeGraph.Storage CodeGraph.Storage.Rows

variable {env : Env} {g : Graph} {s : State} {b : Batch} {rest batches : List Batch} {id : ℕ}
  {deletePaths : List String}

/-! ### The path rule -/

/-- A path that a caller is not kept from for being a test. -/
def Admitted (caller : String) (paths : List String) (path : String) : Prop :=
  isTestPath caller ∨ (∀ q ∈ paths, isTestPath q) ∨ ¬ isTestPath path

/-- `refine_ambiguous_targets` as a rule on paths: the longest prefix shared with the caller wins. -/
def Best (caller : String) (paths : List String) (path : String) : Prop :=
  Admitted caller paths path ∧
    ∀ q ∈ paths, Admitted caller paths q → prefixLen caller q ≤ prefixLen caller path

theorem Best.of_mem_iff {caller path : String} {ps qs : List String} (h : ∀ p, p ∈ ps ↔ p ∈ qs)
    (hbest : Best caller ps path) : Best caller qs path := by
  have hsame : ∀ p, Admitted caller qs p ↔ Admitted caller ps p := by
    intro p
    simp only [Admitted, h]
  refine ⟨(hsame path).mpr hbest.1, ?_⟩
  intro q hq hadm
  exact hbest.2 q ((h q).mpr hq) ((hsame q).mp hadm)

theorem mem_refineAmbiguousTargets_iff {candidates : List ℕ} {caller : String}
    {pathOf : ℕ → String} :
    id ∈ refineAmbiguousTargets candidates caller pathOf ↔
      id ∈ candidates ∧ Best caller (candidates.map pathOf) (pathOf id) := by
  unfold refineAmbiguousTargets
  split_ifs with hlen
  · -- One candidate is the best of itself.
    refine ⟨fun hid => ⟨hid, ?_⟩, And.left⟩
    have hall : ∀ q ∈ candidates.map pathOf, q = pathOf id := by
      intro q hq
      obtain ⟨j, hj, rfl⟩ := List.mem_map.mp hq
      match candidates, hlen, hid, hj with
      | [i], _, hid, hj => rw [List.mem_singleton.mp hj, List.mem_singleton.mp hid]
    refine ⟨?_, fun q hq _ => (hall q hq) ▸ le_rfl⟩
    by_cases htest : isTestPath (pathOf id)
    · exact .inr (.inl fun q hq => (hall q hq) ▸ htest)
    · exact .inr (.inr htest)
  · dsimp only
    set pool := if isTestPath caller ∨ (candidates.filter fun id => !isTestPath (pathOf id)) = []
      then candidates else candidates.filter fun id => !isTestPath (pathOf id) with hpool
    have hmem : ∀ j, j ∈ pool ↔ j ∈ candidates ∧ Admitted caller (candidates.map pathOf) (pathOf j) := by
      intro j
      have hnone : (candidates.filter fun id => !isTestPath (pathOf id)) = [] ↔
          ∀ q ∈ candidates.map pathOf, isTestPath q := by
        simp [List.filter_eq_nil_iff]
      rw [hpool, Admitted, ← hnone]
      split_ifs with hall
      · tauto
      · simp only [List.mem_filter, Bool.not_eq_true', Bool.not_eq_true]
        tauto
    rw [List.mem_filter, hmem, decide_eq_true_eq, and_assoc, Best]
    refine and_congr_right fun hid => and_congr_right fun hadm => ?_
    have hin : prefixLen caller (pathOf id) ∈ pool.map fun id => prefixLen caller (pathOf id) :=
      List.mem_map.mpr ⟨id, (hmem id).mpr ⟨hid, hadm⟩, rfl⟩
    rw [eq_foldl_max_iff hin]
    constructor
    · intro h q hq hadmq
      obtain ⟨j, hj, rfl⟩ := List.mem_map.mp hq
      exact h _ (List.mem_map.mpr ⟨j, (hmem j).mpr ⟨hj, hadmq⟩, rfl⟩)
    · intro h m hm
      obtain ⟨j, hj, rfl⟩ := List.mem_map.mp hm
      obtain ⟨hj, hadmj⟩ := (hmem j).mp hj
      exact h _ (List.mem_map.mpr ⟨j, hj, rfl⟩) hadmj

/-- An entry that a recovery may choose. -/
def Candidate (pf : FileParsed) (rel : ParsedRelation) (n : NameEntry) : Prop :=
  n.name = rel.sourceName ∧ n.language = some pf.language

/-- The recovered handlers are the candidates with the best paths. -/
theorem mem_recoverHandler_iff {pool : List NameEntry} {pf : FileParsed} {rel : ParsedRelation}
    (hpool : ∀ n ∈ pool, ∀ n' ∈ pool, n.id = n'.id → n.path = n'.path) {paths : List String}
    (hpaths : ∀ p, p ∈ paths ↔ ∃ n ∈ pool, Candidate pf rel n ∧ n.path = p) :
    id ∈ recoverHandler pool pf rel ↔
      ∃ n ∈ pool, n.id = id ∧ Candidate pf rel n ∧ Best pf.relPath paths n.path := by
  have hfind : ∀ n ∈ pool, ((pool.find? fun m => m.id == n.id).map NameEntry.path).getD "" = n.path := by
    intro n hn
    have hsome : (pool.find? fun m => m.id == n.id).isSome := by
      rw [List.find?_isSome]
      exact ⟨n, hn, by simp⟩
    obtain ⟨m, hm⟩ := Option.isSome_iff_exists.mp hsome
    have hid : m.id = n.id := by simpa using List.find?_some hm
    rw [hm]
    exact hpool m (List.mem_of_find?_eq_some hm) n hn hid
  have hcand : ∀ i, i ∈ ((pool.filter fun n => n.name = rel.sourceName ∧
      n.language = some pf.language).map NameEntry.id).dedup.mergeSort (· ≤ ·) ↔
      ∃ n ∈ pool, Candidate pf rel n ∧ n.id = i := by
    intro i
    rw [List.mem_mergeSort, List.mem_dedup]
    simp only [List.mem_map, List.mem_filter, decide_eq_true_eq, and_assoc, Candidate]
  unfold recoverHandler
  dsimp only
  rw [mem_refineAmbiguousTargets_iff, hcand]
  -- The paths of the candidate ids are the paths of the candidates.
  have hmap : ∀ p, p ∈ (((pool.filter fun n => n.name = rel.sourceName ∧
      n.language = some pf.language).map NameEntry.id).dedup.mergeSort (· ≤ ·)).map
        (fun i => ((pool.find? fun m => m.id == i).map NameEntry.path).getD "") ↔ p ∈ paths := by
    intro p
    rw [hpaths, List.mem_map]
    constructor
    · rintro ⟨i, hi, rfl⟩
      obtain ⟨n, hn, hc, rfl⟩ := (hcand i).mp hi
      exact ⟨n, hn, hc, (hfind n hn).symm⟩
    · rintro ⟨n, hn, hc, rfl⟩
      exact ⟨n.id, (hcand n.id).mpr ⟨n, hn, hc, rfl⟩, hfind n hn⟩
  constructor
  · rintro ⟨⟨n, hn, hc, rfl⟩, hbest⟩
    rw [hfind n hn] at hbest
    exact ⟨n, hn, rfl, hc, hbest.of_mem_iff hmap⟩
  · rintro ⟨n, hn, rfl, hc, hbest⟩
    refine ⟨⟨n, hn, hc, rfl⟩, ?_⟩
    rw [hfind n hn]
    exact hbest.of_mem_iff fun p => (hmap p).symm

/-! ### Routes with an imported handler -/

/-- The file defines neither the handler of the route nor the name the route leads to. -/
def ImportedRoute (env : Env) (f : FilePreParsed) (rel : ParsedRelation) : Prop :=
  rel.relation = .routesTo ∧
    (∀ n ∈ moduleNode :: f.nodes,
      n.name ≠ rel.sourceName ∧ n.qualifiedName ≠ some rel.sourceName) ∧
    (env.isPackageBound rel.metadata ∨ ∀ n ∈ moduleNode :: f.nodes, n.name ≠ rel.targetName)

theorem narrow_eq_nil_iff {named : List (ℕ × ParsedNode)} {line : Option ℕ} :
    narrow named line = [] ↔ named = [] := by
  unfold narrow
  split_ifs with hlen
  · split
    · constructor
      · intro h
        cases h
      · rintro rfl
        cases hlen
    · rfl
  · rfl

theorem recovers_iff {f : FilePreParsed} {pf : FileParsed} (h : ParsedFrom f pf)
    {rel : ParsedRelation} : Recovers env pf rel ↔ ImportedRoute env f rel := by
  have hnodes : ∀ P : ParsedNode → Prop,
      (∀ n ∈ moduleNode :: f.nodes, P n) ↔ ∀ x ∈ pf.nodes, P x.2 := by
    intro P
    rw [← h.parsedNodes, List.forall_mem_map]
  unfold Recovers ImportedRoute
  refine and_congr_right fun hroute => and_congr ?_ ?_
  · rw [hnodes fun n => n.name ≠ rel.sourceName ∧ n.qualifiedName ≠ some rel.sourceName]
    unfold sourceIds
    simp only [List.map_eq_nil_iff, narrow_eq_nil_iff, List.filter_eq_nil_iff, decide_eq_true_eq,
      hroute]
    simp
  · unfold sameFileTargets
    split_ifs with hbound
    · simp [hbound]
    · rw [hnodes fun n => n.name ≠ rel.targetName]
      simp [List.filter_eq_nil_iff, hbound]

/-! ### The condition -/

/-- The paths among which the recovery of a handler chooses. -/
def candidatePaths (s : State) (b : Batch) (f : FilePreParsed) (rel : ParsedRelation) :
    List String :=
  ((b.parsed.filter fun f' => f'.language = f.language).flatMap fun f' =>
    ((moduleNode :: f'.nodes).filter fun n => n.name = rel.sourceName).map fun _ => f'.relPath) ++
  ((otherEntries s b).filter fun n =>
    n.name = rel.sourceName ∧ n.language = some f.language).map NameEntry.path

/-- No route of the batch takes its handler from a file that a later batch purges. -/
def KeepsHandlers (env : Env) (s : State) (b : Batch) (rest : List Batch) : Prop :=
  ∀ f ∈ b.parsed, ∀ rel ∈ f.relations, ImportedRoute env f rel →
    ∀ n ∈ s.nameMap, n.name = rel.sourceName → n.language = some f.language →
      n.path ∈ purged rest → ¬ Best f.relPath (candidatePaths s b f rel) n.path

theorem mem_candidatePaths {f : FilePreParsed} {pf : FileParsed} (hf : ParsedFrom f pf)
    (hins : BatchInserted env (skipped env s b).1 b.parsed (inserted env s b))
    {rel : ParsedRelation} {p : String} :
    p ∈ candidatePaths s b f rel ↔
      ∃ n ∈ ownEntries env s b ++ otherEntries s b, Candidate pf rel n ∧ n.path = p := by
  unfold candidatePaths Candidate
  rw [List.mem_append, hf.language]
  constructor
  · rintro (hp | hp)
    · -- a node that the batch parsed has the row that it inserted
      obtain ⟨f', hf', hp⟩ := List.mem_flatMap.mp hp
      obtain ⟨hf', hlang⟩ := List.mem_filter.mp hf'
      obtain ⟨n, hn, rfl⟩ := List.mem_map.mp hp
      obtain ⟨hn, hname⟩ := List.mem_filter.mp hn
      obtain ⟨pf', hpf', hfrom⟩ := hins.all f' hf'
      rw [← hfrom.parsedNodes] at hn
      obtain ⟨x, hx, rfl⟩ := List.mem_map.mp hn
      refine ⟨⟨x.2.name, x.1, pf'.relPath, some pf'.language⟩, List.mem_append_left _ ?_,
        ⟨of_decide_eq_true hname, ?_⟩, hfrom.relPath⟩
      · exact List.mem_flatMap.mpr ⟨pf', hpf', List.mem_map.mpr ⟨x, hx, rfl⟩⟩
      · rw [hfrom.language, of_decide_eq_true hlang]
    · obtain ⟨n, hn, rfl⟩ := List.mem_map.mp hp
      obtain ⟨hn, hc⟩ := List.mem_filter.mp hn
      exact ⟨n, List.mem_append_right _ hn, of_decide_eq_true hc, rfl⟩
  · rintro ⟨n, hn, hc, rfl⟩
    rcases List.mem_append.mp hn with hn | hn
    · obtain ⟨pf', hpf', hn⟩ := List.mem_flatMap.mp hn
      obtain ⟨x, hx, rfl⟩ := List.mem_map.mp hn
      obtain ⟨f', hf', hfrom⟩ := hins.parsed pf' hpf'
      have hlang : f'.language = f.language := by
        rw [← hfrom.language]
        exact Option.some_inj.mp hc.2
      have hmem : x.2 ∈ moduleNode :: f'.nodes := by
        rw [← hfrom.parsedNodes]
        exact List.mem_map.mpr ⟨x, hx, rfl⟩
      refine .inl (List.mem_flatMap.mpr ⟨f', List.mem_filter.mpr ⟨hf', decide_eq_true hlang⟩, ?_⟩)
      exact List.mem_map.mpr ⟨x.2, List.mem_filter.mpr ⟨hmem, decide_eq_true hc.1⟩,
        hfrom.relPath.symm⟩
    · exact .inr (List.mem_map.mpr ⟨n, List.mem_filter.mpr ⟨hn, decide_eq_true hc⟩, rfl⟩)

/-- What a route with an imported handler takes from the pool of its batch. -/
theorem mem_recoverHandler_pool (h : Phases env s b) {f : FilePreParsed} {pf : FileParsed}
    (hf : ParsedFrom f pf) {rel : ParsedRelation} :
    id ∈ recoverHandler (ownEntries env s b ++ otherEntries s b) pf rel ↔
      ∃ n ∈ ownEntries env s b ++ otherEntries s b, n.id = id ∧ Candidate pf rel n ∧
        Best f.relPath (candidatePaths s b f rel) n.path := by
  rw [← hf.relPath]
  refine mem_recoverHandler_iff ?_ fun p => mem_candidatePaths hf h.inserts
  intro n hn n' hn' hid
  obtain ⟨r, hr, hrid, -, hrp⟩ := h.pool n hn
  obtain ⟨r', hr', hrid', -, hrp'⟩ := h.pool n' hn'
  have hrow : r = r' := node_unique h.inserts.wellFormed hr hr' (by rw [hrid, hrid', hid])
  rw [← hrp, ← hrp', hrow]

/-! ### What is deferred before the batch resolves its relations -/

theorem mem_buffer_deferred (hg : WellFormed g) {path : String} {deleteSet : List String}
    {deferred : List DeferredRelation} {d : DeferredRelation}
    (hd : d ∈ (bufferInboundBeforeNodePurge env deleteSet (g, deferred) path).2) :
    d ∈ deferred ∨ ∃ n ∈ g.nodes, d.sourceIds = [n.id] ∧ n.path ∉ env.run ∧ n.path ∉ deleteSet := by
  rcases List.mem_append.mp hd with hd | hd
  · exact .inl hd
  · obtain ⟨x, hx, rfl⟩ := List.mem_map.mp hd
    obtain ⟨hx, hcond⟩ := List.mem_filter.mp hx
    obtain ⟨-, -, hrun, hdel⟩ := of_decide_eq_true hcond
    exact .inr ⟨x.2.2.1, (mem_inboundKnown hg hx).2.2.2, rfl, hrun, hdel⟩

theorem mem_skipped_deferred (hg : WellFormed s.graph) {d : DeferredRelation}
    (hd : d ∈ (skipped env s b).2) :
    d ∈ s.deferred ∨ ∃ n ∈ s.graph.nodes, d.sourceIds = [n.id] ∧ n.path ∉ env.run := by
  have hfold : WellFormed (skipped env s b).1 ∧ (skipped env s b).1.nodes ⊆ s.graph.nodes ∧
      ∀ d ∈ (skipped env s b).2,
        d ∈ s.deferred ∨ ∃ n ∈ s.graph.nodes, d.sourceIds = [n.id] ∧ n.path ∉ env.run := by
    refine List.foldlRecOn (motive := fun r : Graph × List DeferredRelation =>
      WellFormed r.1 ∧ r.1.nodes ⊆ s.graph.nodes ∧ ∀ d ∈ r.2,
        d ∈ s.deferred ∨ ∃ n ∈ s.graph.nodes, d.sourceIds = [n.id] ∧ n.path ∉ env.run) _ _
      ⟨hg, List.Subset.refl _, fun d hd => .inl hd⟩ ?_
    rintro ⟨g₁, deferred₁⟩ ⟨hw, hsub, hdef⟩ file -
    obtain ⟨hw', hnodes⟩ := wellFormed_skipFile env hw deferred₁ file
    refine ⟨hw', fun n hn => hsub ((hnodes n).mp hn).1, ?_⟩
    intro d hd
    have hup : WellFormed (g₁.upsertFile file.1 (some file.2)) := hw.upsertFile
    rcases mem_buffer_deferred hup hd with hd | ⟨n, hn, hid, hrun, -⟩
    · exact hdef d hd
    · exact .inr ⟨n, hsub hn, hid, hrun⟩
  exact hfold.2.2 d hd

/-- Before the first batch, a deferred id belongs to a file that is neither of the run nor deleted. -/
theorem mem_start_deferred (hg : WellFormed g) {d : DeferredRelation}
    (hd : d ∈ (start env deletePaths g).deferred) (hid : id ∈ d.sourceIds) :
    ∃ n ∈ (start env deletePaths g).graph.nodes, n.id = id ∧ n.path ∉ env.run := by
  have hset := wellFormed_settleForeignRoutes env hg deletePaths
  set g₁ := (settleForeignRoutes env deletePaths g).1 with hg₁
  set present := deletePaths.filter fun path => (g₁.files path).isSome
  -- A settled route is deferred without ids.
  have hroutes : ∀ d ∈ (settleForeignRoutes env deletePaths g).2, d.sourceIds = [] := by
    intro d hd
    obtain ⟨r, -, hr⟩ := List.mem_filterMap.mp hd
    obtain ⟨language, -, rfl⟩ := Option.map_eq_some_iff.mp hr
    rfl
  have hbuf : ∀ d ∈ (present.foldl (bufferInboundBeforeNodePurge env deletePaths)
      (settleForeignRoutes env deletePaths g)).2, ∀ id ∈ d.sourceIds,
      ∃ n ∈ g₁.nodes, n.id = id ∧ n.path ∉ env.run ∧ n.path ∉ deletePaths := by
    refine (List.foldlRecOn (motive := fun r : Graph × List DeferredRelation =>
      (WellFormed r.1 ∧ SameRows g₁ r.1) ∧ ∀ d ∈ r.2, ∀ id ∈ d.sourceIds,
        ∃ n ∈ g₁.nodes, n.id = id ∧ n.path ∉ env.run ∧ n.path ∉ deletePaths) _ _
      ⟨⟨hset, SameRows.refl⟩, ?_⟩ ?_).2
    · intro d hd id hid
      rw [hroutes d hd] at hid
      cases hid
    · rintro ⟨g₂, deferred₂⟩ ⟨⟨hw, hsame⟩, hdef⟩ path -
      obtain ⟨hw', hsame', -⟩ := wellFormed_buffer env hw path deletePaths deferred₂
      refine ⟨⟨hw', hsame.trans hsame'⟩, ?_⟩
      intro d hd id hid
      rcases mem_buffer_deferred hw hd with hd | ⟨n, hn, hids, hrun, hdel⟩
      · exact hdef d hd id hid
      · rw [hids, List.mem_singleton] at hid
        exact ⟨n, hsame.nodes ▸ hn, hid.symm, hrun, hdel⟩
  obtain ⟨n, hn, hnid, hrun, hdel⟩ := hbuf d hd id hid
  obtain ⟨hw, hsame, -⟩ := wellFormed_bufferAll env hset deletePaths present
    (settleForeignRoutes env deletePaths g).2
  refine ⟨n, ((wellFormed_deleteFiles hw deletePaths).2 n).mpr ⟨?_, hdel⟩, hnid, hrun⟩
  rw [hsame.nodes]
  exact hn

/-! ### One batch -/

/-- Every deferred id is a row of a file that no batch to come purges. -/
def Live (s : State) (rest : List Batch) : Prop :=
  ∀ d ∈ s.deferred, ∀ id ∈ d.sourceIds, ∃ n ∈ s.graph.nodes, n.id = id ∧ n.path ∉ purged rest

/-- **A batch that keeps its handlers defers only ids that stay.** -/
theorem live_batchStep (hfresh : ∀ l, env.alloc l ∉ l) (hu : Underway env s (b :: rest))
    (hlive : Live s (b :: rest)) (hkeep : KeepsHandlers env s b rest) :
    Live (batchStep env s b) rest := by
  have h := phases hfresh hu.inv hu.paths_nodup
  have hown : ∀ pf ∈ (inserted env s b).2.1, pf.relPath ∈ b.paths := by
    intro pf hpf
    obtain ⟨f, hf, hfrom⟩ := h.inserts.parsed pf hpf
    rw [hfrom.relPath]
    exact List.mem_append_left _ (List.mem_map.mpr ⟨f, hf, rfl⟩)
  have hstay : ∀ p, p ∉ rest.flatMap Batch.files → p ∉ purged rest :=
    fun p hp hmem => hp (purged_subset_files hmem)
  -- A row that Phase 1b leaves is there at the end of the batch.
  suffices hrow : ∀ d ∈ (restored env s b).deferred, ∀ id ∈ d.sourceIds,
      ∃ n ∈ (inserted env s b).1.nodes, n.id = id ∧ n.path ∉ purged rest by
    intro d hd id hid
    obtain ⟨n, hn, hrow⟩ := hrow d hd id hid
    exact ⟨n, h.nodes.1 hn, hrow⟩
  have hkept : ∀ n ∈ s.graph.nodes, n.path ∉ purged (b :: rest) →
      n ∈ (inserted env s b).1.nodes ∧ n.path ∉ purged rest := by
    intro n hn hp
    rw [purged, List.flatMap_cons, List.mem_append, not_or] at hp
    exact ⟨mem_inserted_of_other h.inserts h.skips hn hp.1, hp.2⟩
  intro d hd id hid
  rcases h.restores.deferred d hd with hd | ⟨x, hx, hids, hbatch, hdone⟩
  · rcases h.resolves.deferred d hd with hd | ⟨pf, hpf, hids | ⟨rel, hrel, hrec, hids⟩⟩
    · rcases mem_skipped_deferred hu.inv.wellFormed hd with hd | ⟨n, hn, hids, hrun⟩
      · obtain ⟨n, hn, hnid, hp⟩ := hlive d hd id hid
        obtain ⟨hin, hp⟩ := hkept n hn hp
        exact ⟨n, hin, hnid, hp⟩
      · rw [hids, List.mem_singleton] at hid
        obtain ⟨hin, hp⟩ := hkept n hn fun hp => hrun (hu.run _ (purged_subset_files hp))
        exact ⟨n, hin, hid.symm, hp⟩
    · obtain ⟨x, hx, rfl⟩ := hids id hid
      obtain ⟨n, hn, hnid, -, hp⟩ := h.inserts.rows pf hpf x hx
      exact ⟨n, hn, hnid, hp ▸ hstay _ (hu.not_mem_rest (hown pf hpf))⟩
    · obtain ⟨f, hf, hfrom⟩ := h.inserts.parsed pf hpf
      rw [hids] at hid
      obtain ⟨n, hn, hnid, hcand, hbest⟩ := (mem_recoverHandler_pool h hfrom).mp hid
      obtain ⟨r, hr, hrid, -, hrp⟩ := h.pool n hn
      refine ⟨r, hr, hrid.trans hnid, ?_⟩
      rw [hrp]
      rcases List.mem_append.mp hn with hn | hn
      · obtain ⟨pf', hpf', hn⟩ := List.mem_flatMap.mp hn
        obtain ⟨x, -, rfl⟩ := List.mem_map.mp hn
        exact hstay _ (hu.not_mem_rest (hown pf' hpf'))
      · intro hlater
        rw [Candidate, hfrom.language] at hcand
        exact hkeep f hf rel (hfrom.relations ▸ hrel) ((recovers_iff hfrom).mp hrec) n
          (List.mem_filter.mp hn).1 hcand.1 hcand.2 hlater hbest
  · rw [hids, List.mem_singleton] at hid
    rw [h.inserts.paths] at hbatch
    refine ⟨x.2.1, (h.inserts.saved x hx).resolve_left hbatch, hid.symm, ?_⟩
    by_cases hrun : x.2.1.path ∈ env.run
    · intro hp
      refine hu.done _ (hdone hrun) ?_
      rw [List.flatMap_cons]
      exact List.mem_append_right _ (purged_subset_files hp)
    · intro hp
      apply hrun
      apply hu.run
      rw [List.flatMap_cons]
      exact List.mem_append_right _ (purged_subset_files hp)

/-! ### The condition is needed -/

/-- What is deferred stays deferred. -/
theorem deferred_subset_batchStep (hfresh : ∀ l, env.alloc l ∉ l) (hs : Inv s) (hn : b.paths.Nodup) :
    s.deferred ⊆ (batchStep env s b).deferred := by
  have h := phases hfresh hs hn
  refine List.Subset.trans ?_ (List.Subset.trans h.resolves.kept h.restores.kept)
  refine List.foldlRecOn (motive := fun r : Graph × List DeferredRelation => s.deferred ⊆ r.2) _ _
    (List.Subset.refl _) ?_
  intro r hr file _ d hd
  exact List.mem_append_left _ (hr hd)

/-- A route whose handler is recovered is deferred with what the recovery found. -/
theorem mem_resolved_deferred {pool : List NameEntry} {pfs : List FileParsed} {pf : FileParsed}
    (hpf : pf ∈ pfs) {rel : ParsedRelation} (hrel : rel ∈ pf.relations) (h : Recovers env pf rel)
    (r : Resolving) :
    DeferredRelation.of (recoverHandler pool pf rel) rel pf none ∈
      (resolveBatchRelations env pool pfs r).deferred := by
  -- no relation takes back what was deferred
  have hkeep : ∀ (pf' : FileParsed) (rel' : ParsedRelation) (r : Resolving),
      r.deferred ⊆ (resolveRelation env pool pf' r rel').deferred := by
    intro pf' rel' r
    unfold resolveRelation
    by_cases hroute : rel'.relation = .routesTo
    · simp only [if_pos hroute]
      split_ifs <;> first
        | exact List.subset_append_left _ _
        | exact List.Subset.refl _
    · simp only [if_neg hroute]
      cases env.chain r.graph pool pf' rel' with
      | defer nsFile => exact List.subset_append_left _ _
      | bind targets => exact List.Subset.refl _
      | externalModule module => exact List.Subset.refl _
      | unresolvedExternal => exact List.Subset.refl _
      | drop => exact List.Subset.refl _
  refine foldl_establishes (I := fun _ => True) (P := fun r : Resolving =>
    DeferredRelation.of (recoverHandler pool pf rel) rel pf none ∈ r.deferred)
    (fun _ _ _ _ => trivial) ?_ hpf ?_ trivial
  · intro r pf' _ hr
    exact List.foldlRecOn (motive := fun r : Resolving => _ ∈ r.deferred) _ _ hr
      fun r hr rel' _ => hkeep pf' rel' r hr
  · intro r _
    refine foldl_establishes (I := fun _ => True) (P := fun r : Resolving =>
      DeferredRelation.of (recoverHandler pool pf rel) rel pf none ∈ r.deferred)
      (fun _ _ _ _ => trivial) (fun r rel' _ hr => hkeep pf rel' r hr) hrel ?_ trivial
    intro r _
    obtain ⟨hroute, hlocal, hsame⟩ := h
    unfold resolveRelation
    simp only [hroute, hlocal, hsame, if_true, ite_self]
    exact List.mem_append_right _ List.mem_cons_self

/-- A batch leaves the rows of other files and adds rows with ids from `alloc`. -/
theorem mem_batchStep_nodes (h : Phases env s b) {n : Node}
    (hn : n ∈ (batchStep env s b).graph.nodes) :
    n ∈ s.graph.nodes ∧ n.path ∉ b.paths ∨ ∃ l, n.id = env.alloc l := by
  rcases h.nodes.2 hn with hn | hl
  · rcases h.inserts.only n hn with ⟨hn, hp⟩ | ⟨-, hl⟩
    · obtain ⟨hn, hp'⟩ := (h.skips n).mp hn
      refine .inl ⟨hn, ?_⟩
      rw [Batch.paths, List.mem_append, not_or]
      exact ⟨hp, hp'⟩
    · exact .inr hl
  · exact .inr hl

section NoReuse

variable (hfresh : ∀ l, env.alloc l ∉ l) (hold : ∀ l, env.alloc l ∉ g.ids)

include hfresh hold

/-- A prior id that is gone stays gone. -/
theorem gone_foldl (hid : id ∈ g.ids) (hu : Underway env s batches) (hgone : id ∉ s.graph.ids) :
    id ∉ (batches.foldl (batchStep env) s).graph.ids := by
  induction batches generalizing s with
  | nil => exact hgone
  | cons b rest ih =>
    refine ih (underway_batchStep hfresh hu) ?_
    intro hmem
    obtain ⟨n, hn, rfl⟩ := mem_ids.mp hmem
    rcases mem_batchStep_nodes (phases hfresh hu.inv hu.paths_nodup) hn with ⟨hn, -⟩ | ⟨l, hl⟩
    · exact hgone (mem_ids.mpr ⟨n, hn, rfl⟩)
    · exact hold l (hl ▸ hid)

/-- A prior row of a file that is purged later is gone at the end. -/
theorem purged_foldl {r : Node} (hid : r.id ∈ g.ids) (hu : Underway env s batches)
    (hr : r ∈ s.graph.nodes) (hp : r.path ∈ purged batches) :
    r.id ∉ (batches.foldl (batchStep env) s).graph.ids := by
  induction batches generalizing s with
  | nil => cases hp
  | cons b rest ih =>
    have h := phases hfresh hu.inv hu.paths_nodup
    rw [purged, List.flatMap_cons, List.mem_append] at hp
    by_cases hb : r.path ∈ b.paths
    · rw [List.foldl_cons]
      refine gone_foldl hfresh hold hid (underway_batchStep hfresh hu) ?_
      intro hmem
      obtain ⟨n, hn, hnid⟩ := mem_ids.mp hmem
      rcases mem_batchStep_nodes h hn with ⟨hn, hnp⟩ | ⟨l, hl⟩
      · exact hnp (node_unique hu.inv.wellFormed hn hr hnid ▸ hb)
      · exact hold l (hl ▸ hnid ▸ hid)
    · refine ih (underway_batchStep hfresh hu) ?_ (hp.resolve_left hb)
      exact h.nodes.1 (mem_inserted_of_other h.inserts h.skips hr hb)

/-- Where an id that a handler was recovered from is purged later, it reaches the deferred pass dead. -/
theorem keepsHandlers_of_live (hu : Underway env s (b :: rest))
    (hprior : ∀ n ∈ s.nameMap, n.path ∈ purged rest → n.id ∈ g.ids)
    (hlive : ∀ d ∈ ((b :: rest).foldl (batchStep env) s).deferred, ∀ id ∈ d.sourceIds,
      id ∈ ((b :: rest).foldl (batchStep env) s).graph.ids) : KeepsHandlers env s b rest := by
  intro f hf rel hrel himp n hn hname hlang hp hbest
  have h := phases hfresh hu.inv hu.paths_nodup
  have hother : n.path ∉ b.paths := fun hb => hu.not_mem_rest hb (purged_subset_files hp)
  have hpool : n ∈ ownEntries env s b ++ otherEntries s b :=
    List.mem_append_right _ (List.mem_filter.mpr ⟨hn, decide_eq_true hother⟩)
  obtain ⟨pf, hpf, hfrom⟩ := h.inserts.all f hf
  have hrec : n.id ∈ recoverHandler (ownEntries env s b ++ otherEntries s b) pf rel := by
    refine (mem_recoverHandler_pool h hfrom).mpr ⟨n, hpool, rfl, ⟨hname, ?_⟩, hbest⟩
    rw [hlang, hfrom.language]
  have hdef : DeferredRelation.of (recoverHandler (ownEntries env s b ++ otherEntries s b) pf rel)
      rel pf none ∈ ((b :: rest).foldl (batchStep env) s).deferred := by
    refine (foldl_invariant (I := fun s' rest' => Underway env s' rest' ∧
      (batchStep env s b).deferred ⊆ s'.deferred) ?_
      ⟨underway_batchStep hfresh hu, List.Subset.refl _⟩).2
      (h.restores.kept (mem_resolved_deferred hpf (hfrom.relations ▸ hrel)
        ((recovers_iff hfrom).mpr himp) _))
    rintro s' b' rest' ⟨hu', hsub⟩
    exact ⟨underway_batchStep hfresh hu',
      List.Subset.trans hsub (deferred_subset_batchStep hfresh hu'.inv hu'.paths_nodup)⟩
  -- The row behind the entry is purged by the batches to come.
  obtain ⟨r, hr, hrid, -, hrp⟩ := hu.inv.names n hn
  have hdead : r.id ∉ (rest.foldl (batchStep env) (batchStep env s b)).graph.ids := by
    refine purged_foldl hfresh hold (hrid ▸ hprior n hn hp) (underway_batchStep hfresh hu) ?_
      (hrp ▸ hp)
    exact h.nodes.1 (mem_inserted_of_other h.inserts h.skips hr (hrp ▸ hother))
  exact hdead (hrid ▸ hlive _ hdef n.id hrec)

/-- The name map has prior ids only for the files still to come. -/
theorem allFold_keepsHandlers (hu : Underway env s batches)
    (hprior : ∀ n ∈ s.nameMap, n.path ∈ purged batches → n.id ∈ g.ids)
    (hlive : ∀ d ∈ (batches.foldl (batchStep env) s).deferred, ∀ id ∈ d.sourceIds,
      id ∈ (batches.foldl (batchStep env) s).graph.ids) :
    AllFold (batchStep env) (KeepsHandlers env) s batches := by
  induction batches generalizing s with
  | nil => trivial
  | cons b rest ih =>
    have hcons : ∀ p ∈ purged rest, p ∈ purged (b :: rest) := by
      intro p hp
      rw [purged, List.flatMap_cons]
      exact List.mem_append_right _ hp
    refine ⟨keepsHandlers_of_live hfresh hold hu (fun n hn hp => hprior n hn (hcons _ hp)) hlive,
      ih (underway_batchStep hfresh hu) ?_ hlive⟩
    intro n hn hp
    rcases List.mem_append.mp hn with hn | hn
    · exact hprior n (List.mem_filter.mp hn).1 (hcons _ hp)
    · obtain ⟨pf, hpf, hn⟩ := List.mem_flatMap.mp hn
      obtain ⟨x, -, rfl⟩ := List.mem_map.mp hn
      obtain ⟨f, hf, hfrom⟩ := (phases hfresh hu.inv hu.paths_nodup).inserts.parsed pf hpf
      have hown : pf.relPath ∈ b.paths := by
        rw [hfrom.relPath]
        exact List.mem_append_left _ (List.mem_map.mpr ⟨f, hf, rfl⟩)
      exact absurd (purged_subset_files hp) (hu.not_mem_rest hown)

end NoReuse

/-! ### Every run -/

/-- Every deferred id is a row. -/
def AllLive (s : State) : Prop := ∀ d ∈ s.deferred, ∀ id ∈ d.sourceIds, id ∈ s.graph.ids

/-- **The name map is sound when the deferred pass starts.** Every deferred id is a row too when no
batch recovers a handler from a file that a later one purges, and only then, unless a prior id is
handed out again. -/
theorem deferred_ids_live (hfresh : ∀ l, env.alloc l ∉ l) (hg : WellFormed g)
    (hplan : Planned env batches) :
    (∀ n ∈ (indexFiles env deletePaths g batches).nameMap,
      NameOK (indexFiles env deletePaths g batches).graph n) ∧
    (AllFold (batchStep env) (KeepsHandlers env) (start env deletePaths g) batches →
      AllLive (indexFiles env deletePaths g batches)) ∧
    ((∀ l, env.alloc l ∉ g.ids) → AllLive (indexFiles env deletePaths g batches) →
      AllFold (batchStep env) (KeepsHandlers env) (start env deletePaths g) batches) := by
  have hu : Underway env (start env deletePaths g) batches := underway_start hg hplan
  refine ⟨?_, ?_, ?_⟩
  · exact (foldl_invariant (I := fun s rest => Underway env s rest)
      (fun h => underway_batchStep hfresh h) hu).inv.names
  · intro hkeep d hd id hid
    have hlive : Live (start env deletePaths g) batches := by
      intro d hd id hid
      obtain ⟨n, hn, hnid, hrun⟩ := mem_start_deferred hg hd hid
      exact ⟨n, hn, hnid, fun hp => hrun ((hplan.run _).mpr (purged_subset_files hp))⟩
    obtain ⟨n, hn, hnid, -⟩ := (AllFold.invariant
      (I := fun s rest => Underway env s rest ∧ Live s rest)
      (fun h hk => ⟨underway_batchStep hfresh h.1, live_batchStep hfresh h.1 h.2 hk⟩)
      ⟨hu, hlive⟩ hkeep).2 d hd id hid
    exact mem_ids.mpr ⟨n, hn, hnid⟩
  · intro hold hlive
    refine allFold_keepsHandlers hfresh hold hu ?_ hlive
    intro n hn _
    obtain ⟨r, hr, rfl⟩ := List.mem_map.mp hn
    exact mem_ids.mpr ⟨r, start_nodes_subset hg hr, rfl⟩

/-! A run over a file of routes and the file of their handlers, each in a batch of its own. -/

def routesFile : FilePreParsed :=
  ⟨"routes.js", "javascript", [], [⟨"getUser", "getUser", .routesTo,
    some "\x7b\"method\":\"GET\",\"path\":\"/users\"\x7d", none⟩]⟩

def usersFile : FilePreParsed :=
  ⟨"users.js", "javascript", [⟨"function", "getUser", none, 1, 3⟩], []⟩

def routesBatch : Batch := ⟨[routesFile], [], []⟩

def usersBatch : Batch := ⟨[usersFile], [], []⟩

/-- Both files are indexed already. -/
def routesIndex : Graph where
  files := fun p => if p = "routes.js" ∨ p = "users.js" then some (some "javascript") else none
  nodes := [⟨1, "routes.js", "module", "<module>", some "routes.js"⟩,
    ⟨2, "users.js", "module", "<module>", some "users.js"⟩,
    ⟨3, "users.js", "function", "getUser", none⟩]
  edges := []
  pending := []
  severed := []

def routesEnv : Env := plainEnv ["routes.js", "users.js"] fun _ _ _ _ => .drop

theorem wellFormed_routesIndex : WellFormed routesIndex := by
  constructor <;> decide

theorem planned_routes : Planned routesEnv [routesBatch, usersBatch] := by
  refine ⟨fun p => ?_, by decide⟩
  exact Iff.rfl

/-- The route takes the handler's old row, which the second batch purges. -/
theorem deferred_id_dead :
    WellFormed routesIndex ∧ Planned routesEnv [routesBatch, usersBatch] ∧
      ¬ AllLive (indexFiles routesEnv [] routesIndex [routesBatch, usersBatch]) := by
  refine ⟨wellFormed_routesIndex, planned_routes, ?_⟩
  unfold AllLive
  decide +kernel

/-- With the handlers first, the route is deferred with the handler's new row. -/
theorem deferred_ids_live_users_first :
    AllLive (indexFiles routesEnv [] routesIndex [usersBatch, routesBatch]) ∧
      (indexFiles routesEnv [] routesIndex [usersBatch, routesBatch]).deferred ≠ [] := by
  refine ⟨(deferred_ids_live nextRowId_not_mem wellFormed_routesIndex ?_).2.1 ?_, by decide +kernel⟩
  · refine ⟨fun p => ?_, by decide⟩
    show p ∈ ["routes.js", "users.js"] ↔ p ∈ ["users.js", "routes.js"]
    simp [or_comm]
  · refine ⟨?_, ?_, trivial⟩
    · intro f hf rel hrel
      rw [List.mem_singleton.mp hf] at hrel
      cases hrel
    · intro f _ rel _ _ n _ _ _ hp
      cases hp

end CodeGraph.Pipeline.IndexFiles
