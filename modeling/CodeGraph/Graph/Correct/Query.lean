import CodeGraph.Graph.Query
import CodeGraph.Lib.Bfs

/-!
# A call graph holds the nodes at their shortest distance

`Follows` is the graph of the calls that a walk may follow. Between levels the map of visited nodes has
every node so far with its distance and a parent one step nearer (`Walked`); `walkLevel_walked` is the
step and `walkLoop_walked` the loop. The recursive query enumerates the simple paths of the same graph
(`mem_legacyRows`).
-/

namespace CodeGraph.Graph.Query

open CodeGraph.Lib CodeGraph.Storage

variable {D : Db} {dir : Direction} {minConfidenceRank : ℕ}

/-- A call of rank `minConfidenceRank` at least leads from `a` to `b`, in the direction of the walk. -/
def Follows (D : Db) (dir : Direction) (minConfidenceRank : ℕ) (a b : ℕ) : Prop :=
  ∃ e ∈ D.edges, e.relation = .calls ∧ minConfidenceRank ≤ confidenceRank e.confidence ∧
    dir.near e = a ∧ dir.far e = b

theorem mem_callEdges (piece : List ℕ) (e : EdgeRow) :
    e ∈ callEdges D dir minConfidenceRank piece ↔ ∃ k ∈ piece, e ∈ D.edges ∧ e.relation = .calls ∧
      minConfidenceRank ≤ confidenceRank e.confidence ∧ dir.near e = k := by
  simp only [callEdges, Finset.mem_filter]
  constructor
  · rintro ⟨he, hnear, hrel, hconf⟩
    exact ⟨_, hnear, he, hrel, hconf, rfl⟩
  · rintro ⟨k, hk, he, hrel, hconf, rfl⟩
    exact ⟨he, hk, hrel, hconf⟩

theorem follows_node {a b : ℕ} (h : Follows D dir minConfidenceRank a b) :
    b ∈ D.nodes.map NodeRow.id := by
  obtain ⟨e, he, -, -, -, rfl⟩ := h
  cases dir with
  | callees => exact D.edge_target e he
  | callers => exact D.edge_source e he

/-! ### A level -/

section Level

variable {P : Plan ℕ EdgeRow} {frontier : List ℕ} {seen : Seen} {depth : ℕ}

/-- The hits of a level are the calls from the frontier to new nodes. -/
theorem mem_discovered (hit : ℕ × ℕ × ℕ) :
    hit ∈ discovered D dir minConfidenceRank P frontier seen ↔
      hit.1 ∉ seen ∧ hit.2.1 = frontier.idxOf hit.2.2 ∧ hit.2.2 ∈ frontier ∧
        Follows D dir minConfidenceRank hit.2.2 hit.1 := by
  rw [discovered, List.mem_filterMap]
  simp only [P.mem_rows mem_callEdges]
  constructor
  · rintro ⟨e, ⟨k, hk, he, hrel, hconf, rfl⟩, hhit⟩
    by_cases hseen : dir.far e ∈ seen
    · rw [if_pos hseen] at hhit
      cases hhit
    · rw [if_neg hseen, Option.some.injEq] at hhit
      obtain rfl := hhit
      exact ⟨hseen, rfl, hk, e, he, hrel, hconf, rfl, rfl⟩
  · rintro ⟨hseen, hrank, hk, e, he, hrel, hconf, hnear, hfar⟩
    refine ⟨e, ⟨_, hk, he, hrel, hconf, hnear⟩, ?_⟩
    rw [hfar, hnear, if_neg hseen, ← hrank]

/-- The children of the hits, each with the parent of one of its hits. -/
theorem foldl_visitChild (depth : ℕ) (hits : List (ℕ × ℕ × ℕ)) (s : Seen × List ℕ) :
    let s' := hits.foldl (visitChild depth) s
    (∀ x, x ∈ s'.1 ↔ x ∈ s.1 ∨ ∃ hit ∈ hits, hit.1 = x) ∧
    (∀ x, x ∈ s'.2 ↔ x ∈ s.2 ∨ x ∉ s.1 ∧ ∃ hit ∈ hits, hit.1 = x) ∧
    ∀ x v, s'.1.lookup x = some v → s.1.lookup x = some v ∨
      x ∉ s.1 ∧ ∃ hit ∈ hits, hit.1 = x ∧ v = (depth, some hit.2.2) := by
  -- the induction is on the rows; the first row that hits a node gives its entry
  induction hits generalizing s with
  | nil => simp
  | cons hit hits ih =>
    rw [List.foldl_cons]
    obtain ⟨hdom, hnext, hval⟩ := ih (visitChild depth s hit)
    by_cases hseen : hit.1 ∈ s.1
    · have hstep : visitChild depth s hit = s := if_pos hseen
      rw [hstep] at hdom hnext hval ⊢
      refine ⟨fun x => ?_, fun x => ?_, fun x v hv => ?_⟩
      · rw [hdom]
        grind
      · rw [hnext]
        grind
      · rcases hval x v hv with h | ⟨hx, hit', hmem, heq⟩
        · exact .inl h
        · exact .inr ⟨hx, hit', List.mem_cons_of_mem _ hmem, heq⟩
    · have hstep : visitChild depth s hit =
          (s.1.insert hit.1 (depth, some hit.2.2), s.2 ++ [hit.1]) := if_neg hseen
      rw [hstep] at hdom hnext hval ⊢
      refine ⟨fun x => ?_, fun x => ?_, fun x v hv => ?_⟩
      · rw [hdom]
        simp only [AList.mem_insert, List.mem_cons]
        grind
      · rw [hnext]
        simp only [AList.mem_insert, List.mem_append, List.mem_cons]
        grind
      · rcases hval x v hv with h | ⟨hx, hit', hmem, heq⟩
        · -- the entry of `hit` is written now and no later row changes it
          by_cases hxe : x = hit.1
          · subst hxe
            rw [AList.lookup_insert, Option.some.injEq] at h
            exact .inr ⟨hseen, hit, List.mem_cons_self, rfl, h.symm⟩
          · rw [AList.lookup_insert_ne hxe] at h
            exact .inl h
        · refine .inr ⟨fun hmem' => hx (AList.mem_insert _ |>.mpr (.inr hmem')), hit',
            List.mem_cons_of_mem _ hmem, heq⟩

/-- What the map says of a node: its distance, and after the seeds a parent one step nearer. -/
def Visit (D : Db) (dir : Direction) (minConfidenceRank : ℕ) (S : Set ℕ) (x k : ℕ) (p : Option ℕ) :
    Prop :=
  AtDist (Follows D dir minConfidenceRank) S k x ∧
  (0 < k → ∃ q, p = some q ∧ AtDist (Follows D dir minConfidenceRank) S (k - 1) q ∧
    Follows D dir minConfidenceRank q x)

/-- Between levels: the frontier is level `d`, the visited nodes are levels `0` to `d`. -/
structure Walked (D : Db) (dir : Direction) (minConfidenceRank : ℕ) (S : Set ℕ) (d : ℕ)
    (frontier : List ℕ) (seen : Seen) : Prop where
  level : Level (Follows D dir minConfidenceRank) S d {x | x ∈ frontier} {x | x ∈ seen}
  visit : ∀ x k p, seen.lookup x = some (k, p) → Visit D dir minConfidenceRank S x k p

variable {S : Set ℕ} {d : ℕ}

/-- **A level.** -/
theorem walkLevel_walked (h : Walked D dir minConfidenceRank S d frontier seen) :
    let s := walkLevel D dir minConfidenceRank P (d + 1) frontier seen
    Walked D dir minConfidenceRank S (d + 1) s.2 s.1 := by
  intro s
  set hits := sortByKey (fun hit : ℕ × ℕ × ℕ => toLex (hit.2.1, hit.1))
    (discovered D dir minConfidenceRank P frontier seen) with hhits
  have hhit : ∀ hit, hit ∈ hits ↔ hit.1 ∉ seen ∧ hit.2.1 = frontier.idxOf hit.2.2 ∧
      hit.2.2 ∈ frontier ∧ Follows D dir minConfidenceRank hit.2.2 hit.1 := by
    intro hit
    rw [hhits, mem_sortByKey, mem_discovered]
  obtain ⟨hdom, hnext, hval⟩ := foldl_visitChild (d + 1) hits (seen, [])
  -- the next frontier is what the rows hit and no level before it had
  have hnew : ∀ x, x ∈ s.2 ↔ (∃ f ∈ frontier, Follows D dir minConfidenceRank f x) ∧ x ∉ seen := by
    intro x
    refine (hnext x).trans ⟨?_, ?_⟩
    · rintro (hx | ⟨hx, hit, hmem, rfl⟩)
      · cases hx
      · exact ⟨⟨_, ((hhit hit).mp hmem).2.2.1, ((hhit hit).mp hmem).2.2.2⟩, hx⟩
    · rintro ⟨⟨f, hf, hfx⟩, hx⟩
      exact .inr ⟨hx, (x, frontier.idxOf f, f), (hhit _).mpr ⟨hx, rfl, hf, hfx⟩, rfl⟩
  -- so the nodes seen are the levels so far
  have hlevel : Level (Follows D dir minConfidenceRank) S (d + 1) {x | x ∈ s.2} {x | x ∈ s.1} := by
    refine h.level.next hnew fun x => ?_
    show x ∈ s.1 ↔ x ∈ seen ∨ x ∈ s.2
    refine (hdom x).trans (Iff.trans ?_ (or_congr_right (hnext x)).symm)
    have hnil : x ∉ ([] : List ℕ) := List.not_mem_nil
    show x ∈ seen ∨ _ ↔ x ∈ seen ∨ x ∈ [] ∨ x ∉ seen ∧ _
    tauto
  refine ⟨hlevel, fun x k p hv => ?_⟩
  rcases hval x (k, p) hv with hold | ⟨hx, hit, hmem, rfl, heq⟩
  · exact h.visit x k p hold
  · obtain ⟨rfl, rfl⟩ := Prod.mk.inj heq
    obtain ⟨-, -, hf, hfx⟩ := (hhit hit).mp hmem
    refine ⟨(hlevel.frontier hit.1).mp ((hnew hit.1).mpr ⟨⟨_, hf, hfx⟩, hx⟩), fun _ => ?_⟩
    exact ⟨hit.2.2, rfl, (h.level.frontier _).mp hf, hfx⟩

/-- **The loop**: the nodes within `left` more levels. -/
theorem walkLoop_walked (left : ℕ) (h : Walked D dir minConfidenceRank S d frontier seen) :
    let seen' := walkLoop D dir minConfidenceRank P left (d + 1) frontier seen
    (∀ x, x ∈ seen' ↔ ∃ k ≤ d + left, AtDist (Follows D dir minConfidenceRank) S k x) ∧
    ∀ x k p, seen'.lookup x = some (k, p) → Visit D dir minConfidenceRank S x k p := by
  induction left generalizing d frontier seen with
  | zero => exact ⟨h.level.visited, h.visit⟩
  | succ left ih =>
    unfold walkLoop
    split_ifs with hnil
    · refine ⟨fun x => ?_, h.visit⟩
      have hstop := h.level.stop (by simp [hnil]) x
      constructor
      · intro hx
        obtain ⟨k, hk, hdist⟩ := (h.level.visited x).mp hx
        exact ⟨k, by omega, hdist⟩
      · rintro ⟨k, -, hdist⟩
        exact hstop.mpr ⟨k, hdist⟩
    · obtain ⟨hdom, hvisit⟩ := ih (walkLevel_walked (P := P) h)
      have hleft : d + 1 + left = d + (left + 1) := by omega
      rw [← hleft]
      exact ⟨hdom, hvisit⟩

end Level

/-! ### The rows -/

section Rows

variable {P : Plan ℕ EdgeRow} {seed : CallGraphSeed} {maxDepth : ℤ}

/-- The nodes that a walk starts from. -/
def seedSet (D : Db) (seed : CallGraphSeed) : Set ℕ := {x | x ∈ seedIds D seed}

theorem seedIds_node {x : ℕ} (h : x ∈ seedIds D seed) : x ∈ D.nodes.map NodeRow.id := by
  rw [seedIds, mem_sortByKey] at h
  exact (List.filter_sublist.map NodeRow.id).subset h

theorem atDist_node {x d : ℕ} (h : AtDist (Follows D dir minConfidenceRank) (seedSet D seed) d x) :
    x ∈ D.nodes.map NodeRow.id := by
  cases d with
  | zero =>
    have hx : x ∈ seedSet D seed := atDist_zero_iff.mp h
    exact seedIds_node hx
  | succ d =>
    obtain ⟨c, -, hcx⟩ := h.pred
    exact follows_node hcx

theorem foldl_insert_seeds (ids : List ℕ) (seen : Seen) :
    let seen' := ids.foldl (fun seen id => seen.insert id (0, none)) seen
    (∀ x, x ∈ seen' ↔ x ∈ ids ∨ x ∈ seen) ∧
    ∀ x v, seen'.lookup x = some v → seen.lookup x = some v ∨ x ∈ ids ∧ v = (0, none) := by
  induction ids generalizing seen with
  | nil => simp
  | cons id ids ih =>
    rw [List.foldl_cons]
    obtain ⟨hdom, hval⟩ := ih (seen.insert id (0, none))
    refine ⟨fun x => ?_, fun x v hv => ?_⟩
    · rw [hdom, AList.mem_insert, List.mem_cons]
      tauto
    · rcases hval x v hv with h | ⟨hx, hv⟩
      · by_cases hxe : x = id
        · subst hxe
          rw [AList.lookup_insert, Option.some.injEq] at h
          exact .inr ⟨List.mem_cons_self, h.symm⟩
        · rw [AList.lookup_insert_ne hxe] at h
          exact .inl h
      · exact .inr ⟨List.mem_cons_of_mem id hx, hv⟩

theorem walked_seeds (D : Db) (seed : CallGraphSeed) (dir : Direction) (minConfidenceRank : ℕ) :
    Walked D dir minConfidenceRank (seedSet D seed) 0 (seedIds D seed)
      ((seedIds D seed).foldl (fun seen id => seen.insert id (0, none)) ∅) := by
  obtain ⟨hdom, hval⟩ := foldl_insert_seeds (seedIds D seed) ∅
  have hset : {x | x ∈ (seedIds D seed).foldl (fun seen id => AList.insert id (0, none) seen)
      (∅ : Seen)} = seedSet D seed := by
    ext x
    exact (hdom x).trans (or_iff_left (AList.notMem_empty x))
  refine ⟨?_, fun x k p hv => ?_⟩
  · rw [hset]
    exact level_zero
  · rcases hval x (k, p) hv with h | ⟨hx, heq⟩
    · rw [AList.lookup_empty] at h
      cases h
    · obtain ⟨rfl, rfl⟩ := Prod.mk.inj heq
      exact ⟨atDist_zero_iff.mpr hx, fun hpos => absurd hpos (Nat.lt_irrefl 0)⟩

/-- A row has the id, the depth and the parent of its visit. -/
theorem emit_eq_some {x : ℕ} {visit : ℕ × Option ℕ} {r : CallGraphNode}
    (h : emit D dir x visit = some r) : r.nodeId = x ∧ r.depth = visit.1 ∧ r.parentId = visit.2 := by
  unfold emit at h
  split at h
  · cases h
  · split at h
    · cases h
    · rw [Option.some.injEq] at h
      subst h
      exact ⟨rfl, rfl, rfl⟩

/-- Every node has a row: its file is there. -/
theorem exists_emit (dir : Direction) {x : ℕ} (hx : x ∈ D.nodes.map NodeRow.id) (visit : ℕ × Option ℕ) :
    ∃ r, emit D dir x visit = some r := by
  obtain ⟨n, hn, rfl⟩ := List.mem_map.mp hx
  obtain ⟨f, hf, hfile⟩ := List.mem_map.mp (D.node_file n hn)
  unfold emit
  rw [find?_key_eq_some D.node_ids hn]
  simp only [← hfile, find?_key_eq_some D.file_ids hf]
  exact ⟨_, rfl⟩

/-- What a walk has visited when it ends. -/
def visits (D : Db) (P : Plan ℕ EdgeRow) (seed : CallGraphSeed) (maxDepth : ℤ) (dir : Direction)
    (minConfidenceRank : ℕ) : Seen :=
  walkLoop D dir minConfidenceRank P (walkDepth maxDepth) 1 (seedIds D seed)
    ((seedIds D seed).foldl (fun seen id => seen.insert id (0, none)) ∅)

/-- Without a seed nothing is visited and there are no rows. -/
theorem traversal_eq :
    traversal D P seed maxDepth dir minConfidenceRank =
      sortByKey (fun r => rowOrder D r.nodeId r.depth)
        ((visits D P seed maxDepth dir minConfidenceRank).entries.filterMap fun entry =>
          emit D dir entry.1 entry.2) := by
  by_cases hnil : seedIds D seed = []
  · have hvisits : visits D P seed maxDepth dir minConfidenceRank = ∅ := by
      unfold visits
      rw [hnil]
      cases walkDepth maxDepth with
      | zero => rfl
      | succ k => rfl
    rw [hvisits]
    exact if_pos hnil
  · exact if_neg hnil

theorem mem_traversal (r : CallGraphNode) :
    r ∈ traversal D P seed maxDepth dir minConfidenceRank ↔
      ∃ x v, (visits D P seed maxDepth dir minConfidenceRank).lookup x = some v ∧
        emit D dir x v = some r := by
  rw [traversal_eq, mem_sortByKey, List.mem_filterMap]
  constructor
  · rintro ⟨⟨x, v⟩, hmem, hr⟩
    exact ⟨x, v, AList.mem_lookup_iff.mpr hmem, hr⟩
  · rintro ⟨x, v, hlook, hr⟩
    exact ⟨⟨x, v⟩, AList.mem_lookup_iff.mp hlook, hr⟩

/-- **The nodes of a walk**, each once, at its distance and with a parent. -/
theorem traversal_spec :
    (∀ x d, (∃ r ∈ traversal D P seed maxDepth dir minConfidenceRank, r.nodeId = x ∧ r.depth = d) ↔
      d ≤ walkDepth maxDepth ∧ AtDist (Follows D dir minConfidenceRank) (seedSet D seed) d x) ∧
    (∀ r ∈ traversal D P seed maxDepth dir minConfidenceRank,
      Visit D dir minConfidenceRank (seedSet D seed) r.nodeId r.depth r.parentId) := by
  obtain ⟨hdom, hvisit⟩ := walkLoop_walked (P := P) (walkDepth maxDepth)
    (walked_seeds D seed dir minConfidenceRank)
  simp only [Nat.zero_add] at hdom
  have hrow : ∀ r ∈ traversal D P seed maxDepth dir minConfidenceRank,
      Visit D dir minConfidenceRank (seedSet D seed) r.nodeId r.depth r.parentId ∧
        r.nodeId ∈ visits D P seed maxDepth dir minConfidenceRank := by
    intro r hr
    obtain ⟨x, v, hlook, hemit⟩ := (mem_traversal r).mp hr
    obtain ⟨rfl, hdepth, hparent⟩ := emit_eq_some hemit
    rw [hdepth, hparent]
    exact ⟨hvisit _ _ _ hlook, AList.lookup_isSome.mp (Option.isSome_of_mem hlook)⟩
  refine ⟨fun x d => ⟨?_, ?_⟩, fun r hr => (hrow r hr).1⟩
  · rintro ⟨r, hr, rfl, rfl⟩
    obtain ⟨⟨hdist, -⟩, hmem⟩ := hrow r hr
    obtain ⟨k, hk, hdist'⟩ := (hdom r.nodeId).mp hmem
    rw [hdist.unique hdist']
    exact ⟨hk, hdist'⟩
  · rintro ⟨hd, hdist⟩
    have hmem : x ∈ visits D P seed maxDepth dir minConfidenceRank := (hdom x).mpr ⟨d, hd, hdist⟩
    obtain ⟨v, hlook⟩ := Option.isSome_iff_exists.mp (AList.lookup_isSome.mpr hmem)
    obtain ⟨r, hemit⟩ := exists_emit dir (atDist_node hdist) v
    obtain ⟨hid, hdepth, -⟩ := emit_eq_some hemit
    refine ⟨r, (mem_traversal r).mpr ⟨x, v, hlook, hemit⟩, hid, ?_⟩
    rw [hdepth]
    exact ((hvisit x v.1 v.2 hlook).1).unique hdist

theorem traversal_ids :
    ((traversal D P seed maxDepth dir minConfidenceRank).map CallGraphNode.nodeId).Nodup := by
  rw [traversal_eq, ((sortByKey_perm _ _).map CallGraphNode.nodeId).nodup_iff]
  have hkeys : (visits D P seed maxDepth dir minConfidenceRank).keys.Nodup := AList.keys_nodup _
  rw [AList.keys, List.keys, List.Nodup, List.pairwise_map] at hkeys
  rw [List.Nodup, List.pairwise_map]
  refine hkeys.filterMap _ fun a b hab r hr r' hr' => ?_
  rw [(emit_eq_some hr).1, (emit_eq_some hr').1]
  exact hab

theorem traversal_sorted :
    (traversal D P seed maxDepth dir minConfidenceRank).Pairwise
      fun a b => rowOrder D a.nodeId a.depth < rowOrder D b.nodeId b.depth := by
  have hids : ((traversal D P seed maxDepth dir minConfidenceRank).map CallGraphNode.nodeId).Nodup :=
    traversal_ids
  rw [traversal_eq, ((sortByKey_perm _ _).map CallGraphNode.nodeId).nodup_iff, List.Nodup,
    List.pairwise_map] at hids
  rw [traversal_eq]
  apply sortByKey_strict
  rw [List.Nodup, List.pairwise_map]
  refine hids.imp fun hne heq => hne ?_
  exact congrArg (fun key => (ofLex (ofLex key).2).2) heq

end Rows

/-! ### The recursive query -/

section Legacy

variable {symbol : String} {filePath : Option String} {maxDepth : ℤ}

/-- The rows of the recursive query are the simple paths from the seeds. -/
theorem mem_callPaths (depth : ℕ) (ids : List ℕ) :
    ids ∈ callPaths D symbol filePath dir minConfidenceRank depth ↔
      SimplePath (Follows D dir minConfidenceRank) (seedSet D (.name symbol filePath)) ids ∧
        ids.length = depth + 1 := by
  induction depth generalizing ids with
  | zero =>
    simp only [callPaths, List.mem_toFinset, List.mem_map, Nat.zero_add]
    constructor
    · rintro ⟨x, hx, rfl⟩
      exact ⟨.seed hx, rfl⟩
    · rintro ⟨hpath, hlen⟩
      cases hpath with
      | @seed a ha => exact ⟨a, ha, rfl⟩
      | step h hab hnew => simp at hlen
  | succ depth ih =>
    simp only [callPaths, Finset.mem_biUnion, ih, Finset.mem_image, Finset.mem_filter,
      mem_callEdges]
    constructor
    · rintro ⟨ids, ⟨hpath, hlen⟩, e, ⟨⟨k, hk, he, hrel, hconf, hnear⟩, hnew⟩, rfl⟩
      cases ids with
      | nil => simp at hlen
      | cons a ids =>
        obtain rfl : k = a := by simpa using hk
        exact ⟨.step hpath ⟨e, he, hrel, hconf, hnear, rfl⟩ hnew, by simpa using hlen⟩
    · rintro ⟨hpath, hlen⟩
      cases hpath with
      | seed ha => simp at hlen
      | @step a b ids hpath hab hnew =>
        obtain ⟨e, he, hrel, hconf, rfl, rfl⟩ := hab
        exact ⟨_, ⟨hpath, by simpa using hlen⟩, e, ⟨⟨_, by simp, he, hrel, hconf, rfl⟩, hnew⟩, rfl⟩

/-- **The recursive query** finds the same nodes at the same depths. -/
theorem mem_legacyRows (row : ℕ × ℕ) :
    row ∈ legacyRows D symbol filePath dir minConfidenceRank maxDepth ↔
      row.2 ≤ walkDepth maxDepth ∧
        AtDist (Follows D dir minConfidenceRank) (seedSet D (.name symbol filePath)) row.2 row.1 := by
  -- a row of the statement is a simple path and its length
  have hrows : ∀ row : ℕ × ℕ,
      (row ∈ (Finset.range (walkDepth maxDepth + 1)).biUnion fun depth =>
        (callPaths D symbol filePath dir minConfidenceRank depth).image fun ids =>
          (ids.headD 0, depth)) ↔
      row.2 ≤ walkDepth maxDepth ∧ ∃ ids, SimplePath (Follows D dir minConfidenceRank)
        (seedSet D (.name symbol filePath)) (row.1 :: ids) ∧ ids.length = row.2 := by
    intro row
    simp only [Finset.mem_biUnion, Finset.mem_range, Finset.mem_image, mem_callPaths]
    constructor
    · rintro ⟨k, hk, ids, ⟨hpath, hlen⟩, rfl⟩
      cases ids with
      | nil => simp at hlen
      | cons b ids => exact ⟨by omega, ids, hpath, by simpa using hlen⟩
    · rintro ⟨hk, ids, hpath, hlen⟩
      exact ⟨row.2, by omega, row.1 :: ids, ⟨hpath, by simpa using hlen⟩, rfl⟩
  simp only [legacyRows, Finset.mem_filter]
  rw [hrows]
  constructor
  · rintro ⟨⟨hk, ids, hpath, hlen⟩, hmin⟩
    refine ⟨hk, atDist_iff_simple.mpr ⟨⟨ids, hpath, hlen⟩, fun other hother => ?_⟩⟩
    by_cases hle : other.length ≤ walkDepth maxDepth
    · exact hmin (row.1, other.length) ((hrows _).mpr ⟨hle, other, hother, rfl⟩) rfl
    · omega
  · rintro ⟨hk, hdist⟩
    obtain ⟨hpath, hmin⟩ := atDist_iff_simple.mp hdist
    refine ⟨⟨hk, hpath⟩, fun other hother heq => ?_⟩
    obtain ⟨-, ids, hids, hlen⟩ := (hrows other).mp hother
    rw [heq] at hids
    rw [← hlen]
    exact hmin ids hids

/-- The rows of the two queries, before the limit. -/
theorem traversal_eq_legacy (P : Plan ℕ EdgeRow) :
    (traversal D P (.name symbol filePath) maxDepth dir minConfidenceRank).map
        (fun r => (r.nodeId, r.depth)) =
      (inOrder ((legacyRows D symbol filePath dir minConfidenceRank maxDepth).image
        fun row => rowOrder D row.1 row.2)).map fun key => ((ofLex (ofLex key).2).2, (ofLex key).1) := by
  apply eq_of_strict (k := fun row : ℕ × ℕ => rowOrder D row.1 row.2)
  · exact List.pairwise_map.mpr traversal_sorted
  · rw [List.pairwise_map]
    refine (inOrder_strict _).imp_of_mem fun {a b} ha hb hlt => ?_
    obtain ⟨row, -, rfl⟩ := Finset.mem_image.mp (mem_inOrder.mp ha)
    obtain ⟨row', -, rfl⟩ := Finset.mem_image.mp (mem_inOrder.mp hb)
    exact hlt
  · intro row
    have hwalk := fun x d =>
      (@traversal_spec D dir minConfidenceRank P (.name symbol filePath) maxDepth).1 x d
    simp only [List.mem_map, mem_inOrder, Finset.mem_image]
    constructor
    · rintro ⟨r, hr, rfl⟩
      have hrow := (mem_legacyRows (r.nodeId, r.depth)).mpr ((hwalk _ _).mp ⟨r, hr, rfl, rfl⟩)
      exact ⟨_, ⟨(r.nodeId, r.depth), hrow, rfl⟩, rfl⟩
    · rintro ⟨key, ⟨row', hrow', rfl⟩, rfl⟩
      obtain ⟨r, hr, hid, hdepth⟩ := (hwalk _ _).mpr ((mem_legacyRows _).mp hrow')
      exact ⟨r, hr, Prod.ext hid hdepth⟩

end Legacy

/-- The bound on depths as the caller gives it. -/
theorem le_walkDepth_iff (d : ℕ) (maxDepth : ℤ) :
    d ≤ walkDepth maxDepth ↔ (d : ℤ) ≤ max 0 (min maxDepth 10) := by
  unfold walkDepth callGraphMaxDepth
  omega

/-- **A call graph is its specification.** Before truncation the rows are the nodes whose shortest distance
from the seeds, over calls of the rank asked for, is `max 0 (min maxDepth 10)` at most, each once and with
its distance; a row after the seeds has a parent one step nearer; the returned list is the first 200 in the
order of depth, callers from high to low and id. The recursive query gives the same nodes, depths, order and
flag. -/
theorem call_graph_shortest (D : Db) (P : Plan ℕ EdgeRow) (seed : CallGraphSeed) (dir : Direction)
    (maxDepth : ℤ) (minConfidenceRank : ℕ) :
    let rows := traversal D P seed maxDepth dir minConfidenceRank
    (∀ x d, (∃ r ∈ rows, r.nodeId = x ∧ r.depth = d) ↔
      (d : ℤ) ≤ max 0 (min maxDepth 10) ∧
        AtDist (Follows D dir minConfidenceRank) (seedSet D seed) d x) ∧
    (rows.map CallGraphNode.nodeId).Nodup ∧
    (∀ r ∈ rows, 0 < r.depth → ∃ p, r.parentId = some p ∧
      (∃ q ∈ rows, q.nodeId = p ∧ q.depth = r.depth - 1) ∧
      Follows D dir minConfidenceRank p r.nodeId) ∧
    rows.Pairwise (fun a b => rowOrder D a.nodeId a.depth < rowOrder D b.nodeId b.depth) ∧
    (queryDirectionSeeded D P seed maxDepth dir minConfidenceRank).1 = rows.take 200 ∧
    ∀ symbol filePath,
      ((queryDirectionSeeded D P (.name symbol filePath) maxDepth dir minConfidenceRank).1.map
          fun r => (r.nodeId, r.depth)) =
        (legacyQueryDirectionCte D symbol filePath dir minConfidenceRank maxDepth).1 ∧
      (queryDirectionSeeded D P (.name symbol filePath) maxDepth dir minConfidenceRank).2 =
        (legacyQueryDirectionCte D symbol filePath dir minConfidenceRank maxDepth).2 := by
  intro rows
  obtain ⟨hnodes, hvisit⟩ := @traversal_spec D dir minConfidenceRank P seed maxDepth
  refine ⟨fun x d => ?_, traversal_ids, fun r hr hpos => ?_, traversal_sorted, rfl, ?_⟩
  · rw [← le_walkDepth_iff]
    exact hnodes x d
  · obtain ⟨p, hp, hdist, hstep⟩ := (hvisit r hr).2 hpos
    refine ⟨p, hp, (hnodes p (r.depth - 1)).mpr ⟨?_, hdist⟩, hstep⟩
    have hdepth := ((hnodes r.nodeId r.depth).mp ⟨r, hr, rfl, rfl⟩).1
    omega
  · intro symbol filePath
    -- the older query has the same rows before the limit cuts both
    have heq := @traversal_eq_legacy D dir minConfidenceRank symbol filePath maxDepth P
    constructor
    · show (List.take callGraphRowLimit _).map _ = List.take callGraphRowLimit _
      rw [← heq, List.map_take]
    · show decide (callGraphRowLimit ≤ _) = decide ((List.take callGraphRowLimit _).length = _)
      rw [← heq, List.length_take, List.length_map]
      congr 1
      rw [eq_iff_iff]
      omega

/-- One function that calls nothing. -/
def loneFunction : Db where
  files := [⟨1, "a.rs", none⟩]
  nodes := [⟨1, 1, "function", "f", ""⟩]
  edges := ∅
  file_ids := by decide
  file_paths := by decide
  node_ids := by decide
  node_file := by decide
  edge_source := by decide
  edge_target := by decide
  edge_key := by decide
  qualifiedName := fun _ => none
  isTest := fun _ => false

/-- The seeds are returned whatever depth is asked for, also a negative one. -/
theorem seed_beyond_negative_depth :
    ∃ r ∈ traversal loneFunction (.chunked 400 Finset.toList fun _ _ => Finset.mem_toList) (.node 1) (-1)
        .callees 0,
      r.nodeId = 1 ∧ r.depth = 0 ∧ ¬ (r.depth : ℤ) ≤ min (-1) 10 := by
  refine ⟨⟨1, "f", "function", "a.rs", 0, .callees, none, none, false⟩, ?_, rfl, rfl, by decide⟩
  have hwalk : walkDepth (-1) = 0 := rfl
  unfold traversal
  rw [hwalk]
  decide

end CodeGraph.Graph.Query
