import CodeGraph.Lib.Bfs
import CodeGraph.Storage.Imports

/-!
# The import closure is the shortest distance

`Joined` is the graph of files that the claims of `imports.rs` are about, and `AtDist` its shortest
distances. The loop keeps two facts from level to level (`Reached`): the frontier is the last level and
the visited set all levels so far (`Level`), and the map has every file so far with its distance.
`readLevel_reached` is the step, `lookup_closureLoop` the loop.

The recursive query enumerates simple paths; the least depth at which it reaches a file is the distance
too (`mem_legacyClosure`).
-/

namespace CodeGraph.Storage.Imports

open CodeGraph.Lib

variable {I : Index} {relations : List Relation} {hop : FileHop}

/-- The file `a` is joined to another file `b`: for `outgoing`, one of its nodes has an edge to a node of
`b`, and for `incoming` the other way round. -/
def Joined (I : Index) (relations : List Relation) (hop : FileHop) (a b : ℕ) : Prop :=
  a ≠ b ∧ ∃ e ∈ I.edges, e.relation ∈ relations ∧
    (I.fileOf (hop.near e)).id = a ∧ (I.fileOf (hop.far e)).id = b

theorem near_mem {e : EdgeRow} (he : e ∈ I.edges) : hop.near e ∈ I.nodes.map NodeRow.id := by
  cases hop with
  | outgoing => exact I.edge_source e he
  | incoming => exact I.edge_target e he

theorem far_mem {e : EdgeRow} (he : e ∈ I.edges) : hop.far e ∈ I.nodes.map NodeRow.id := by
  cases hop with
  | outgoing => exact I.edge_target e he
  | incoming => exact I.edge_source e he

theorem path_inj {f g : FileRow} (hf : f ∈ I.files) (hg : g ∈ I.files) (h : f.path = g.path) :
    f = g :=
  List.inj_on_of_nodup_map I.file_paths hf hg h

/-- What an edge leads to is a file of the index, and its path is that file's. -/
theorem far_file {e : EdgeRow} (he : e ∈ I.edges) :
    I.fileOf (hop.far e) ∈ I.files ∧ I.file (I.fileOf (hop.far e)).id = I.fileOf (hop.far e) :=
  ⟨(Index.fileOf_mem (far_mem he)).1, Index.file_of_mem (Index.fileOf_mem (far_mem he)).1⟩

theorem near_fileId {e : EdgeRow} (he : e ∈ I.edges) :
    (I.node (hop.near e)).fileId = (I.fileOf (hop.near e)).id :=
  (Index.fileOf_mem (near_mem he)).2.symm

/-! ### Reading the rows of a level -/

section Level

variable {root : FileRow} {depth : ℕ}

theorem mem_expand (hsyn : ∀ e ∈ I.edges, ¬ Synthetic e) (piece : List ℕ) (row : ℕ × String) :
    row ∈ expand I relations hop piece ↔
      ∃ k ∈ piece, ∃ e ∈ I.edges, e.relation ∈ relations ∧ (I.fileOf (hop.near e)).id = k ∧
        row = ((I.fileOf (hop.far e)).id, (I.fileOf (hop.far e)).path) := by
  simp only [expand, Finset.mem_image, Finset.mem_filter]
  constructor
  · rintro ⟨e, ⟨he, hrel, -, hmem⟩, rfl⟩
    rw [near_fileId he] at hmem
    exact ⟨_, hmem, e, he, hrel, rfl, rfl⟩
  · rintro ⟨k, hk, e, he, hrel, rfl, rfl⟩
    rw [← near_fileId he] at hk
    exact ⟨e, ⟨he, hrel, hsyn e he, hk⟩, rfl⟩

theorem lookup_noteDepth {found : AList fun _ : String => ℕ} {path p : String} {d : ℕ}
    (hnew : found.lookup path = none) :
    (noteDepth found path depth).lookup p = some d ↔
      found.lookup p = some d ∨ p = path ∧ d = depth := by
  rw [noteDepth, hnew]
  by_cases hp : p = path
  · subst hp
    simp [AList.lookup_insert, hnew, eq_comm]
  · simp [AList.lookup_insert_ne hp, hp]

/-- A row of a file that has a path other than the root's. -/
def Fresh (root : FileRow) (rows : List (ℕ × String)) (x : ℕ) : Prop :=
  ∃ row ∈ rows, row.1 = x ∧ row.2 ≠ root.path

/-- The rows of files: what is new among them is visited, noted at this depth and next. -/
theorem foldl_readRow (root : FileRow) (depth : ℕ) (rows : List (ℕ × String)) (s : Search)
    (hrows : ∀ row ∈ rows, ∃ f ∈ I.files, row = (f.id, f.path))
    (hfound : ∀ p d, s.found.lookup p = some d → ∃ f ∈ I.files, f.path = p ∧ f.id ∈ s.visited) :
    let s' := rows.foldl (readRow root.path depth) s
    (∀ x, x ∈ s'.visited ↔ x ∈ s.visited ∨ Fresh root rows x) ∧
    (∀ x, x ∈ s'.next ↔ x ∈ s.next ∨ x ∉ s.visited ∧ Fresh root rows x) ∧
    ∀ p d, s'.found.lookup p = some d ↔ s.found.lookup p = some d ∨
      d = depth ∧ ∃ f ∈ I.files, f.path = p ∧ f.id ∉ s.visited ∧ Fresh root rows f.id := by
  -- the induction is on the rows; the first row of a file is the one that counts
  induction rows generalizing s with
  | nil => simp [Fresh]
  | cons row rows ih =>
    obtain ⟨f, hf, rfl⟩ := hrows _ List.mem_cons_self
    have hrest : ∀ row ∈ rows, ∃ f ∈ I.files, row = (f.id, f.path) :=
      fun row hrow => hrows row (List.mem_cons_of_mem _ hrow)
    have hfresh : ∀ x, Fresh root ((f.id, f.path) :: rows) x ↔
        (f.id = x ∧ f.path ≠ root.path) ∨ Fresh root rows x := by
      intro x
      simp [Fresh]
    rw [List.foldl_cons]
    by_cases hskip : f.path = root.path ∨ f.id ∈ s.visited
    · have hstep : readRow root.path depth s (f.id, f.path) = s := if_pos hskip
      rw [hstep]
      obtain ⟨hvis, hnext, hlook⟩ := ih s hrest hfound
      refine ⟨fun x => ?_, fun x => ?_, fun p d => ?_⟩
      · rw [hvis, hfresh]
        grind
      · rw [hnext, hfresh]
        grind
      · rw [hlook]
        simp only [hfresh]
        grind
    · push Not at hskip
      -- no file was found under the path, as its file was not visited
      have hnone : s.found.lookup f.path = none := by
        by_contra hsome
        obtain ⟨d, hd⟩ := Option.ne_none_iff_exists'.mp hsome
        obtain ⟨g, hg, hpath, hvis⟩ := hfound _ _ hd
        rw [path_inj hg hf hpath] at hvis
        exact hskip.2 hvis
      have hstep : readRow root.path depth s (f.id, f.path) =
          ⟨insert f.id s.visited, noteDepth s.found f.path depth, s.next ++ [f.id]⟩ :=
        if_neg (not_or.mpr hskip)
      rw [hstep]
      obtain ⟨hvis, hnext, hlook⟩ := ih ⟨insert f.id s.visited, noteDepth s.found f.path depth,
          s.next ++ [f.id]⟩ hrest (by
        intro p d hd
        rcases (lookup_noteDepth hnone).mp hd with hd | ⟨rfl, -⟩
        · obtain ⟨g, hg, hpath, hgvis⟩ := hfound p d hd
          exact ⟨g, hg, hpath, Finset.mem_insert_of_mem hgvis⟩
        · exact ⟨f, hf, rfl, Finset.mem_insert_self _ _⟩)
      refine ⟨fun x => ?_, fun x => ?_, fun p d => ?_⟩
      · rw [hvis, hfresh]
        simp only [Finset.mem_insert]
        grind
      · rw [hnext, hfresh]
        simp only [Finset.mem_insert, List.mem_append, List.mem_singleton]
        grind
      · rw [hlook, lookup_noteDepth hnone]
        simp only [hfresh, Finset.mem_insert]
        have hid : ∀ g ∈ I.files, g.id = f.id → g = f :=
          fun g hg h => List.inj_on_of_nodup_map I.file_ids hg hf h
        grind

/-- Between levels: the frontier is level `d`, the visited files are levels `0` to `d`, and the map has
the files of levels `1` to `d`. -/
structure Reached (I : Index) (relations : List Relation) (hop : FileHop) (root : FileRow) (d : ℕ)
    (frontier : List ℕ) (s : Search) : Prop where
  level : Level (Joined I relations hop) {root.id} d {x | x ∈ frontier} {x | x ∈ s.visited}
  found : ∀ p k, s.found.lookup p = some k ↔ ∃ f ∈ I.files, f.path = p ∧ 1 ≤ k ∧ k ≤ d ∧
    AtDist (Joined I relations hop) {root.id} k f.id

variable {P : Plan ℕ (ℕ × String)} {d : ℕ} {frontier : List ℕ} {s : Search}

/-- **A level.** -/
theorem readLevel_reached (hsyn : ∀ e ∈ I.edges, ¬ Synthetic e) (hroot : root ∈ I.files)
    (h : Reached I relations hop root d frontier s) :
    let s' := readLevel I root.path relations hop P (d + 1) frontier s
    Reached I relations hop root (d + 1) (sortByKey id s'.next) s' := by
  intro s'
  have hrow : ∀ row, row ∈ P.rows (expand I relations hop) frontier ↔ ∃ k ∈ frontier,
      ∃ e ∈ I.edges, e.relation ∈ relations ∧ (I.fileOf (hop.near e)).id = k ∧
        row = ((I.fileOf (hop.far e)).id, (I.fileOf (hop.far e)).path) :=
    fun row => P.mem_rows (mem_expand hsyn)
  have hvisited : ∀ x ∈ frontier, x ∈ s.visited := by
    intro x hx
    exact (h.level.visited x).mpr ⟨d, le_rfl, (h.level.frontier x).mp hx⟩
  have hrootVis : root.id ∈ s.visited :=
    (h.level.visited root.id).mpr ⟨0, Nat.zero_le d, atDist_zero_iff.mpr rfl⟩
  obtain ⟨hvis, hnext, hfound⟩ := foldl_readRow (I := I) root (d + 1)
    (P.rows (expand I relations hop) frontier) { s with next := [] }
    (by
      intro row hmem
      obtain ⟨k, -, e, he, -, -, rfl⟩ := (hrow row).mp hmem
      exact ⟨_, (far_file he).1, rfl⟩)
    (by
      intro p k hk
      obtain ⟨f, hf, hpath, -, hkd, hdist⟩ := (h.found p k).mp hk
      exact ⟨f, hf, hpath, (h.level.visited f.id).mpr ⟨k, hkd, hdist⟩⟩)
  -- New is what the frontier is joined to and has not been visited.
  have hnew : ∀ x, (x ∉ s.visited ∧ Fresh root (P.rows (expand I relations hop) frontier) x) ↔
      (∃ k ∈ frontier, Joined I relations hop k x) ∧ x ∉ s.visited := by
    intro x
    constructor
    · rintro ⟨hx, row, hmem, rfl, -⟩
      obtain ⟨k, hk, e, he, hrel, hnear, rfl⟩ := (hrow row).mp hmem
      refine ⟨⟨k, hk, ?_, e, he, hrel, hnear, rfl⟩, hx⟩
      rintro rfl
      exact hx (hvisited _ hk)
    · rintro ⟨⟨k, hk, -, e, he, hrel, hnear, rfl⟩, hx⟩
      refine ⟨hx, _, (hrow _).mpr ⟨k, hk, e, he, hrel, hnear, rfl⟩, rfl, fun hpath => ?_⟩
      rw [path_inj (far_file he).1 hroot hpath] at hx
      exact hx hrootVis
  have hlevel : Level (Joined I relations hop) {root.id} (d + 1) {x | x ∈ sortByKey id s'.next}
      {x | x ∈ s'.visited} := by
    refine h.level.next (fun x => ?_) (fun x => ?_)
    · show x ∈ sortByKey id s'.next ↔ _
      rw [mem_sortByKey]
      exact (hnext x).trans ((or_iff_right List.not_mem_nil).trans (hnew x))
    · show x ∈ s'.visited ↔ x ∈ s.visited ∨ x ∈ sortByKey id s'.next
      rw [mem_sortByKey]
      refine (hvis x).trans (Iff.trans ?_ (or_congr_right (hnext x)).symm)
      have hnil : x ∉ ([] : List ℕ) := List.not_mem_nil
      show x ∈ s.visited ∨ _ ↔ _
      tauto
  refine ⟨hlevel, fun p k => (hfound p k).trans ?_⟩
  rw [h.found]
  constructor
  · rintro (⟨f, hf, hpath, hk, hkd, hdist⟩ | ⟨rfl, f, hf, hpath, hx⟩)
    · exact ⟨f, hf, hpath, hk, by omega, hdist⟩
    · refine ⟨f, hf, hpath, by omega, le_rfl, (hlevel.frontier f.id).mp ?_⟩
      exact mem_sortByKey.mpr ((hnext f.id).mpr (.inr hx))
  · rintro ⟨f, hf, hpath, hk, hkd, hdist⟩
    by_cases hle : k ≤ d
    · exact .inl ⟨f, hf, hpath, hk, hle, hdist⟩
    · obtain rfl : k = d + 1 := by omega
      have hmem : f.id ∈ s'.next := mem_sortByKey.mp ((hlevel.frontier f.id).mpr hdist)
      exact .inr ⟨rfl, f, hf, hpath, ((hnext f.id).mp hmem).resolve_left List.not_mem_nil⟩

/-- **The loop**: the map ends with the files within `left` more levels. -/
theorem lookup_closureLoop (hsyn : ∀ e ∈ I.edges, ¬ Synthetic e) (hroot : root ∈ I.files) (left : ℕ)
    (h : Reached I relations hop root d frontier s) (p : String) (k : ℕ) :
    (closureLoop I root.path relations hop P left (d + 1) frontier s).lookup p = some k ↔
      ∃ f ∈ I.files, f.path = p ∧ 1 ≤ k ∧ k ≤ d + left ∧
        AtDist (Joined I relations hop) {root.id} k f.id := by
  induction left generalizing d frontier s with
  | zero => exact h.found p k
  | succ left ih =>
    unfold closureLoop
    split_ifs with hnil
    · -- Nothing at distance `d`, so nothing farther.
      rw [h.found]
      have hempty : ∀ x, ¬ AtDist (Joined I relations hop) {root.id} d x := by
        intro x hx
        have hmem : x ∈ frontier := (h.level.frontier x).mpr hx
        rw [hnil] at hmem
        cases hmem
      constructor
      · rintro ⟨f, hf, hpath, hk, hkd, hdist⟩
        exact ⟨f, hf, hpath, hk, by omega, hdist⟩
      · rintro ⟨f, hf, hpath, hk, -, hdist⟩
        refine ⟨f, hf, hpath, hk, ?_, hdist⟩
        by_contra hlt
        exact not_atDist_of_empty hempty (by omega) hdist
    · rw [ih (readLevel_reached hsyn hroot h)]
      simp only [Nat.add_assoc, Nat.add_comm 1 left]

end Level

/-! ### The closure -/

section Closure

variable {root : FileRow} {P : Plan ℕ (ℕ × String)} {maxDepth : ℕ}

theorem root_frontier (hroot : root ∈ I.files) :
    (I.files.filter fun f => f.path = root.path).map FileRow.id = [root.id] := by
  have hfilter : I.files.filter (fun f => f.path = root.path) = [root] := by
    have hnodup : (I.files.filter fun f => f.path = root.path).Nodup :=
      (List.Nodup.of_map _ I.file_ids).filter _
    apply List.perm_singleton.mp
    refine (List.perm_ext_iff_of_nodup hnodup (List.nodup_singleton root)).mpr fun f => ?_
    rw [List.mem_filter, List.mem_singleton]
    constructor
    · rintro ⟨hf, hpath⟩
      exact path_inj hf hroot (by simpa using hpath)
    · rintro rfl
      exact ⟨hroot, by simp⟩
  rw [hfilter]
  rfl

theorem reached_root (relations : List Relation) (hop : FileHop) (root : FileRow) :
    Reached I relations hop root 0 [root.id] ⟨{root.id}, ∅, []⟩ := by
  have hset : {x | x ∈ [root.id]} = ({root.id} : Set ℕ) := by
    ext x
    simp
  have hset' : {x | x ∈ ({root.id} : Finset ℕ)} = ({root.id} : Set ℕ) := by
    ext x
    simp
  refine ⟨?_, fun p k => ?_⟩
  · rw [hset]
    show Level _ _ _ _ {x | x ∈ ({root.id} : Finset ℕ)}
    rw [hset']
    exact level_zero
  · constructor
    · intro h
      simp at h
    · rintro ⟨f, -, -, hk, hk0, -⟩
      omega

/-- What `file_closure` returns, before its frontier is named. -/
theorem fileClosure_eq (hroot : root ∈ I.files) :
    fileClosure I root.path relations hop P maxDepth =
      sortByKey Prod.snd (sortByKey Prod.fst
        ((closureLoop I root.path relations hop P maxDepth 1 [root.id]
          ⟨{root.id}, ∅, []⟩).entries.map fun entry => (entry.1, entry.2))) := by
  rw [fileClosure, root_frontier hroot]
  have hsort : sortByKey id [root.id] = [root.id] := rfl
  simp only [hsort, List.cons_ne_nil, if_false]
  rfl

/-- **The closure**: the files at distances `1` to `maxDepth`, each with its distance. -/
theorem mem_fileClosure (hsyn : ∀ e ∈ I.edges, ¬ Synthetic e) (hroot : root ∈ I.files)
    (row : String × ℕ) :
    row ∈ fileClosure I root.path relations hop P maxDepth ↔
      ∃ f ∈ I.files, f.path = row.1 ∧ 1 ≤ row.2 ∧ row.2 ≤ maxDepth ∧
        AtDist (Joined I relations hop) {root.id} row.2 f.id := by
  have hloop := lookup_closureLoop (P := P) hsyn hroot maxDepth
    (reached_root (I := I) relations hop root) row.1 row.2
  simp only [Nat.zero_add] at hloop
  rw [← hloop, fileClosure_eq hroot, mem_sortByKey, mem_sortByKey, List.mem_map,
    ← Option.mem_def, AList.mem_lookup_iff]
  constructor
  · rintro ⟨⟨p, k⟩, hentry, rfl⟩
    exact hentry
  · intro hentry
    exact ⟨⟨row.1, row.2⟩, hentry, rfl⟩

/-- No path twice. -/
theorem fileClosure_paths (hroot : root ∈ I.files) :
    ((fileClosure I root.path relations hop P maxDepth).map Prod.fst).Nodup := by
  rw [fileClosure_eq hroot]
  refine ((((sortByKey_perm _ _).trans (sortByKey_perm _ _)).map Prod.fst).nodup_iff).mpr ?_
  rw [List.map_map]
  exact AList.keys_nodup _

/-- By depth, then by path. -/
theorem fileClosure_sorted (hroot : root ∈ I.files) :
    (fileClosure I root.path relations hop P maxDepth).Pairwise
      fun a b => toLex (a.2, a.1) < toLex (b.2, b.1) := by
  have hpaths : ((fileClosure I root.path relations hop P maxDepth).map Prod.fst).Nodup :=
    fileClosure_paths hroot
  rw [fileClosure_eq hroot] at hpaths ⊢
  rw [((sortByKey_perm Prod.snd _).map Prod.fst).nodup_iff,
    ((sortByKey_perm Prod.fst _).map Prod.fst).nodup_iff] at hpaths
  refine (sortByKey_pairwise (sortByKey_strict hpaths)).imp ?_
  rintro a b (hlt | ⟨heq, hlt⟩)
  · exact Prod.Lex.toLex_lt_toLex.mpr (.inl hlt)
  · exact Prod.Lex.toLex_lt_toLex.mpr (.inr ⟨heq, hlt⟩)

end Closure

/-! ### The recursive query -/

section Legacy

variable {root : FileRow}

/-- The rows of the recursive query are the simple paths from the root. -/
theorem mem_depTree (hroot : root ∈ I.files) (depth : ℕ) (ids : List ℕ) :
    ids ∈ depTree I root.path relations hop depth ↔
      SimplePath (Joined I relations hop) {root.id} ids ∧ ids.length = depth + 1 := by
  induction depth generalizing ids with
  | zero =>
    have hbase : (I.files.filter fun f => f.path = root.path).map (fun f => [f.id]) = [[root.id]] := by
      have h := congrArg (List.map fun id => [id]) (root_frontier hroot)
      rwa [List.map_map] at h
    rw [depTree, hbase]
    simp only [List.mem_toFinset, List.mem_singleton, Nat.zero_add]
    constructor
    · rintro rfl
      exact ⟨.seed rfl, rfl⟩
    · rintro ⟨hpath, hlen⟩
      cases hpath with
      | seed ha => rw [ha]
      | step h hab hnew => simp at hlen
  | succ depth ih =>
    simp only [depTree, Finset.mem_biUnion, ih, Finset.mem_image, Finset.mem_filter]
    constructor
    · rintro ⟨ids, ⟨hpath, hlen⟩, e, ⟨he, hrel, hhead, hne, hnew⟩, rfl⟩
      cases ids with
      | nil => simp at hlen
      | cons a ids =>
        have ha : a = (I.fileOf (hop.near e)).id := by
          rw [← near_fileId he]
          simpa using hhead
        refine ⟨.step hpath ⟨?_, e, he, hrel, ha.symm, rfl⟩ hnew, by simpa using hlen⟩
        rintro rfl
        exact hnew List.mem_cons_self
    · rintro ⟨hpath, hlen⟩
      cases hpath with
      | seed ha => simp at hlen
      | @step a b ids hpath hab hnew =>
        obtain ⟨hne, e, he, hrel, rfl, rfl⟩ := hab
        refine ⟨_, ⟨hpath, by simpa using hlen⟩, e, ⟨he, hrel, ?_, ?_, hnew⟩, rfl⟩
        · rw [near_fileId he]
          simp
        · -- Only the root has its path, and every simple path starts there.
          intro hp
          rw [path_inj (far_file he).1 hroot hp] at hnew
          obtain ⟨x, rfl, hx⟩ := hpath.exists_seed
          exact hnew hx

/-- A path of the query ends at a file, and at the root only before its first step. -/
theorem simplePath_head (hroot : root ∈ I.files) {b : ℕ} {ids : List ℕ}
    (h : SimplePath (Joined I relations hop) {root.id} (b :: ids)) :
    (∃ f ∈ I.files, f.id = b) ∧ (b = root.id ↔ ids = []) := by
  cases h with
  | seed ha => exact ⟨⟨root, hroot, ha.symm⟩, by simpa using ha⟩
  | @step a b ids hpath hab hnew =>
    obtain ⟨-, e, he, -, -, rfl⟩ := hab
    refine ⟨⟨_, (far_file he).1, rfl⟩, ?_⟩
    obtain ⟨x, rfl, hx⟩ := hpath.exists_seed
    constructor
    · intro heq
      rw [heq] at hnew
      exact absurd hx hnew
    · intro hnil
      cases hnil

/-- **The recursive query** finds the same files at the same depths. -/
theorem mem_legacyClosure (hroot : root ∈ I.files) (maxDepth : ℕ) (row : String × ℕ) :
    row ∈ legacyClosure I root.path relations hop maxDepth ↔
      ∃ f ∈ I.files, f.path = row.1 ∧ 1 ≤ row.2 ∧ row.2 ≤ maxDepth ∧
        AtDist (Joined I relations hop) {root.id} row.2 f.id := by
  -- The rows before `GROUP BY`.
  have hrows : ∀ row : String × ℕ,
      (row ∈ (Finset.Icc 1 maxDepth).biUnion fun depth =>
        (depTree I root.path relations hop depth).image fun ids =>
          ((I.file (ids.headD 0)).path, depth)) ↔
      ∃ f ∈ I.files, f.path = row.1 ∧ 1 ≤ row.2 ∧ row.2 ≤ maxDepth ∧
        ∃ ids, SimplePath (Joined I relations hop) {root.id} (f.id :: ids) ∧ ids.length = row.2 := by
    intro row
    simp only [Finset.mem_biUnion, Finset.mem_Icc, Finset.mem_image, mem_depTree hroot]
    constructor
    · rintro ⟨k, ⟨hk, hkm⟩, ids, ⟨hpath, hlen⟩, rfl⟩
      cases ids with
      | nil => simp at hlen
      | cons b ids =>
        obtain ⟨⟨f, hf, rfl⟩, -⟩ := simplePath_head hroot hpath
        refine ⟨f, hf, ?_, hk, hkm, ids, hpath, by simpa using hlen⟩
        rw [List.headD_cons, Index.file_of_mem hf]
    · rintro ⟨f, hf, hp, hk, hkm, ids, hpath, hlen⟩
      refine ⟨row.2, ⟨hk, hkm⟩, f.id :: ids, ⟨hpath, by simpa using hlen⟩, ?_⟩
      rw [List.headD_cons, Index.file_of_mem hf, hp]
  simp only [legacyClosure, Finset.mem_filter]
  rw [hrows]
  constructor
  · rintro ⟨⟨f, hf, hp, hk, hkm, ids, hpath, hlen⟩, hmin⟩
    refine ⟨f, hf, hp, hk, hkm, atDist_iff_simple.mpr ⟨⟨ids, hpath, hlen⟩, fun other hother => ?_⟩⟩
    by_cases hom : other.length ≤ maxDepth
    · have hne : other ≠ [] := by
        rintro rfl
        have hnil : ids = [] := (simplePath_head hroot hpath).2.mp ((simplePath_head hroot hother).2.mpr rfl)
        rw [hnil, List.length_nil] at hlen
        omega
      have hpos : 1 ≤ other.length := List.length_pos_iff.mpr hne
      exact hmin (row.1, other.length) ((hrows _).mpr ⟨f, hf, hp, hpos, hom, other, hother, rfl⟩) rfl
    · omega
  · rintro ⟨f, hf, hp, hk, hkm, hdist⟩
    obtain ⟨hpath, hmin⟩ := atDist_iff_simple.mp hdist
    refine ⟨⟨f, hf, hp, hk, hkm, hpath⟩, fun other hother heq => ?_⟩
    obtain ⟨g, hg, hgp, -, -, ids, hids, hlen⟩ := (hrows other).mp hother
    obtain rfl : g = f := path_inj hg hf (by rw [hgp, hp, heq])
    rw [← hlen]
    exact hmin ids hids

end Legacy

/-! ### The two queries -/

section Queries

variable {root : FileRow} {P : Plan ℕ (ℕ × String)} {maxDepth : ℤ}

theorem clampDepth_eq (maxDepth : ℤ) : (clampDepth maxDepth : ℤ) = min (max maxDepth 1) 10 := by
  unfold clampDepth
  omega

theorem getImportTree_name (hop : FileHop) :
    getImportTree P I root.path hop.name maxDepth =
      .ok (importDeps P I root.path hop (clampDepth maxDepth)) := by
  cases hop with
  | outgoing => simp [getImportTree, FileHop.name]
  | incoming => simp [getImportTree, FileHop.name]

/-- Without synthetic imports the query counts what the subquery counts. -/
theorem crossFileSymbolCounts_eq (hsyn : ∀ e ∈ I.edges, ¬ Synthetic e) (path : String) :
    (crossFileSymbolCounts I root.path relations hop path).getD 0 =
      legacySymbolCount I root.path relations hop path := by
  have htargets : countedTargets I root.path relations hop (fun e => ¬ Synthetic e) path =
      countedTargets I root.path relations hop (fun _ => True) path := by
    unfold countedTargets
    congr 1
    apply Finset.filter_congr
    intro e he
    simp [hsyn e he]
  rw [crossFileSymbolCounts, legacySymbolCount, htargets]
  by_cases hempty : countedTargets I root.path relations hop (fun _ => True) path = ∅
  · simp [hempty]
  · simp [hempty]

/-- A row of `get_import_tree`: a file at its distance, with the oracle's count. -/
theorem mem_importDeps (hsyn : ∀ e ∈ I.edges, ¬ Synthetic e) (hroot : root ∈ I.files) (m : ℕ)
    (r : FileDependency) :
    r ∈ importDeps P I root.path hop m ↔
      r.direction = hop.name ∧
      r.symbolCount = legacySymbolCount I root.path treeRelations hop r.filePath ∧
      ∃ f ∈ I.files, f.path = r.filePath ∧ 1 ≤ r.depth ∧ r.depth ≤ m ∧
        AtDist (Joined I treeRelations hop) {root.id} r.depth f.id := by
  rw [importDeps, mem_sortByKey, List.mem_map]
  constructor
  · rintro ⟨row, hrow, rfl⟩
    exact ⟨rfl, crossFileSymbolCounts_eq hsyn row.1, (mem_fileClosure hsyn hroot row).mp hrow⟩
  · rintro ⟨hdir, hcount, hfile⟩
    refine ⟨(r.filePath, r.depth), (mem_fileClosure hsyn hroot _).mpr hfile, ?_⟩
    cases r
    simp only [FileDependency.mk.injEq]
    exact ⟨trivial, hdir.symm, (crossFileSymbolCounts_eq hsyn _).trans hcount.symm, trivial⟩

theorem importDeps_paths (hroot : root ∈ I.files) (m : ℕ) :
    ((importDeps P I root.path hop m).map FileDependency.filePath).Nodup := by
  rw [importDeps, ((sortByKey_perm _ _).map _).nodup_iff, List.map_map]
  exact fileClosure_paths hroot

theorem importDeps_sorted (hroot : root ∈ I.files) (m : ℕ) :
    (importDeps P I root.path hop m).Pairwise fun a b => a.order < b.order := by
  apply sortByKey_strict
  have hpaths : ((importDeps P I root.path hop m).map FileDependency.filePath).Nodup :=
    importDeps_paths hroot m
  rw [importDeps, ((sortByKey_perm _ _).map _).nodup_iff] at hpaths
  have hfactor : FileDependency.filePath =
      (fun k : ℕ ×ₗ ℕᵒᵈ ×ₗ String => (ofLex (ofLex k).2).2) ∘ FileDependency.order := rfl
  rw [hfactor, ← List.map_map] at hpaths
  exact hpaths.of_map

/-- **The import closure is the shortest distance.** From an indexed file and in either direction,
`get_import_tree` returns the files at distances `1` to `min (max depth 1) 10`, each once and with its
distance, the oracle's rows with the oracle's count, ordered by depth, then by count from high to low, then
by path; `get_reverse_dependents` returns them over its own relations, ordered by depth, then by path. No
row depends on how the frontiers are split or the rows of an answer arrive. -/
theorem import_closure_shortest (hsyn : ∀ e ∈ I.edges, ¬ Synthetic e) (hroot : root ∈ I.files)
    (maxDepth : ℤ) :
    (∀ P : Plan ℕ (ℕ × String), ∀ hop : FileHop, ∃ rows,
      getImportTree P I root.path hop.name maxDepth = .ok rows ∧
      (∀ r, r ∈ rows ↔ r.direction = hop.name ∧
        r.symbolCount = legacySymbolCount I root.path treeRelations hop r.filePath ∧
        ∃ f ∈ I.files, f.path = r.filePath ∧ 1 ≤ r.depth ∧
          (r.depth : ℤ) ≤ min (max maxDepth 1) 10 ∧
          AtDist (Joined I treeRelations hop) {root.id} r.depth f.id) ∧
      rows.toFinset = legacyImportTree I root.path hop maxDepth ∧
      (rows.map FileDependency.filePath).Nodup ∧
      rows.Pairwise (fun a b => a.order < b.order)) ∧
    (∀ P : Plan ℕ (ℕ × String),
      (∀ row, row ∈ getReverseDependents P I root.path maxDepth ↔
        ∃ f ∈ I.files, f.path = row.1 ∧ 1 ≤ row.2 ∧ (row.2 : ℤ) ≤ min (max maxDepth 1) 10 ∧
          AtDist (Joined I affectedRelations .incoming) {root.id} row.2 f.id) ∧
      (getReverseDependents P I root.path maxDepth).toFinset =
        legacyReverseDependents I root.path maxDepth ∧
      ((getReverseDependents P I root.path maxDepth).map Prod.fst).Nodup ∧
      (getReverseDependents P I root.path maxDepth).Pairwise
        fun a b => toLex (a.2, a.1) < toLex (b.2, b.1)) ∧
    ∀ P P' : Plan ℕ (ℕ × String),
      (∀ hop : FileHop, getImportTree P I root.path hop.name maxDepth =
        getImportTree P' I root.path hop.name maxDepth) ∧
      getReverseDependents P I root.path maxDepth = getReverseDependents P' I root.path maxDepth := by
  -- the clamp of the code is the claimed range of depths
  have hclamp : ∀ k : ℕ, k ≤ clampDepth maxDepth ↔ (k : ℤ) ≤ min (max maxDepth 1) 10 := by
    intro k
    rw [← clampDepth_eq, Int.ofNat_le]
  refine ⟨fun P hop => ?_, fun P => ⟨?_, ?_, fileClosure_paths hroot, fileClosure_sorted hroot⟩,
    fun P P' => ⟨fun hop => ?_, ?_⟩⟩
  · refine ⟨importDeps P I root.path hop (clampDepth maxDepth), getImportTree_name hop, ?_, ?_,
      importDeps_paths hroot _, importDeps_sorted hroot _⟩
    · intro r
      rw [mem_importDeps hsyn hroot]
      simp only [hclamp]
    · ext r
      rw [List.mem_toFinset, mem_importDeps hsyn hroot, legacyImportTree, Finset.mem_image]
      simp only [mem_legacyClosure hroot]
      constructor
      · rintro ⟨hdir, hcount, hfile⟩
        refine ⟨(r.filePath, r.depth), hfile, ?_⟩
        cases r
        simp only [FileDependency.mk.injEq]
        exact ⟨trivial, hdir.symm, hcount.symm, trivial⟩
      · rintro ⟨row, hfile, rfl⟩
        exact ⟨rfl, rfl, hfile⟩
  · intro row
    rw [getReverseDependents, mem_fileClosure hsyn hroot]
    simp only [hclamp]
  · ext row
    rw [List.mem_toFinset, getReverseDependents, mem_fileClosure hsyn hroot,
      legacyReverseDependents, mem_legacyClosure hroot]
  · -- two plans have the same rows in one strict order
    rw [getImportTree_name, getImportTree_name]
    congr 1
    exact eq_of_strict (importDeps_sorted hroot _) (importDeps_sorted hroot _)
      fun r => by rw [mem_importDeps hsyn hroot, mem_importDeps hsyn hroot]
  · exact eq_of_strict (k := fun a => toLex (a.2, a.1)) (fileClosure_sorted hroot)
      (fileClosure_sorted hroot)
      fun row => (mem_fileClosure hsyn hroot row).trans (mem_fileClosure hsyn hroot row).symm

/-- The root imports two symbols of `b.ts` and one of `a.ts`, and `a.ts` imports the root. -/
def twoImports : Index where
  files := [⟨1, "root.ts", none⟩, ⟨2, "a.ts", none⟩, ⟨3, "b.ts", none⟩]
  nodes := [⟨1, 1, "module", "<module>", ""⟩, ⟨2, 2, "function", "f", ""⟩,
    ⟨3, 3, "function", "g", ""⟩, ⟨4, 3, "function", "h", ""⟩]
  edges := {.new 1 2 .imports none, .new 1 3 .imports none, .new 1 4 .imports none,
    .new 2 1 .imports none}
  file_ids := by decide
  file_paths := by decide
  node_ids := by decide
  node_file := by decide
  edge_source := by decide
  edge_target := by decide
  edge_key := by decide

theorem import_closure_of_twoImports :
    (∀ e ∈ twoImports.edges, ¬ Synthetic e) ∧
    getReverseDependents planInOrder twoImports "root.ts" 3 = [("a.ts", 1)] ∧
    (getReverseDependents planInOrder twoImports "root.ts" 3).toFinset =
      legacyReverseDependents twoImports "root.ts" 3 := by
  have hsyn : ∀ e ∈ twoImports.edges, ¬ Synthetic e := by decide +kernel
  refine ⟨hsyn, by decide +kernel, ?_⟩
  exact ((@import_closure_shortest twoImports ⟨1, "root.ts", none⟩ hsyn (by decide) 3).2.1
    planInOrder).2.1

/-- `get_import_tree` lists a file with more symbols before one whose path comes first. -/
theorem import_tree_not_by_path :
    ∃ rows, getImportTree planInOrder twoImports "root.ts" "outgoing" 1 = .ok rows ∧
      rows.map (fun r => (r.filePath, r.symbolCount, r.depth)) = [("b.ts", 2, 1), ("a.ts", 1, 1)] ∧
      ¬ rows.Pairwise fun a b => toLex (a.depth, a.filePath) < toLex (b.depth, b.filePath) := by
  refine ⟨[⟨"b.ts", "outgoing", 2, 1⟩, ⟨"a.ts", "outgoing", 1, 1⟩], ?_, by decide, by decide⟩
  decide +kernel

end Queries

end CodeGraph.Storage.Imports
