import CodeGraph.Search.Correct.Fusion

/-!
# What the fused list depends on

The fused list is fixed by the ids and by the score of each of them (`weightedRrfFusion_congr`), and the score is the
sum of what either source gives for the rank of the id (`scoreOf_fusedScores`). So the two sources can change places,
and a factor on the raw scores of one does not show (`given_scaled`). When a result moves up in its source, its own
score rises and those it passes fall (`given_raised`), so nothing gets ahead of it.
-/

namespace CodeGraph.Search.Fusion

open CodeGraph.Lib

variable {results results' rest scores fts vec fts' vec' : List SearchResult} {k topK rank : ℕ}
  {weight ftsWeight vecWeight x c : ℚ} {r s : SearchResult} {id other : ℤ}

/-! ### The score of an id -/

def scoreOf (id : ℤ) : List SearchResult → ℚ
  | [] => 0
  | r :: rest => if r.nodeId = id then r.score else scoreOf id rest

theorem scoreOf_addScore (id other : ℤ) (x : ℚ) (scores : List SearchResult) :
    scoreOf other (addScore id x scores) = scoreOf other scores + if other = id then x else 0 := by
  induction scores with
  | nil =>
    rw [addScore, scoreOf, scoreOf, scoreOf, zero_add, zero_add]
    exact if_congr eq_comm rfl rfl
  | cons r scores ih =>
    rw [addScore]
    by_cases hr : r.nodeId = id
    · rw [if_pos hr, scoreOf, scoreOf, hr]
      by_cases hid : id = other
      · rw [if_pos hid, if_pos hid, if_pos hid.symm]
      · rw [if_neg hid, if_neg hid, if_neg (Ne.symm hid), add_zero]
    · rw [if_neg hr, scoreOf, scoreOf, ih]
      by_cases hother : r.nodeId = other
      · rw [if_pos hother, if_pos hother, if_neg (hother ▸ hr), add_zero]
      · rw [if_neg hother, if_neg hother]

theorem mem_ids_addScore :
    other ∈ (addScore id x scores).map SearchResult.nodeId ↔ other = id ∨ other ∈ scores.map SearchResult.nodeId := by
  induction scores with
  | nil => simp [addScore]
  | cons r scores ih =>
    rw [addScore]
    by_cases hr : r.nodeId = id
    · rw [if_pos hr, List.map_cons, List.map_cons, List.mem_cons, List.mem_cons, hr]
      tauto
    · rw [if_neg hr, List.map_cons, List.map_cons, List.mem_cons, List.mem_cons, ih]
      tauto

theorem nodup_addScore (h : (scores.map SearchResult.nodeId).Nodup) :
    ((addScore id x scores).map SearchResult.nodeId).Nodup := by
  induction scores with
  | nil => simp [addScore]
  | cons r scores ih =>
    rw [List.map_cons, List.nodup_cons] at h
    rw [addScore]
    by_cases hr : r.nodeId = id
    · rw [if_pos hr, List.map_cons, List.nodup_cons]
      exact ⟨hr ▸ h.1, h.2⟩
    · rw [if_neg hr, List.map_cons, List.nodup_cons, mem_ids_addScore, not_or]
      exact ⟨⟨hr, h.1⟩, ih h.2⟩

/-- An entry of the map is the one of its id. -/
theorem mem_scores_iff (h : (scores.map SearchResult.nodeId).Nodup) :
    r ∈ scores ↔ r.nodeId ∈ scores.map SearchResult.nodeId ∧ r.score = scoreOf r.nodeId scores := by
  induction scores with
  | nil => simp
  | cons s scores ih =>
    rw [List.map_cons, List.nodup_cons] at h
    rw [List.mem_cons, List.map_cons, List.mem_cons, scoreOf, ih h.2]
    constructor
    · rintro (rfl | ⟨hmem, hscore⟩)
      · exact ⟨.inl rfl, (if_pos rfl).symm⟩
      · have hne : s.nodeId ≠ r.nodeId := fun heq => h.1 (heq ▸ hmem)
        exact ⟨.inr hmem, by rw [if_neg hne, hscore]⟩
    · rintro ⟨hmem, hscore⟩
      by_cases hid : s.nodeId = r.nodeId
      · rw [if_pos hid] at hscore
        refine .inl ?_
        rcases r with ⟨nodeId, score⟩
        rcases s with ⟨nodeId', score'⟩
        rw [show nodeId' = nodeId from hid, show score = score' from hscore]
      · rw [if_neg hid] at hscore
        exact .inr ⟨hmem.resolve_left (Ne.symm hid), hscore⟩

/-! ### What a source gives -/

/-- What the results from a rank on give to an id. -/
def given (k : ℕ) (weight : ℚ) (results : List SearchResult) (id : ℤ) : ℕ → List SearchResult → ℚ
  | _, [] => 0
  | rank, r :: rest => (if id = r.nodeId then sourceScore k weight results rank r else 0) +
      given k weight results id (rank + 1) rest

theorem scoreOf_addSource (k : ℕ) (weight : ℚ) (results rest scores : List SearchResult) (id : ℤ) (rank : ℕ) :
    scoreOf id (addSource k weight results rank rest scores) = scoreOf id scores + given k weight results id rank rest := by
  induction rest generalizing rank scores with
  | nil => rw [addSource, given, add_zero]
  | cons r rest ih => rw [addSource, ih, scoreOf_addScore, given, add_assoc]

theorem mem_ids_addSource : id ∈ (addSource k weight results rank rest scores).map SearchResult.nodeId ↔
    id ∈ scores.map SearchResult.nodeId ∨ id ∈ rest.map SearchResult.nodeId := by
  induction rest generalizing rank scores with
  | nil => simp [addSource]
  | cons r rest ih =>
    rw [addSource, ih, mem_ids_addScore, List.map_cons, List.mem_cons]
    tauto

theorem nodup_addSource (h : (scores.map SearchResult.nodeId).Nodup) :
    ((addSource k weight results rank rest scores).map SearchResult.nodeId).Nodup := by
  induction rest generalizing rank scores with
  | nil => exact h
  | cons r rest ih => exact ih (nodup_addScore h)

theorem given_append (k : ℕ) (weight : ℚ) (results : List SearchResult) (id : ℤ) (rank : ℕ)
    (rest rest' : List SearchResult) :
    given k weight results id rank (rest ++ rest') =
      given k weight results id rank rest + given k weight results id (rank + rest.length) rest' := by
  induction rest generalizing rank with
  | nil => rw [List.nil_append, given, zero_add, List.length_nil, Nat.add_zero]
  | cons r rest ih =>
    have hrank : rank + (r :: rest).length = rank + 1 + rest.length := by
      rw [List.length_cons]
      omega
    rw [List.cons_append, given, given, ih, hrank]
    exact (add_assoc _ _ _).symm

theorem given_of_notMem (h : id ∉ rest.map SearchResult.nodeId) : given k weight results id rank rest = 0 := by
  induction rest generalizing rank with
  | nil => rfl
  | cons r rest ih =>
    rw [List.map_cons, List.mem_cons, not_or] at h
    rw [given, if_neg h.1, ih h.2, zero_add]

/-! ### The two sources -/

/-- The entries of the map after both loops. -/
def fusedScores (k : ℕ) (ftsWeight vecWeight : ℚ) (fts vec : List SearchResult) : List SearchResult :=
  addSource k vecWeight vec 0 vec (addSource k ftsWeight fts 0 fts [])

theorem weightedRrfFusion_eq : weightedRrfFusion fts vec k topK ftsWeight vecWeight =
    (sortByKey fusedKey (fusedScores k ftsWeight vecWeight fts vec)).take topK := rfl

theorem nodup_fusedScores (k : ℕ) (ftsWeight vecWeight : ℚ) (fts vec : List SearchResult) :
    ((fusedScores k ftsWeight vecWeight fts vec).map SearchResult.nodeId).Nodup :=
  nodup_addSource (nodup_addSource List.nodup_nil)

theorem mem_ids_fusedScores (k : ℕ) (ftsWeight vecWeight : ℚ) : id ∈ (fusedScores k ftsWeight vecWeight fts vec).map SearchResult.nodeId ↔
    id ∈ fts.map SearchResult.nodeId ∨ id ∈ vec.map SearchResult.nodeId := by
  rw [fusedScores, mem_ids_addSource, mem_ids_addSource]
  simp

theorem scoreOf_fusedScores (k : ℕ) (ftsWeight vecWeight : ℚ) (fts vec : List SearchResult) (id : ℤ) :
    scoreOf id (fusedScores k ftsWeight vecWeight fts vec) =
      given k ftsWeight fts id 0 fts + given k vecWeight vec id 0 vec := by
  rw [fusedScores, scoreOf_addSource, scoreOf_addSource, scoreOf, zero_add]

theorem nodup_map_fusedKey (h : (scores.map SearchResult.nodeId).Nodup) : (scores.map fusedKey).Nodup := by
  refine List.Nodup.of_map (fun key => (ofLex key).2) ?_
  rw [List.map_map]
  exact h

theorem fusedKey_lt : fusedKey r < fusedKey s ↔ s.score < r.score ∨ s.score = r.score ∧ r.nodeId < s.nodeId := by
  rw [fusedKey, fusedKey, Prod.Lex.toLex_lt_toLex]
  refine or_congr OrderDual.toDual_lt_toDual (and_congr_left fun _ => ?_)
  rw [OrderDual.toDual_inj]
  exact eq_comm

theorem sorted_fusedScores (k : ℕ) (ftsWeight vecWeight : ℚ) (fts vec : List SearchResult) :
    (sortByKey fusedKey (fusedScores k ftsWeight vecWeight fts vec)).Pairwise fun a b => fusedKey a < fusedKey b :=
  sortByKey_strict (nodup_map_fusedKey (nodup_fusedScores k ftsWeight vecWeight fts vec))

/-- The ids and their scores fix the list. -/
theorem weightedRrfFusion_congr {ftsWeight' vecWeight' : ℚ}
    (hids : ∀ id, id ∈ fts.map SearchResult.nodeId ∨ id ∈ vec.map SearchResult.nodeId ↔
      id ∈ fts'.map SearchResult.nodeId ∨ id ∈ vec'.map SearchResult.nodeId)
    (hscores : ∀ id, given k ftsWeight fts id 0 fts + given k vecWeight vec id 0 vec =
      given k ftsWeight' fts' id 0 fts' + given k vecWeight' vec' id 0 vec') (topK : ℕ) :
    weightedRrfFusion fts vec k topK ftsWeight vecWeight = weightedRrfFusion fts' vec' k topK ftsWeight' vecWeight' := by
  rw [weightedRrfFusion_eq, weightedRrfFusion_eq]
  congr 1
  refine eq_of_strict (sorted_fusedScores ..) (sorted_fusedScores ..) fun r => ?_
  rw [mem_sortByKey, mem_sortByKey, mem_scores_iff (nodup_fusedScores ..), mem_scores_iff (nodup_fusedScores ..),
    mem_ids_fusedScores, mem_ids_fusedScores, scoreOf_fusedScores, scoreOf_fusedScores, hids, hscores]

/-! ### A factor on the raw scores -/

/-- The raw scores of a source, all multiplied with one factor. -/
def scaled (c : ℚ) (results : List SearchResult) : List SearchResult := results.map fun r => ⟨r.nodeId, c * r.score⟩

theorem map_nodeId_scaled : (scaled c results).map SearchResult.nodeId = results.map SearchResult.nodeId := by
  rw [scaled, List.map_map]
  rfl

theorem sourceMax_scaled (hc : 0 < c) (results : List SearchResult) :
    sourceMax (scaled c results) = c * sourceMax results := by
  have hfold : ∀ (l : List SearchResult) (m : ℚ),
      (scaled c l).foldl (fun m r => max m r.score) (c * m) = c * l.foldl (fun m r => max m r.score) m := by
    intro l
    induction l with
    | nil => exact fun m => rfl
    | cons r l ih =>
      intro m
      show (scaled c l).foldl (fun m r => max m r.score) (max (c * m) (c * r.score)) = _
      rw [← mul_max_of_nonneg _ _ hc.le, ih, List.foldl_cons]
  have hzero := hfold results 0
  rwa [mul_zero] at hzero

theorem share_scaled (hc : 0 < c) (results : List SearchResult) (r : SearchResult) :
    share (scaled c results) ⟨r.nodeId, c * r.score⟩ = share results r := by
  unfold share
  rw [sourceMax_scaled hc]
  refine if_congr (mul_pos_iff_of_pos_left hc) ?_ rfl
  have hmax : max (c * r.score) 0 = c * max r.score 0 := by rw [mul_max_of_nonneg _ _ hc.le, mul_zero]
  rw [hmax]
  exact mul_div_mul_left _ _ hc.ne'

theorem given_scaled (hc : 0 < c) (k : ℕ) (weight : ℚ) (results rest : List SearchResult) (id : ℤ) (rank : ℕ) :
    given k weight (scaled c results) id rank (scaled c rest) = given k weight results id rank rest := by
  induction rest generalizing rank with
  | nil => rfl
  | cons r rest ih =>
    show (if id = r.nodeId then sourceScore k weight (scaled c results) rank ⟨r.nodeId, c * r.score⟩ else 0) +
      given k weight (scaled c results) id (rank + 1) (scaled c rest) = _
    rw [ih, given, sourceScore, sourceScore, share_scaled hc]

/-! ### A result that moves up in its source -/

theorem sourceMax_perm (h : results.Perm results') : sourceMax results = sourceMax results' := by
  have : RightCommutative fun (m : ℚ) (r : SearchResult) => max m r.score := ⟨fun m r s => max_right_comm _ _ _⟩
  exact h.foldl_eq 0

theorem given_congr (h : sourceMax results = sourceMax results') (k : ℕ) (weight : ℚ) (id : ℤ) (rank : ℕ)
    (rest : List SearchResult) : given k weight results id rank rest = given k weight results' id rank rest := by
  induction rest generalizing rank with
  | nil => rfl
  | cons r rest ih => rw [given, given, ih, sourceScore, sourceScore, share, share, h]

theorem sourceScore_anti (hweight : 0 < weight) (results : List SearchResult) (r : SearchResult) {rank' : ℕ}
    (h : rank ≤ rank') : sourceScore k weight results rank' r ≤ sourceScore k weight results rank r := by
  have hcast : (rank : ℚ) ≤ rank' := Nat.cast_le.mpr h
  have hpos : (0 : ℚ) < k + rank + 1 := by positivity
  unfold sourceScore
  gcongr

theorem given_anti (hweight : 0 < weight) (results rest : List SearchResult) (id : ℤ) {rank' : ℕ} (h : rank ≤ rank') :
    given k weight results id rank' rest ≤ given k weight results id rank rest := by
  induction rest generalizing rank rank' with
  | nil => exact le_rfl
  | cons r rest ih =>
    rw [given, given]
    refine add_le_add ?_ (ih (Nat.succ_le_succ h))
    split_ifs with hid
    · exact sourceScore_anti hweight results r h
    · exact le_rfl

variable {front passed back : List SearchResult}

theorem raised_perm (front passed back : List SearchResult) (r : SearchResult) :
    (front ++ r :: (passed ++ back)).Perm (front ++ (passed ++ r :: back)) :=
  List.Perm.append_left front List.perm_middle.symm

/-- Its own score rises. -/
theorem le_given_raised (hweight : 0 < weight)
    (h : ((front ++ (passed ++ r :: back)).map SearchResult.nodeId).Nodup) :
    given k weight (front ++ (passed ++ r :: back)) r.nodeId 0 (front ++ (passed ++ r :: back)) ≤
      given k weight (front ++ r :: (passed ++ back)) r.nodeId 0 (front ++ r :: (passed ++ back)) := by
  have hmax := sourceMax_perm (raised_perm front passed back r)
  have hother : r.nodeId ∉ passed.map SearchResult.nodeId := by
    rw [List.map_append, List.map_append, List.map_cons] at h
    intro hmem
    have htail := (List.nodup_append.mp h).2.1
    exact (List.nodup_append.mp htail).2.2 _ hmem _ (by simp) rfl
  rw [given_congr hmax, given_append, given_append, given_append, given, given, given_append, if_pos rfl, if_pos rfl,
    given_of_notMem hother, given_of_notMem hother, zero_add, zero_add]
  refine add_le_add (le_refl _) (add_le_add ?_ (le_of_eq ?_))
  · exact sourceScore_anti hweight _ r (Nat.le_add_right _ _)
  · rw [Nat.add_right_comm, zero_add]

/-- The score of no other id does. -/
theorem given_raised_le (hweight : 0 < weight) (hid : id ≠ r.nodeId) :
    given k weight (front ++ r :: (passed ++ back)) id 0 (front ++ r :: (passed ++ back)) ≤
      given k weight (front ++ (passed ++ r :: back)) id 0 (front ++ (passed ++ r :: back)) := by
  have hmax := sourceMax_perm (raised_perm front passed back r)
  rw [given_congr hmax, given_append, given_append, given_append, given, given, given_append, if_neg hid, if_neg hid,
    zero_add, zero_add]
  refine add_le_add (le_refl _) (add_le_add ?_ (le_of_eq ?_))
  · exact given_anti hweight _ passed id (Nat.le_succ _)
  · rw [Nat.add_right_comm, zero_add]

/-- With the same ids, an id that gets no less while no other gets more keeps its place or a better one. -/
theorem idxOf_weightedRrfFusion_le
    (hids : ∀ id, id ∈ fts'.map SearchResult.nodeId ∨ id ∈ vec'.map SearchResult.nodeId ↔
      id ∈ fts.map SearchResult.nodeId ∨ id ∈ vec.map SearchResult.nodeId)
    (hid : id ∈ fts.map SearchResult.nodeId ∨ id ∈ vec.map SearchResult.nodeId)
    (hrises : given k ftsWeight fts id 0 fts + given k vecWeight vec id 0 vec ≤
      given k ftsWeight fts' id 0 fts' + given k vecWeight vec' id 0 vec')
    (hothers : ∀ other, other ≠ id → given k ftsWeight fts' other 0 fts' + given k vecWeight vec' other 0 vec' ≤
      given k ftsWeight fts other 0 fts + given k vecWeight vec other 0 vec) (topK : ℕ) :
    ((weightedRrfFusion fts' vec' k topK ftsWeight vecWeight).map SearchResult.nodeId).idxOf id ≤
      ((weightedRrfFusion fts vec k topK ftsWeight vecWeight).map SearchResult.nodeId).idxOf id := by
  simp only [← scoreOf_fusedScores] at hrises hothers
  simp only [← mem_ids_fusedScores k ftsWeight vecWeight] at hids hid
  have hmem : ∀ (fts vec : List SearchResult) (id : ℤ),
      id ∈ (fusedScores k ftsWeight vecWeight fts vec).map SearchResult.nodeId →
        (⟨id, scoreOf id (fusedScores k ftsWeight vecWeight fts vec)⟩ : SearchResult) ∈
          sortByKey fusedKey (fusedScores k ftsWeight vecWeight fts vec) := fun fts vec id h =>
    mem_sortByKey.mpr ((mem_scores_iff (nodup_fusedScores ..)).mpr ⟨h, rfl⟩)
  have hnodup : ∀ fts vec : List SearchResult,
      ((sortByKey fusedKey (fusedScores k ftsWeight vecWeight fts vec)).map SearchResult.nodeId).Nodup :=
    fun fts vec => ((sortByKey_perm _ _).map _).nodup_iff.mpr (nodup_fusedScores ..)
  rw [weightedRrfFusion_eq, weightedRrfFusion_eq, List.map_take, List.map_take, idxOf_take, idxOf_take]
  refine min_le_min_left _ ?_
  refine idxOf_map_le (sorted_fusedScores ..) (sorted_fusedScores ..) (hnodup ..) (hnodup ..) (hmem fts vec id hid)
    (hmem fts' vec' id ((hids id).mpr hid)) fun b hb hlt => ?_
  -- what is ahead of the id now has had at least the score it has now
  rw [mem_sortByKey, mem_scores_iff (nodup_fusedScores ..)] at hb
  obtain ⟨hbmem, hbscore⟩ := hb
  refine ⟨_, hmem fts vec b.nodeId ((hids _).mp hbmem), rfl, ?_⟩
  rw [fusedKey_lt] at hlt ⊢
  have hne : b.nodeId ≠ id := by
    intro heq
    rw [hbscore, heq] at hlt
    exact hlt.elim (lt_irrefl _) fun h => lt_irrefl _ h.2
  have hb' := hothers b.nodeId hne
  rw [hbscore] at hlt
  rcases hlt with hlt | ⟨heq, hlt⟩
  · exact .inl (hrises.trans_lt (hlt.trans_le hb'))
  · rcases (hrises.trans (heq.le.trans hb')).lt_or_eq with h | h
    · exact .inl h
    · exact .inr ⟨h, hlt⟩

/-! ### The laws -/

/-- A source with one of its results before those that were ahead of it. -/
theorem ids_raised (front passed back : List SearchResult) (r : SearchResult) (id : ℤ) :
    id ∈ (front ++ r :: (passed ++ back)).map SearchResult.nodeId ↔
      id ∈ (front ++ (passed ++ r :: back)).map SearchResult.nodeId :=
  ((raised_perm front passed back r).map _).mem_iff

/-- Every id once, from the largest score and then the smallest id; the sources with their weights in either order, the
raw scores of one in any unit; the shorter list as the beginning of the longer; and no worse a place for a result that
moves up in its source. -/
theorem weightedRrfFusion_laws (k : ℕ) (ftsWeight vecWeight : ℚ) (hfts : 0 < ftsWeight) (hvec : 0 < vecWeight)
    (fts vec : List SearchResult) (hftsIds : (fts.map SearchResult.nodeId).Nodup)
    (hvecIds : (vec.map SearchResult.nodeId).Nodup) :
    (∀ topK, ((weightedRrfFusion fts vec k topK ftsWeight vecWeight).map SearchResult.nodeId).Nodup ∧
      (weightedRrfFusion fts vec k topK ftsWeight vecWeight).Pairwise
        fun a b => b.score < a.score ∨ b.score = a.score ∧ a.nodeId < b.nodeId) ∧
    (∀ topK, fts.length + vec.length ≤ topK → ∀ id,
      id ∈ (weightedRrfFusion fts vec k topK ftsWeight vecWeight).map SearchResult.nodeId ↔
        id ∈ fts.map SearchResult.nodeId ∨ id ∈ vec.map SearchResult.nodeId) ∧
    (∀ topK, weightedRrfFusion vec fts k topK vecWeight ftsWeight =
      weightedRrfFusion fts vec k topK ftsWeight vecWeight) ∧
    (∀ c topK, 0 < c →
      weightedRrfFusion (scaled c fts) vec k topK ftsWeight vecWeight =
          weightedRrfFusion fts vec k topK ftsWeight vecWeight ∧
        weightedRrfFusion fts (scaled c vec) k topK ftsWeight vecWeight =
          weightedRrfFusion fts vec k topK ftsWeight vecWeight) ∧
    (∀ topK limit, topK ≤ limit → weightedRrfFusion fts vec k topK ftsWeight vecWeight =
      (weightedRrfFusion fts vec k limit ftsWeight vecWeight).take topK) ∧
    (∀ topK front passed back r, fts = front ++ (passed ++ r :: back) →
      ((weightedRrfFusion (front ++ r :: (passed ++ back)) vec k topK ftsWeight vecWeight).map
          SearchResult.nodeId).idxOf r.nodeId ≤
        ((weightedRrfFusion fts vec k topK ftsWeight vecWeight).map SearchResult.nodeId).idxOf r.nodeId) ∧
    (∀ topK front passed back r, vec = front ++ (passed ++ r :: back) →
      ((weightedRrfFusion fts (front ++ r :: (passed ++ back)) k topK ftsWeight vecWeight).map
          SearchResult.nodeId).idxOf r.nodeId ≤
        ((weightedRrfFusion fts vec k topK ftsWeight vecWeight).map SearchResult.nodeId).idxOf r.nodeId) := by
  refine ⟨fun topK => ⟨?_, ?_⟩, fun topK htopK id => ?_, fun topK => ?_, fun c topK hc => ⟨?_, ?_⟩,
    fun topK limit hle => ?_, ?_, ?_⟩
  · rw [weightedRrfFusion_eq, List.map_take]
    refine List.Nodup.sublist (List.take_sublist _ _) ?_
    exact ((sortByKey_perm _ _).map _).nodup_iff.mpr (nodup_fusedScores ..)
  · rw [weightedRrfFusion_eq]
    exact ((sorted_fusedScores k ftsWeight vecWeight fts vec).imp fun h => fusedKey_lt.mp h).take
  · -- there are no more entries than results
    have hlength : (fusedScores k ftsWeight vecWeight fts vec).length ≤ fts.length + vec.length := by
      have hsub : (fusedScores k ftsWeight vecWeight fts vec).map SearchResult.nodeId ⊆
          (fts ++ vec).map SearchResult.nodeId := by
        intro id hid
        rw [List.map_append, List.mem_append]
        exact (mem_ids_fusedScores k ftsWeight vecWeight).mp hid
      have hle := ((nodup_fusedScores k ftsWeight vecWeight fts vec).subperm hsub).length_le
      rwa [List.length_map, List.length_map, List.length_append] at hle
    have hall : (sortByKey fusedKey (fusedScores k ftsWeight vecWeight fts vec)).length ≤ topK := by
      rw [(sortByKey_perm _ _).length_eq]
      omega
    rw [weightedRrfFusion_eq, List.take_of_length_le hall, ((sortByKey_perm _ _).map _).mem_iff, mem_ids_fusedScores]
  · exact weightedRrfFusion_congr (fun id => or_comm) (fun id => add_comm _ _) topK
  · refine weightedRrfFusion_congr (fun id => ?_) (fun id => ?_) topK
    · rw [map_nodeId_scaled]
    · rw [given_scaled hc]
  · refine weightedRrfFusion_congr (fun id => ?_) (fun id => ?_) topK
    · rw [map_nodeId_scaled]
    · rw [given_scaled hc]
  · rw [weightedRrfFusion_eq, weightedRrfFusion_eq, List.take_take, Nat.min_eq_left hle]
  · rintro topK front passed back r rfl
    refine idxOf_weightedRrfFusion_le (fun id => or_congr_left (ids_raised front passed back r id)) (.inl (by simp)) ?_
      (fun other hother => ?_) topK
    · exact add_le_add_left (le_given_raised hfts hftsIds) _
    · exact add_le_add_left (given_raised_le hfts hother) _
  · rintro topK front passed back r rfl
    refine idxOf_weightedRrfFusion_le (fun id => or_congr_right (ids_raised front passed back r id)) (.inr (by simp)) ?_
      (fun other hother => ?_) topK
    · exact add_le_add_right (le_given_raised hvec hvecIds) _
    · exact add_le_add_right (given_raised_le hvec hother) _

/-- The second result of a source moves to its front, and from the last place of the fusion to the first. -/
theorem weightedRrfFusion_laws_raised :
    let before := (weightedRrfFusion [⟨1, 1⟩, ⟨2, 1⟩] [⟨3, 1⟩] 60 5 1 1).map SearchResult.nodeId
    let after := (weightedRrfFusion [⟨2, 1⟩, ⟨1, 1⟩] [⟨3, 1⟩] 60 5 1 1).map SearchResult.nodeId
    before.idxOf 2 = 2 ∧ after.idxOf 2 = 0 ∧ after.idxOf 2 ≤ before.idxOf 2 := by
  intro before after
  have hlaws := weightedRrfFusion_laws 60 1 1 one_pos one_pos [⟨1, 1⟩, ⟨2, 1⟩] [⟨3, 1⟩] (by decide) (by decide)
  have hraised := hlaws.2.2.2.2.2.1 5 [] [⟨1, 1⟩] [] ⟨2, 1⟩ rfl
  exact ⟨by decide +kernel, by decide +kernel, hraised⟩

end CodeGraph.Search.Fusion
