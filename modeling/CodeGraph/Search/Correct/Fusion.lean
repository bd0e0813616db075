import CodeGraph.Search.Fusion
import Mathlib.Tactic.FieldSimp
import Mathlib.Tactic.Linarith
import Mathlib.Tactic.Positivity
import Mathlib.Tactic.Ring

/-!
# When the blend leaves the order of a source alone

The blend adds up to half of the gap between the first two ranks. Further down the gaps are smaller and the blend is
not, so it can move a result past another: `fused_iff` says for a source on its own which results keep their ranks.
A ranking that is short enough keeps them whatever its raw scores are (`keepsRanks_of_length`).
-/

namespace CodeGraph.Search.Fusion

open CodeGraph.Lib

variable {results rest scores : List SearchResult} {k n topK : ℕ} {weight : ℚ} {r : SearchResult} {id : ℤ} {x : ℚ}

/-- The scores of a source on its own. -/
def fused (k : ℕ) (weight : ℚ) (results : List SearchResult) : List SearchResult :=
  results.mapIdx fun rank r => ⟨r.nodeId, sourceScore k weight results rank r⟩

theorem addScore_of_notMem (h : id ∉ scores.map SearchResult.nodeId) : addScore id x scores = scores ++ [⟨id, x⟩] := by
  induction scores with
  | nil =>
    rw [addScore, zero_add]
    rfl
  | cons r scores ih =>
    rw [List.map_cons, List.mem_cons, not_or] at h
    rw [addScore, if_neg (Ne.symm h.1), ih h.2]
    rfl

/-- With distinct ids no entry is met twice. -/
theorem addSource_eq (h : ((scores ++ rest).map SearchResult.nodeId).Nodup) (rank : ℕ) :
    addSource k weight results rank rest scores =
      scores ++ rest.mapIdx fun i r => ⟨r.nodeId, sourceScore k weight results (rank + i) r⟩ := by
  induction rest generalizing rank scores with
  | nil => simp [addSource]
  | cons r rest ih =>
    have hnew : r.nodeId ∉ scores.map SearchResult.nodeId := by
      rw [List.map_append, List.nodup_append] at h
      exact fun hmem => h.2.2 _ hmem r.nodeId (by simp) rfl
    rw [addSource, addScore_of_notMem hnew, ih ?_ (rank + 1), List.mapIdx_cons, List.append_assoc]
    · simp only [List.singleton_append, Nat.add_zero, Nat.add_assoc, Nat.add_comm 1]
    · simpa using h

theorem length_fused : (fused k weight results).length = results.length := List.length_mapIdx

theorem getElem_fused {i : ℕ} (hi : i < (fused k weight results).length) (hi' : i < results.length) :
    (fused k weight results)[i] = ⟨results[i].nodeId, sourceScore k weight results i results[i]⟩ :=
  List.getElem_mapIdx

theorem map_nodeId_fused : (fused k weight results).map SearchResult.nodeId = results.map SearchResult.nodeId := by
  refine List.ext_getElem (by simp [fused]) fun i hi hi' => ?_
  simp [fused]

/-- A source on its own, whichever it is. -/
theorem weightedRrfFusion_alone (h : (results.map SearchResult.nodeId).Nodup) (other : ℚ) :
    weightedRrfFusion results [] k topK weight other = (sortByKey fusedKey (fused k weight results)).take topK ∧
      weightedRrfFusion [] results k topK other weight = (sortByKey fusedKey (fused k weight results)).take topK := by
  have hsource : addSource k weight results 0 results [] = fused k weight results := by
    rw [addSource_eq (by rwa [List.nil_append])]
    simp [fused]
  unfold weightedRrfFusion
  simp only [addSource, hsource, and_self]

theorem fusedKey_lt_iff {i j : ℕ} (hi : i < (fused k weight results).length)
    (hj : j < (fused k weight results).length) (hi' : i < results.length) (hj' : j < results.length) :
    fusedKey (fused k weight results)[i] < fusedKey (fused k weight results)[j] ↔
      sourceScore k weight results j results[j] < sourceScore k weight results i results[i] ∨
        sourceScore k weight results j results[j] = sourceScore k weight results i results[i] ∧
          results[i].nodeId < results[j].nodeId := by
  rw [getElem_fused hi hi', getElem_fused hj hj', fusedKey, fusedKey, Prod.Lex.toLex_lt_toLex]
  refine or_congr OrderDual.toDual_lt_toDual (and_congr_left fun _ => ?_)
  rw [OrderDual.toDual_inj]
  exact eq_comm

/-- The ids come out in their ranks just when every score is above those behind it, or level with the ids in order. -/
theorem fused_take_iff (h : (results.map SearchResult.nodeId).Nodup) :
    ((sortByKey fusedKey (fused k weight results)).take topK).map SearchResult.nodeId =
        (results.map SearchResult.nodeId).take topK ↔
      ∀ i j, (hij : i < j) → (hj : j < results.length) → i < topK →
        sourceScore k weight results j results[j] < sourceScore k weight results i results[i] ∨
          sourceScore k weight results j results[j] = sourceScore k weight results i results[i] ∧
            results[i].nodeId < results[j].nodeId := by
  have hmap : (fused k weight results).map SearchResult.nodeId = results.map SearchResult.nodeId := map_nodeId_fused
  have hlength : (fused k weight results).length = results.length := length_fused
  have hids : ((fused k weight results).map SearchResult.nodeId).Nodup := by rwa [hmap]
  have hkeys : ((fused k weight results).map fusedKey).Nodup := by
    refine List.Nodup.of_map (fun key => (ofLex key).2) ?_
    rw [List.map_map]
    exact hids
  have hsub : (sortByKey fusedKey (fused k weight results)).take topK ⊆ fused k weight results :=
    fun r hr => mem_sortByKey.mp (List.take_subset _ _ hr)
  rw [← hmap, ← List.map_take, map_inj_of_subset hids hsub (List.take_subset _ _), take_sortByKey_iff hkeys]
  constructor
  · intro hlt i j hij hj hi
    exact (fusedKey_lt_iff (by omega) (by omega) (by omega) hj).mp (hlt i j hij (by omega) hi)
  · intro hlt i j hij hj hi
    exact (fusedKey_lt_iff (by omega) hj (by omega) (by omega)).mpr (hlt i j hij (by omega) hi)

/-! ### The gap and the blend -/

/-- What the rank of the later result takes from it in comparison with the earlier one, against what the blend adds:
both multiplied with twice the denominators of the scores. -/
def rankGap (k i j : ℕ) : ℚ := 2 * ((k + 1) * (k + 2)) * (j - i)

def blendRise (k : ℕ) (results : List SearchResult) (i j : ℕ) (earlier later : SearchResult) : ℚ :=
  (share results later - share results earlier) * ((k + i + 1) * (k + j + 1))

theorem sourceScore_sub (i j : ℕ) (earlier later : SearchResult) :
    sourceScore k weight results i earlier - sourceScore k weight results j later =
      weight / (2 * ((k + 1) * (k + 2)) * ((k + i + 1) * (k + j + 1))) *
        (rankGap k i j - blendRise k results i j earlier later) := by
  have hk : (k : ℚ) + 1 ≠ 0 := by positivity
  have hk' : (k : ℚ) + 2 ≠ 0 := by positivity
  have hi : (k : ℚ) + i + 1 ≠ 0 := by positivity
  have hj : (k : ℚ) + j + 1 ≠ 0 := by positivity
  unfold sourceScore blendScale rankGap blendRise
  field_simp
  ring

theorem sourceScore_lt_iff (hweight : 0 < weight) (i j : ℕ) (earlier later : SearchResult) :
    sourceScore k weight results j later < sourceScore k weight results i earlier ↔
      blendRise k results i j earlier later < rankGap k i j := by
  have hfactor : 0 < weight / (2 * ((k + 1) * (k + 2)) * (((k : ℚ) + i + 1) * (k + j + 1))) := by positivity
  rw [← sub_pos, sourceScore_sub, mul_pos_iff_of_pos_left hfactor, sub_pos]

theorem sourceScore_eq_iff (hweight : 0 < weight) (i j : ℕ) (earlier later : SearchResult) :
    sourceScore k weight results j later = sourceScore k weight results i earlier ↔
      blendRise k results i j earlier later = rankGap k i j := by
  have hfactor : weight / (2 * ((k + 1) * (k + 2)) * (((k : ℚ) + i + 1) * (k + j + 1))) ≠ 0 := by positivity
  rw [eq_comm, ← sub_eq_zero, sourceScore_sub, mul_eq_zero, or_iff_right hfactor, sub_eq_zero, eq_comm]

/-- No result behind one of the first `topK` has a raw score that carries it past: the rise in the blend is smaller
than the gap of their ranks, or as large where the ids are in order. -/
def KeepsRanks (k topK : ℕ) (results : List SearchResult) : Prop :=
  ∀ i j, (hij : i < j) → (hj : j < results.length) → i < topK →
    blendRise k results i j results[i] results[j] < rankGap k i j ∨
      blendRise k results i j results[i] results[j] = rankGap k i j ∧ results[i].nodeId < results[j].nodeId

/-! ### Short rankings -/

theorem sourceMax_le (h : r ∈ results) : r.score ≤ sourceMax results := by
  have hfold : ∀ (l : List SearchResult) (m : ℚ), m ≤ l.foldl (fun m r => max m r.score) m ∧
      ∀ r ∈ l, r.score ≤ l.foldl (fun m r => max m r.score) m := by
    intro l
    induction l with
    | nil => exact fun m => ⟨le_rfl, by simp⟩
    | cons s l ih =>
      intro m
      obtain ⟨hm, hl⟩ := ih (max m s.score)
      refine ⟨(le_max_left _ _).trans hm, fun r hr => ?_⟩
      rcases List.mem_cons.mp hr with rfl | hr
      · exact (le_max_right _ _).trans hm
      · exact hl r hr
  exact (hfold results 0).2 r h

/-- The blend is between nothing and half of the first gap. -/
theorem share_mem (h : r ∈ results) : 0 ≤ share results r ∧ share results r ≤ 1 := by
  unfold share
  split_ifs with hmax
  · refine ⟨div_nonneg (le_max_right _ _) hmax.le, ?_⟩
    rw [div_le_one hmax]
    exact max_le (sourceMax_le h) hmax.le
  · exact ⟨le_rfl, zero_le_one⟩

/-- A ranking that ends where a gap is still more than half of the first one keeps its order, whatever its raw
scores. -/
theorem keepsRanks_of_length (hlength : results.length ≤ n + 1) (hgap : (k + n) * (k + n + 1) < 2 * ((k + 1) * (k + 2))) :
    KeepsRanks k topK results := by
  intro i j hij hj _
  refine .inl ?_
  have hi : i < results.length := by omega
  obtain ⟨hlow, -⟩ := share_mem (List.getElem_mem hi)
  obtain ⟨-, hhigh⟩ := share_mem (List.getElem_mem hj)
  have hrise : share results results[j] - share results results[i] ≤ 1 := by linarith
  have hdenom : (k + i + 1) * (k + j + 1) ≤ (k + n) * (k + n + 1) :=
    Nat.mul_le_mul (show k + i + 1 ≤ k + n by omega) (show k + j + 1 ≤ k + n + 1 by omega)
  have hstep : 2 * ((k + 1) * (k + 2)) * 1 ≤ 2 * ((k + 1) * (k + 2)) * (j - i) :=
    Nat.mul_le_mul_left _ (show 1 ≤ j - i by omega)
  have hnat : (k + i + 1) * (k + j + 1) < 2 * ((k + 1) * (k + 2)) * (j - i) := by omega
  have hcast : ((k : ℚ) + i + 1) * (k + j + 1) < 2 * ((k + 1) * (k + 2)) * (j - i) := by
    have := Nat.cast_lt (α := ℚ).mpr hnat
    push_cast [Nat.cast_sub hij.le] at this
    exact this
  unfold blendRise rankGap
  have hpos : (0 : ℚ) ≤ (k + i + 1) * (k + j + 1) := by positivity
  calc (share results results[j] - share results results[i]) * ((k + i + 1) * (k + j + 1))
      ≤ 1 * ((k + i + 1) * (k + j + 1)) := mul_le_mul_of_nonneg_right hrise hpos
    _ = ((k : ℚ) + i + 1) * (k + j + 1) := one_mul _
    _ < 2 * ((k + 1) * (k + 2)) * (j - i) := hcast

/-! ### A source on its own -/

/-- A source on its own comes out in its order just when no raw score carries a result past another. -/
theorem fused_iff (k topK : ℕ) (weight other : ℚ) (hweight : 0 < weight) (results : List SearchResult)
    (hids : (results.map SearchResult.nodeId).Nodup) :
    ((weightedRrfFusion results [] k topK weight other).map SearchResult.nodeId =
        (results.map SearchResult.nodeId).take topK ↔ KeepsRanks k topK results) ∧
      ((weightedRrfFusion [] results k topK other weight).map SearchResult.nodeId =
        (results.map SearchResult.nodeId).take topK ↔ KeepsRanks k topK results) := by
  have halone : weightedRrfFusion results [] k topK weight other = _ ∧ _ := weightedRrfFusion_alone hids other
  rw [halone.1, halone.2, and_self, fused_take_iff hids]
  simp only [sourceScore_lt_iff hweight, sourceScore_eq_iff hweight]
  exact Iff.rfl

/-- Two results, the second of which has by far the larger raw score. -/
theorem fused_iff_two :
    (weightedRrfFusion [⟨1, 1 / 10000⟩, ⟨2, 1000⟩] [] 30 5 1 1).map SearchResult.nodeId = [1, 2] :=
  (fused_iff 30 5 1 1 one_pos [⟨1, 1 / 10000⟩, ⟨2, 1000⟩] (by decide +kernel)).1.mpr
    (keepsRanks_of_length (n := 1) le_rfl (by decide))

/-- A raw score and a rank further on that no score makes up for. -/
def overtaking : List SearchResult := (List.range 16).map fun i => ⟨i, if i = 15 then 1 else 0⟩

/-- With `k = 30` the sixteenth result moves past the one before it. -/
theorem not_keepsRanks_overtaking : ¬KeepsRanks 30 16 overtaking := by
  intro h
  have hlast := h 14 15 (by decide) (by decide) (by decide)
  revert hlast
  decide +kernel

/-- The order of a source on its own is not always kept. -/
theorem weightedRrfFusion_reorders :
    ¬∀ (k topK : ℕ) (weight other : ℚ) (results : List SearchResult), 0 < weight →
      (results.map SearchResult.nodeId).Nodup →
      (weightedRrfFusion results [] k topK weight other).map SearchResult.nodeId =
        (results.map SearchResult.nodeId).take topK := by
  intro h
  have hids : (overtaking.map SearchResult.nodeId).Nodup := by decide +kernel
  have hkept := h 30 16 1 1 overtaking one_pos hids
  rw [(weightedRrfFusion_alone hids 1).1, fused_take_iff hids] at hkept
  simp only [sourceScore_lt_iff one_pos, sourceScore_eq_iff one_pos] at hkept
  exact not_keepsRanks_overtaking hkept

end CodeGraph.Search.Fusion
