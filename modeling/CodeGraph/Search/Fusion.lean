import CodeGraph.Lib.Sort
import Mathlib.Algebra.Order.Field.Rat
import Mathlib.Data.Prod.Lex

/-!
# Reciprocal rank fusion

`weighted_rrf_fusion` of `search/fusion.rs`, over rational numbers. The `HashMap` of scores is a list of entries in
the order in which their ids came up; the sort by score and id does not depend on it.
-/

namespace CodeGraph.Search.Fusion

open CodeGraph.Lib

structure SearchResult where
  nodeId : ℤ
  score : ℚ
  deriving DecidableEq

/-- `*scores.entry(id).or_default() += x`. -/
def addScore (id : ℤ) (x : ℚ) : List SearchResult → List SearchResult
  | [] => [⟨id, 0 + x⟩]
  | r :: rest => if r.nodeId = id then ⟨id, r.score + x⟩ :: rest else r :: addScore id x rest

/-- `blend_scale`: half of the gap between the first two ranks. -/
def blendScale (k : ℕ) : ℚ := 1 / 2 / ((k + 1) * (k + 2))

/-- `fts_max` and `vec_max`. -/
def sourceMax (results : List SearchResult) : ℚ := results.foldl (fun m r => max m r.score) 0

/-- What the blend scale is multiplied with: the raw score from 0 to 1. -/
def share (results : List SearchResult) (r : SearchResult) : ℚ :=
  if 0 < sourceMax results then max r.score 0 / sourceMax results else 0

/-- What a source adds to the score of its result at a rank. -/
def sourceScore (k : ℕ) (weight : ℚ) (results : List SearchResult) (rank : ℕ) (r : SearchResult) : ℚ :=
  weight / (k + rank + 1) + blendScale k * weight * share results r

/-- The loop over a source, from a rank on. -/
def addSource (k : ℕ) (weight : ℚ) (results : List SearchResult) :
    ℕ → List SearchResult → List SearchResult → List SearchResult
  | _, [], scores => scores
  | rank, r :: rest, scores =>
    addSource k weight results (rank + 1) rest (addScore r.nodeId (sourceScore k weight results rank r) scores)

/-- The larger score first, then the smaller id. -/
def fusedKey (r : SearchResult) : ℚᵒᵈ ×ₗ ℤ := toLex (OrderDual.toDual r.score, r.nodeId)

/-- `weighted_rrf_fusion`. -/
def weightedRrfFusion (ftsResults vecResults : List SearchResult) (k topK : ℕ) (ftsWeight vecWeight : ℚ) :
    List SearchResult :=
  let scores := addSource k ftsWeight ftsResults 0 ftsResults []
  let scores := addSource k vecWeight vecResults 0 vecResults scores
  (sortByKey fusedKey scores).take topK

end CodeGraph.Search.Fusion
