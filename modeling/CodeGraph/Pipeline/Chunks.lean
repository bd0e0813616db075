import CodeGraph.Lib.GreedyCuts
import Mathlib.Algebra.BigOperators.Group.List.Basic
import Mathlib.Algebra.GroupWithZero.Nat

/-!
# Batch planning

`plan_chunks` of `pipeline/index_files.rs` cuts a list of sizes into runs that are bounded both in number and in size.
They are the greedy runs of `Lib/GreedyCuts`, so there are no fewer (`planChunks_minimal`).
-/

namespace CodeGraph.Pipeline.Chunks

open CodeGraph.Lib

/-- `u64::saturating_add`. -/
def saturatingAdd (a b : UInt64) : UInt64 := if a.toNat + b.toNat < UInt64.size then a + b else -1

/-- The loop of `plan_chunks`, with the length and the size of the run it has open. -/
def planLoop (maxItems : ℕ) (maxSize : UInt64) : ℕ → UInt64 → List UInt64 → List ℕ
  | len, _, [] => if 0 < len then [len] else []
  | len, acc, size :: sizes =>
    if 0 < len ∧ (maxItems ≤ len ∨ maxSize < saturatingAdd acc size) then
      len :: planLoop maxItems maxSize 1 (saturatingAdd 0 size) sizes
    else planLoop maxItems maxSize (len + 1) (saturatingAdd acc size) sizes

/-- `plan_chunks` -/
def planChunks (sizes : List UInt64) (maxItems : ℕ) (maxSize : UInt64) : List ℕ :=
  planLoop maxItems maxSize 0 0 sizes

/-! ### Runs within the bounds -/

/-- The size of a run. -/
def total (run : List UInt64) : UInt64 := run.foldl saturatingAdd 0

/-- A run within both bounds. A single item is one, whatever its size. -/
def fits (maxItems : ℕ) (maxSize : UInt64) (run : List UInt64) : Bool :=
  run.length ≤ maxItems ∧ (run.length ≤ 1 ∨ total run ≤ maxSize)

variable {maxItems : ℕ} {maxSize : UInt64} {run sizes : List UInt64}

theorem total_concat (run : List UInt64) (size : UInt64) : total (run ++ [size]) = saturatingAdd (total run) size := by
  rw [total, List.foldl_append]
  rfl

theorem toNat_saturatingAdd (a b : UInt64) :
    (saturatingAdd a b).toNat = min (a.toNat + b.toNat) (UInt64.size - 1) := by
  have hmax : (-1 : UInt64).toNat = UInt64.size - 1 := by decide
  have hsize : UInt64.size = 2 ^ 64 := rfl
  unfold saturatingAdd
  split_ifs with h
  · rw [UInt64.toNat_add, Nat.mod_eq_of_lt (hsize ▸ h)]
    omega
  · rw [hmax]
    omega

theorem toNat_total (run : List UInt64) : (total run).toNat = min (run.map UInt64.toNat).sum (UInt64.size - 1) := by
  induction run using List.reverseRecOn with
  | nil => rfl
  | append_singleton run size ih =>
    rw [total_concat, toNat_saturatingAdd, ih, List.map_append, List.sum_append, List.map_singleton, List.sum_singleton]
    omega

theorem fits_inside (a b c : List UInt64) (h : fits maxItems maxSize (a ++ b ++ c) = true) :
    fits maxItems maxSize b = true := by
  unfold fits at h ⊢
  rw [decide_eq_true_eq, List.length_append, List.length_append] at h
  rw [decide_eq_true_eq]
  have htotal : (total b).toNat ≤ (total (a ++ b ++ c)).toNat := by
    rw [toNat_total, toNat_total, List.map_append, List.map_append, List.sum_append, List.sum_append]
    omega
  refine ⟨by omega, ?_⟩
  rcases h.2 with hone | hsize
  · left
    omega
  · right
    exact UInt64.le_iff_toNat_le.mpr (htotal.trans (UInt64.le_iff_toNat_le.mp hsize))

/-- The loop cuts where the run does not fit any more. -/
theorem planLoop_eq (run sizes : List UInt64) :
    planLoop maxItems maxSize run.length (total run) sizes =
      (greedyRuns (fits maxItems maxSize) run sizes).map List.length := by
  induction sizes generalizing run with
  | nil =>
    cases run with
    | nil => rfl
    | cons a run => rfl
  | cons size sizes ih =>
    have hnext := ih [size]
    have hmore := ih (run ++ [size])
    rw [total_concat, List.length_append, List.length_singleton] at hmore
    rw [planLoop]
    cases run with
    | nil =>
      rw [if_neg (fun h => absurd h.1 (by decide)), greedyRuns]
      exact hnext
    | cons a run =>
      -- the loop ends a run where one more file would not fit
      have hiff : (0 < (a :: run).length ∧ (maxItems ≤ (a :: run).length ∨
          maxSize < saturatingAdd (total (a :: run)) size)) ↔ ¬fits maxItems maxSize (a :: run ++ [size]) = true := by
        unfold fits
        rw [decide_eq_true_eq, total_concat, List.length_append, List.length_singleton, List.length_cons, not_and_or,
          not_or, not_le, not_le, UInt64.not_le]
        constructor
        · rintro ⟨-, h | h⟩
          · left
            omega
          · right
            exact ⟨by omega, h⟩
        · rintro (h | h)
          · exact ⟨by omega, .inl (by omega)⟩
          · exact ⟨by omega, .inr h.2⟩
      rw [greedyRuns_cons (List.cons_ne_nil a run)]
      by_cases hfits : fits maxItems maxSize (a :: run ++ [size]) = true
      · rw [if_neg fun h => hiff.mp h hfits, if_pos hfits]
        exact hmore
      · rw [if_pos (hiff.mpr hfits), if_neg hfits, List.map_cons]
        exact congrArg _ hnext

/-- The plan cuts the list into runs within the bounds, and no way to do so has fewer. -/
theorem planChunks_minimal (hitems : 1 ≤ maxItems) :
    (∀ n ∈ planChunks sizes maxItems maxSize, 0 < n) ∧
    (planChunks sizes maxItems maxSize).sum = sizes.length ∧
    (∃ runs : List (List UInt64), runs.flatten = sizes ∧ runs.map List.length = planChunks sizes maxItems maxSize ∧
      ∀ run ∈ runs, run.length ≤ maxItems ∧ (run.length = 1 ∨ total run ≤ maxSize)) ∧
    ∀ runs : List (List UInt64), runs.flatten = sizes →
      (∀ run ∈ runs, run.length ≤ maxItems ∧ (run.length = 1 ∨ total run ≤ maxSize)) →
      (planChunks sizes maxItems maxSize).length ≤ runs.length := by
  have hplan : planChunks sizes maxItems maxSize = (greedyRuns (fits maxItems maxSize) [] sizes).map List.length :=
    planLoop_eq [] sizes
  have hflat : (greedyRuns (fits maxItems maxSize) [] sizes).flatten = sizes := flatten_greedyRuns
  have hone : ∀ size, fits maxItems maxSize [size] = true := fun size => decide_eq_true ⟨hitems, .inl le_rfl⟩
  have hspec := @greedyRuns_spec _ _ [] sizes hone fun h => absurd rfl h
  refine ⟨?_, ?_, ⟨_, hflat, hplan.symm, ?_⟩, ?_⟩
  · intro n hn
    rw [hplan] at hn
    obtain ⟨run, hrun, rfl⟩ := List.mem_map.mp hn
    exact List.length_pos_iff.mpr (hspec run hrun).1
  · rw [hplan, ← List.length_flatten, hflat]
  · intro run hrun
    obtain ⟨hne, hfits⟩ := hspec run hrun
    have hbounds := of_decide_eq_true hfits
    have hpos := List.length_pos_iff.mpr hne
    refine ⟨hbounds.1, hbounds.2.imp_left fun h => ?_⟩
    omega
  · intro runs hruns hbounds
    rw [hplan, List.length_map]
    refine length_greedyRuns_le fits_inside (fun run hrun => ?_) hruns
    exact decide_eq_true ⟨(hbounds run hrun).1, (hbounds run hrun).2.imp_left le_of_eq⟩

/-- Five sizes of at most two items and ten bytes: one is over the bound on its own. -/
theorem planChunks_minimal_five : planChunks [3, 4, 20, 0, 9] 2 10 = [2, 1, 2] ∧
    (planChunks [3, 4, 20, 0, 9] 2 10).length ≤ ([[3], [4], [20], [0, 9]] : List (List UInt64)).length :=
  ⟨by decide, (planChunks_minimal (by decide)).2.2.2 _ rfl (by decide)⟩

end CodeGraph.Pipeline.Chunks
