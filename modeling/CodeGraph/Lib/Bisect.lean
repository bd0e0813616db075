import Mathlib.Algebra.Order.Floor.Div
import Mathlib.GroupTheory.GroupAction.Ring
import Mathlib.Tactic.Linarith

/-!
# Bisection

Halving the gap between a number that fails a test and one that is taken to pass it. Where the test is not
monotone the result may fail it; `bisect_iff` says when: the numbers tried while every test fails leave `⌈gap / 2^k⌉`
to the upper end, and it is enough that one of these passes.
-/

namespace CodeGraph.Lib

variable {p : ℕ → Bool} {lo hi : ℕ}

/-- The upper end when the gap is closed. -/
def bisect (p : ℕ → Bool) (lo hi : ℕ) : ℕ :=
  if 1 < hi - lo then
    let mid := lo + (hi - lo) / 2
    if p mid then bisect p lo mid else bisect p mid hi
  else hi
termination_by hi - lo

/-- Only the first upper end is returned untried. -/
theorem bisect_eq_or (p : ℕ → Bool) (lo hi : ℕ) : bisect p lo hi = hi ∨ p (bisect p lo hi) := by
  fun_induction bisect p lo hi with
  | case1 lo hi hgap mid hmid ih =>
    refine .inr ?_
    rcases ih with heq | hpass
    · rwa [heq]
    · exact hpass
  | case2 lo hi hgap mid hmid ih => exact ih
  | case3 lo hi hgap => exact .inl rfl

theorem bisect_le (h : lo ≤ hi) : bisect p lo hi ≤ hi := by
  fun_induction bisect p lo hi with
  | case1 lo hi hgap mid hmid ih =>
    have hmid : mid = lo + (hi - lo) / 2 := rfl
    have := ih (by omega)
    omega
  | case2 lo hi hgap mid hmid ih =>
    have hmid : mid = lo + (hi - lo) / 2 := rfl
    exact ih (by omega)
  | case3 lo hi hgap => exact le_rfl

/-- Where the test stays passed, no number below the result passes. -/
theorem bisect_le_of_pass (hmono : Monotone p) (hlo : ¬p lo) {n : ℕ} (hn : p n) : bisect p lo hi ≤ n := by
  fun_induction bisect p lo hi with
  | case1 lo hi hgap mid hmid ih => exact ih hlo
  | case2 lo hi hgap mid hmid ih => exact ih hmid
  | case3 lo hi hgap =>
    have hlt : lo < n := by
      by_contra hle
      exact hlo (hmono (not_lt.mp hle) hn)
    omega

theorem ceilDiv_two_pow_succ (gap k : ℕ) : (gap - gap / 2) ⌈/⌉ 2 ^ k = gap ⌈/⌉ 2 ^ (k + 1) := by
  have hhalf : gap - gap / 2 = gap ⌈/⌉ 2 := by
    rw [Nat.ceilDiv_eq_add_pred_div]
    omega
  apply eq_of_forall_ge_iff
  intro c
  have hpos : 0 < 2 ^ k := by positivity
  rw [hhalf, ceilDiv_le_iff_le_smul hpos, ceilDiv_le_iff_le_smul two_pos, ceilDiv_le_iff_le_smul (by positivity),
    smul_smul, pow_succ']

/-- The result passes just when the upper end does, or a number that halving the gap from below meets. -/
theorem bisect_iff (hlt : lo < hi) (hlo : ¬p lo) :
    p (bisect p lo hi) ↔ p hi ∨ ∃ k, p (hi - (hi - lo) ⌈/⌉ 2 ^ k) := by
  fun_induction bisect p lo hi with
  -- the middle passes, and it is the first half of the way back
  | case1 lo hi hgap mid hmid ih =>
    have heq : mid = lo + (hi - lo) / 2 := rfl
    have hpass : p (bisect p lo mid) := by
      rcases bisect_eq_or p lo mid with h | h
      · rwa [h]
      · exact h
    refine iff_of_true hpass (.inr ⟨1, ?_⟩)
    have hback : hi - (hi - lo) ⌈/⌉ 2 ^ 1 = mid := by
      rw [← ceilDiv_two_pow_succ, pow_zero, ceilDiv_one]
      omega
    rwa [hback]
  -- the middle fails, so what is left is the upper half
  | case2 lo hi hgap mid hmid ih =>
    have heq : mid = lo + (hi - lo) / 2 := rfl
    have hrest : hi - mid = (hi - lo) - (hi - lo) / 2 := by omega
    rw [ih (by omega) hmid, hrest]
    simp only [ceilDiv_two_pow_succ]
    refine or_congr_right ?_
    constructor
    · rintro ⟨k, hk⟩
      exact ⟨k + 1, hk⟩
    · rintro ⟨k, hk⟩
      cases k with
      | zero =>
        rw [pow_zero, ceilDiv_one, show hi - (hi - lo) = lo by omega] at hk
        exact absurd hk hlo
      | succ k => exact ⟨k, hk⟩
  | case3 lo hi hgap =>
    have hone : hi - lo = 1 := by omega
    refine ⟨.inl, ?_⟩
    rintro (h | ⟨k, hk⟩)
    · exact h
    · have hceil : (1 : ℕ) ⌈/⌉ 2 ^ k = 1 := by
        rw [Nat.ceilDiv_eq_add_pred_div, Nat.add_sub_cancel_left]
        exact Nat.div_self (by positivity)
      rw [hone, hceil, show hi - 1 = lo by omega] at hk
      exact absurd hk hlo

end CodeGraph.Lib
