import CodeGraph.Budget.Fit

/-!
# When a budgeted answer fits

`fit` tries a number of steps by bisection and goes on from there one by one. Both stages only go up, so a prefix
below what the bisection has left behind is never tried. `fit_ok_iff` says for an arbitrary render function when
the answer fits.
-/

namespace CodeGraph.Budget

open CodeGraph.Lib

variable {units : ℕ} {T : Type*} {initial : Levels units} {steps applied : List (Step units)} {budget n left : ℕ}
  {render : Levels units → T × ℕ}

/-- The answer fits, and says so. -/
def Fitted.Ok (fitted : Fitted units T) (budget : ℕ) : Prop := fitted.overBudget = false ∧ fitted.bytes ≤ budget

/-- Undoing a step keeps an answer that fits. -/
theorem fillStep_ok {st : ℕ × Fitted units T} {step : Step units} (h : st.2.Ok budget) :
    (fillStep initial applied budget render st step).2.Ok budget := by
  unfold fillStep
  dsimp only
  split_ifs with hskip hbytes
  · exact h
  · exact ⟨rfl, hbytes⟩
  · exact h

theorem fill_ok {best : Fitted units T} (h : best.Ok budget) : (fill initial applied budget best render).Ok budget := by
  unfold fill
  refine List.foldlRecOn (motive := fun st : ℕ × Fitted units T => st.2.Ok budget) _ _ h ?_
  intro st hst step _
  exact fillStep_ok hst

theorem fittedAt_ok : (fittedAt initial steps render n).Ok budget ↔ fits initial steps budget render n := by
  unfold Fitted.Ok fittedAt fits
  simp

theorem fits_of_bytes (h : (fittedAt initial steps render n).bytes ≤ budget) : fits initial steps budget render n :=
  fittedAt_ok.mp ⟨rfl, h⟩

/-- What the loop after the bisection finds fits. -/
theorem firstFit_some {m : ℕ} {fitted : Fitted units T}
    (h : firstFit initial steps budget render left n = some (m, fitted)) :
    n ≤ m ∧ m ≤ n + left ∧ fitted = fittedAt initial steps render m ∧ fitted.bytes ≤ budget := by
  induction left generalizing n with
  | zero =>
    rw [firstFit] at h
    split_ifs at h with hbytes
    obtain ⟨rfl, rfl⟩ := Prod.mk.inj (Option.some.inj h)
    exact ⟨le_rfl, by omega, rfl, hbytes⟩
  | succ left ih =>
    rw [firstFit] at h
    split_ifs at h with hbytes
    · obtain ⟨rfl, rfl⟩ := Prod.mk.inj (Option.some.inj h)
      exact ⟨le_rfl, by omega, rfl, hbytes⟩
    · obtain ⟨hn, hm, hfitted⟩ := ih h
      exact ⟨by omega, by omega, hfitted⟩

/-- It finds nothing only where nothing fits. -/
theorem firstFit_none (h : firstFit initial steps budget render left n = none) {m : ℕ} (hn : n ≤ m)
    (hm : m ≤ n + left) : ¬fits initial steps budget render m := by
  have hfits : ∀ {k : ℕ}, ¬(fittedAt initial steps render k).bytes ≤ budget → ¬fits initial steps budget render k :=
    fun hbytes hok => hbytes (fittedAt_ok.mpr hok).2
  induction left generalizing n with
  | zero =>
    rw [firstFit] at h
    split_ifs at h with hbytes
    obtain rfl : m = n := by omega
    exact hfits hbytes
  | succ left ih =>
    rw [firstFit] at h
    split_ifs at h with hbytes
    rcases hn.lt_or_eq with hlt | rfl
    · exact ih h hlt (by omega)
    · exact hfits hbytes

/-- The answer fits just when it does undegraded, or after some number of steps that the bisection ends at or
passes. -/
theorem fit_ok : (fit initial steps budget render).Ok budget ↔
    fits initial steps budget render 0 ∨
      ∃ n ≤ steps.length, bisect (fits initial steps budget render) 0 steps.length ≤ n ∧
        fits initial steps budget render n := by
  unfold fit
  dsimp only
  split_ifs with hfirst
  · by_cases hzero : fits initial steps budget render 0
    · refine iff_of_true ?_ (.inl hzero)
      have hbytes := (fittedAt_ok.mpr hzero).2
      exact ⟨decide_eq_false (not_lt.mpr hbytes), hbytes⟩
    · have hbytes : ¬(fittedAt initial steps render 0).bytes ≤ budget := fun hle => hzero (fittedAt_ok.mp ⟨rfl, hle⟩)
      obtain rfl := hfirst.resolve_left hbytes
      refine iff_of_false (fun hok => hbytes hok.2) ?_
      rintro (hfits | ⟨n, hn, -, hfits⟩)
      · exact hzero hfits
      · obtain rfl := Nat.le_zero.mp hn
        exact hzero hfits
  · have hzero : ¬fits initial steps budget render 0 := fun hfits => hfirst (.inl (fittedAt_ok.mpr hfits).2)
    have hle : bisect (fits initial steps budget render) 0 steps.length ≤ steps.length := bisect_le (Nat.zero_le _)
    rw [or_iff_right hzero]
    split
    · next n fitted hfound =>
      obtain ⟨hfrom, hto, rfl, hbytes⟩ := firstFit_some hfound
      exact iff_of_true (fill_ok ⟨rfl, hbytes⟩) ⟨n, by omega, hfrom, fits_of_bytes hbytes⟩
    · next hnone =>
      refine iff_of_false (fun hok => Bool.noConfusion hok.1) ?_
      rintro ⟨n, hn, hfrom, hfits⟩
      exact firstFit_none hnone hfrom (by omega) hfits

/-- The numbers of steps from the end of the bisection on include one that is enough just when the whole list is
enough, or a number of steps that halving the list from below meets. -/
theorem exists_fits_iff (h : ¬fits initial steps budget render 0) :
    (∃ n ≤ steps.length, bisect (fits initial steps budget render) 0 steps.length ≤ n ∧
        fits initial steps budget render n) ↔
      fits initial steps budget render steps.length ∨
        ∃ k, fits initial steps budget render (steps.length - steps.length ⌈/⌉ 2 ^ k) := by
  generalize hp : fits initial steps budget render = p at h ⊢
  generalize steps.length = len
  have hle : bisect p 0 len ≤ len := bisect_le (Nat.zero_le len)
  rcases Nat.eq_zero_or_pos len with rfl | hpos
  · simp only [Nat.le_zero, Nat.zero_sub, exists_const, or_self, exists_eq_left]
    exact and_iff_right (Nat.le_zero.mp hle)
  · have hhalving := bisect_iff hpos h
    rw [Nat.sub_zero] at hhalving
    rw [← hhalving]
    constructor
    · rintro ⟨n, hn, hfrom, hfits⟩
      rcases bisect_eq_or p 0 len with heq | hpass
      · obtain rfl : n = len := by omega
        rwa [heq]
      · exact hpass
    · exact fun hpass => ⟨bisect p 0 len, hle, le_rfl, hpass⟩

/-- If some prefix fits then the answer does, for exactly the render functions for which either no prefix fits, or
the whole list does, or some prefix that leaves out `⌈length / 2^k⌉` steps. -/
theorem fit_ok_iff (initial : Levels units) (steps : List (Step units)) (budget : ℕ) (render : Levels units → T × ℕ) :
    ((∃ n ≤ steps.length, (render (levelsAfter initial steps n)).2 ≤ budget) →
      (fit initial steps budget render).overBudget = false ∧ (fit initial steps budget render).bytes ≤ budget) ↔
    ((∃ n ≤ steps.length, (render (levelsAfter initial steps n)).2 ≤ budget) →
      (render (levelsAfter initial steps steps.length)).2 ≤ budget ∨
        ∃ k, (render (levelsAfter initial steps (steps.length - steps.length ⌈/⌉ 2 ^ k))).2 ≤ budget) := by
  refine imp_congr_right fun _ => ?_
  have hfits : ∀ n, fits initial steps budget render n ↔ (render (levelsAfter initial steps n)).2 ≤ budget :=
    fun n => decide_eq_true_iff
  rw [show (_ ∧ _) ↔ (fit initial steps budget render).Ok budget from Iff.rfl, fit_ok]
  simp only [← hfits]
  by_cases hzero : fits initial steps budget render 0
  · refine iff_of_true (.inl hzero) (.inr ⟨0, ?_⟩)
    rw [pow_zero, ceilDiv_one, Nat.sub_self]
    exact hzero
  · rw [or_iff_right hzero, exists_fits_iff hzero]

/-- Of four steps only the first alone is enough: the bisection tries two and three, and the loop four. -/
theorem fit_misses :
    ¬∀ (units : ℕ) (initial : Levels units) (steps : List (Step units)) (budget : ℕ)
      (render : Levels units → Unit × ℕ),
      (∃ n ≤ steps.length, (render (levelsAfter initial steps n)).2 ≤ budget) →
      (fit initial steps budget render).overBudget = false ∧ (fit initial steps budget render).bytes ≤ budget := by
  intro h
  have hok := h 4 (fun _ => .full) [(0, .dropped), (1, .dropped), (2, .dropped), (3, .dropped)] 10
    (fun levels => ((), if levels 0 = .dropped ∧ levels 1 = .full then 5 else 15)) ⟨1, by decide, by decide⟩
  revert hok
  decide +kernel

end CodeGraph.Budget
