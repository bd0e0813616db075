import CodeGraph.Budget.Correct.Fit
import Mathlib.Algebra.Order.BigOperators.Group.Finset
import Mathlib.Data.Fin.VecNotation
import Mathlib.Data.Finset.Piecewise
import Mathlib.Data.Fintype.Basic
import Mathlib.Order.Bounds.Basic

/-!
# What filling up leaves

With a render function whose size never grows when a unit is lowered, the bisection of `fit` ends at the shortest
prefix that fits, and `fill` undoes steps of it. `fit_locally_maximal` says that no unit can then be raised any
further on its own.

`fill` goes over the steps once. A unit that can still be raised either has the step to its level ahead, or raising
it was tried and did not fit (`Settled`). Other units are raised in between, which only makes the answer larger, so
what did not fit still does not.
-/

namespace CodeGraph.Budget

open CodeGraph.Lib

variable {units : ℕ} {T : Type*} {initial levels : Levels units} {steps applied todo : List (Step units)}
  {budget n m : ℕ} {render : Levels units → T × ℕ} {order : List (Fin units)} {hasSkeleton : Fin units → Bool}
  {best : Fitted units T} {st : ℕ × Fitted units T} {step : Step units} {u : Fin units}

/-- The size never grows when the level of a unit is raised towards dropped. -/
def Shrinks (render : Levels units → T × ℕ) : Prop :=
  ∀ levels u level, levels u ≤ level → (render (Function.update levels u level)).2 ≤ (render levels).2

/-- The level above a level of the unit: from dropped to skeleton where the steps have one for it, else to full, and
never above the unit's first level. -/
def nextLevel (initial : Levels units) (steps : List (Step units)) (u : Fin units) (level : Level) : Level :=
  max (if level = .dropped ∧ (u, Level.skeleton) ∈ steps then .skeleton else .full) (initial u)

/-- How many renders `fill` spends. -/
def fillTried (initial : Levels units) (applied : List (Step units)) (budget : ℕ) (best : Fitted units T)
    (render : Levels units → T × ℕ) : ℕ :=
  (applied.reverse.foldl (fillStep initial applied budget render) (0, best)).1

/-- How many renders `fill` spends in `fit`, which does not always get there. -/
def fitTried (initial : Levels units) (steps : List (Step units)) (budget : ℕ) (render : Levels units → T × ℕ) : ℕ :=
  if (fittedAt initial steps render 0).bytes ≤ budget ∨ steps = [] then 0
  else
    let hi := bisect (fits initial steps budget render) 0 steps.length
    match firstFit initial steps budget render (steps.length - hi) hi with
    | some (n, fitted) => fillTried initial (steps.take n) budget fitted render
    | none => 0

/-! ### Sizes -/

/-- Lowering several units at once does not make the answer larger either. -/
theorem Shrinks.antitone (h : Shrinks render) {levels levels' : Levels units} (hle : levels ≤ levels') :
    (render levels').2 ≤ (render levels).2 := by
  suffices hpart : ∀ s : Finset (Fin units), (render (s.piecewise levels' levels)).2 ≤ (render levels).2 by
    have hall := hpart Finset.univ
    rwa [Finset.piecewise_univ] at hall
  intro s
  induction s using Finset.induction with
  | empty => rw [Finset.piecewise_empty]
  | insert u s hu ih =>
    rw [Finset.piecewise_insert]
    refine le_trans (h _ u _ ?_) ih
    rw [Finset.piecewise_eq_of_notMem _ _ _ hu]
    exact hle u

theorem le_applyStep (levels : Levels units) (step : Step units) : levels ≤ applyStep levels step := by
  unfold applyStep
  split_ifs with h
  · intro u
    by_cases hu : u = step.1
    · subst hu
      rw [Function.update_self]
      exact h.le
    · rw [Function.update_of_ne hu]
  · exact le_rfl

theorem le_foldl_applyStep (levels : Levels units) (steps : List (Step units)) :
    levels ≤ steps.foldl applyStep levels := by
  induction steps generalizing levels with
  | nil => exact le_rfl
  | cons step steps ih => exact (le_applyStep levels step).trans (ih (applyStep levels step))

theorem levelsAfter_mono (h : n ≤ m) : levelsAfter initial steps n ≤ levelsAfter initial steps m := by
  have hsplit : steps.take m = steps.take n ++ (steps.take m).drop n := by
    conv_lhs => rw [← List.take_append_drop n (steps.take m), List.take_take, min_eq_left h]
  unfold levelsAfter
  rw [hsplit, List.foldl_append]
  exact le_foldl_applyStep _ _

theorem Shrinks.fits_mono (h : Shrinks render) : Monotone (fits initial steps budget render) := by
  intro n m hnm hn
  have hle : levelsAfter initial steps n ≤ levelsAfter initial steps m := levelsAfter_mono hnm
  exact decide_eq_true ((h.antitone hle).trans (of_decide_eq_true hn))

/-! ### The shortest prefix -/

/-- The first `n` steps are enough, and no fewer are. -/
def Shortest (initial : Levels units) (steps : List (Step units)) (budget : ℕ) (render : Levels units → T × ℕ)
    (n : ℕ) : Prop :=
  IsLeast {n | n ≤ steps.length ∧ (render (levelsAfter initial steps n)).2 ≤ budget} n

/-- `fit` fills up the shortest prefix that fits. Where that is the empty one, there is nothing to fill. -/
theorem Shrinks.fit_eq (h : Shrinks render) (hok : (fit initial steps budget render).overBudget = false) :
    ∃ n, Shortest initial steps budget render n ∧
      fit initial steps budget render =
        fill initial (steps.take n) budget (fittedAt initial steps render n) render ∧
      fitTried initial steps budget render =
        fillTried initial (steps.take n) budget (fittedAt initial steps render n) render := by
  unfold fit fitTried at *
  dsimp only at *
  split_ifs at * with hfirst
  · have hbytes : (fittedAt initial steps render 0).bytes ≤ budget := not_lt.mp (of_decide_eq_false hok)
    refine ⟨0, ⟨⟨Nat.zero_le _, hbytes⟩, fun _ _ => Nat.zero_le _⟩, ?_, rfl⟩
    rw [decide_eq_false (not_lt.mpr hbytes)]
    rfl
  · have hzero : ¬fits initial steps budget render 0 := fun hfits => hfirst (.inl (fittedAt_ok.mpr hfits).2)
    have hle : bisect (fits initial steps budget render) 0 steps.length ≤ steps.length := bisect_le (Nat.zero_le _)
    generalize hhi : bisect (fits initial steps budget render) 0 steps.length = hi at *
    cases hfound : firstFit initial steps budget render (steps.length - hi) hi with
    | none =>
      rw [hfound] at hok
      cases hok
    | some found =>
      obtain ⟨n, fitted⟩ := found
      obtain ⟨hfrom, hto, rfl, hbytes⟩ := firstFit_some hfound
      have hleast : ∀ k, fits initial steps budget render k → hi ≤ k := by
        intro k hk
        rw [← hhi]
        exact bisect_le_of_pass h.fits_mono hzero hk
      have hfits : fits initial steps budget render hi := by
        rcases bisect_eq_or (fits initial steps budget render) 0 steps.length with heq | hpass
        · -- the bisection went all the way up, so the prefix that was found is the whole list
          rw [hhi] at heq
          obtain rfl : n = hi := by omega
          exact fits_of_bytes hbytes
        · rwa [hhi] at hpass
      obtain rfl : n = hi := by
        have hhead : (fittedAt initial steps render hi).bytes ≤ budget := (fittedAt_ok.mpr hfits).2
        cases hleft : steps.length - hi with
        | zero => omega
        | succ left =>
          rw [hleft, firstFit, if_pos hhead] at hfound
          exact (Prod.mk.inj (Option.some.inj hfound)).1.symm
      exact ⟨n, ⟨⟨hle, hbytes⟩, fun k hk => hleast k (decide_eq_true hk.2)⟩, rfl, rfl⟩

/-! ### The order of the steps -/

/-- In a prefix of the standard steps the drops come last, so a drop has the unit's skeleton step before it. -/
structure Ordered (steps applied : List (Step units)) : Prop where
  sorted : applied.Pairwise fun step step' => step.2 ≤ step'.2
  skeleton : ∀ u, (u, Level.dropped) ∈ applied → (u, Level.skeleton) ∈ steps → (u, Level.skeleton) ∈ applied
  subset : applied ⊆ steps
  lowers : ∀ step ∈ applied, step.2 ≠ .full

theorem mem_standardSteps : step ∈ standardSteps order hasSkeleton ↔
    step.1 ∈ order ∧ (step.2 = .skeleton ∧ hasSkeleton step.1 = true ∨ step.2 = .dropped) := by
  obtain ⟨u, level⟩ := step
  unfold standardSteps
  simp only [List.mem_append, List.mem_map, List.mem_filter, Prod.mk.injEq]
  constructor
  · rintro (⟨v, ⟨hv, hskel⟩, rfl, rfl⟩ | ⟨v, hv, rfl, rfl⟩)
    · exact ⟨hv, .inl ⟨rfl, hskel⟩⟩
    · exact ⟨hv, .inr rfl⟩
  · rintro ⟨hu, ⟨rfl, hskel⟩ | rfl⟩
    · exact .inl ⟨u, ⟨hu, hskel⟩, rfl, rfl⟩
    · exact .inr ⟨u, hu, rfl, rfl⟩

theorem standardSteps_sorted :
    (standardSteps order hasSkeleton).Pairwise fun step step' => step.2 ≤ step'.2 := by
  unfold standardSteps
  rw [List.pairwise_append, List.pairwise_map, List.pairwise_map]
  refine ⟨List.pairwise_of_forall fun _ _ => le_rfl, List.pairwise_of_forall fun _ _ => le_rfl, ?_⟩
  intro step hstep step' hstep'
  obtain ⟨u, -, rfl⟩ := List.mem_map.mp hstep
  obtain ⟨u', -, rfl⟩ := List.mem_map.mp hstep'
  show Level.skeleton ≤ .dropped
  decide

theorem ordered_take (n : ℕ) :
    Ordered (standardSteps order hasSkeleton) ((standardSteps order hasSkeleton).take n) where
  sorted := standardSteps_sorted.sublist (List.take_sublist _ _)
  skeleton u hdrop hskel := by
    -- a skeleton step behind the prefix would stand behind the drop
    rw [← List.take_append_drop n (standardSteps order hasSkeleton), List.mem_append] at hskel
    refine hskel.resolve_right fun hrest => ?_
    have hsorted : (standardSteps order hasSkeleton).Pairwise fun step step' => step.2 ≤ step'.2 := standardSteps_sorted
    rw [← List.take_append_drop n (standardSteps order hasSkeleton), List.pairwise_append] at hsorted
    exact absurd (show Level.dropped ≤ .skeleton from hsorted.2.2 _ hdrop _ hrest) (by decide)
  subset := List.take_subset _ _
  lowers step hstep := by
    rcases (mem_standardSteps.mp (List.take_subset _ _ hstep)).2 with ⟨h, -⟩ | h <;> rw [h] <;> decide

/-- A step that was taken is undone to the next level. -/
theorem Ordered.raised_eq (h : Ordered steps applied) (hstep : step ∈ applied) :
    raised initial applied step = nextLevel initial steps step.1 step.2 := by
  obtain ⟨u, level⟩ := step
  unfold raised nextLevel
  dsimp only
  have hiff : level = .dropped ∧ (u, Level.skeleton) ∈ applied ↔ level = .dropped ∧ (u, Level.skeleton) ∈ steps := by
    refine and_congr_right fun hlevel => ⟨fun hmem => h.subset hmem, ?_⟩
    subst hlevel
    exact h.skeleton u hstep
  rw [if_congr hiff rfl rfl]

/-! ### Undoing steps -/

theorem full_le (level : Level) : Level.full ≤ level := by
  cases level <;> decide

theorem eq_skeleton {level : Level} (h : .skeleton ≤ level) (hlt : level < .dropped) : level = .skeleton := by
  cases level with
  | full => exact absurd h (by decide)
  | skeleton => rfl
  | dropped => exact absurd hlt (lt_irrefl _)

/-- What `fill` keeps of the answer it starts from. -/
structure Between (initial : Levels units) (start : Fitted units T) (render : Levels units → T × ℕ)
    (fitted : Fitted units T) : Prop where
  rendered : render fitted.levels = (fitted.output, fitted.bytes)
  above : initial ≤ fitted.levels
  below : fitted.levels ≤ start.levels

theorem le_raised : initial step.1 ≤ raised initial applied step := le_max_right _ _

theorem Between.fillStep {start : Fitted units T} (h : Between initial start render st.2) :
    Between initial start render (fillStep initial applied budget render st step).2 := by
  unfold Budget.fillStep
  dsimp only
  split_ifs with hskip hbytes
  · exact h
  · push Not at hskip
    refine ⟨rfl, ?_, ?_⟩
    · exact le_update_iff.mpr ⟨le_raised, fun u _ => h.above u⟩
    · refine update_le_iff.mpr ⟨?_, fun u _ => h.below u⟩
      have hlow := h.below step.1
      rw [hskip.2.1] at hlow
      exact hskip.2.2.le.trans hlow
  · exact h

theorem Between.fill {start : Fitted units T} (h : Between initial start render start) :
    Between initial start render (fill initial applied budget start render) := by
  unfold Budget.fill
  refine List.foldlRecOn (motive := fun st : ℕ × Fitted units T => Between initial start render st.2) _ _ h ?_
  intro st hst step _
  exact hst.fillStep

/-- A unit that can be raised has the step to its level ahead, or raising it makes the answer too large. -/
def Settled (initial : Levels units) (steps : List (Step units)) (budget : ℕ) (render : Levels units → T × ℕ)
    (todo : List (Step units)) (levels : Levels units) : Prop :=
  ∀ u, nextLevel initial steps u (levels u) < levels u → (u, levels u) ∈ todo ∨
    budget < (render (Function.update levels u (nextLevel initial steps u (levels u)))).2

/-- At first every lowered unit has its step ahead. -/
theorem settled_levelsAfter : Settled initial steps budget render applied.reverse
    (applied.foldl applyStep initial) := by
  have hmem : ∀ u, applied.foldl applyStep initial u = initial u ∨
      (u, applied.foldl applyStep initial u) ∈ applied := by
    intro u
    induction applied using List.reverseRecOn with
    | nil => exact .inl rfl
    | append_singleton applied step ih =>
      rw [List.foldl_append, List.foldl_cons, List.foldl_nil, applyStep]
      split_ifs with hlt
      · by_cases hu : u = step.1
        · subst hu
          rw [Function.update_self]
          exact .inr (by simp)
        · rw [Function.update_of_ne hu]
          exact ih.imp_right fun h => by simp [h]
      · exact ih.imp_right fun h => by simp [h]
  intro u hlt
  refine .inl (List.mem_reverse.mpr ((hmem u).resolve_left fun hsame => ?_))
  rw [hsame] at hlt
  exact absurd (le_max_right _ _) (not_le.mpr hlt)

/-- One step settles its unit. -/
theorem Settled.fillStep (h : Settled initial steps budget render (step :: todo) st.2.levels)
    (hshrinks : Shrinks render) (hraised : raised initial applied step = nextLevel initial steps step.1 step.2)
    (hskel : step.2 = .dropped → (step.1, Level.skeleton) ∈ steps → (step.1, Level.skeleton) ∈ todo)
    (htries : st.1 < fillTries) :
    Settled initial steps budget render todo (fillStep initial applied budget render st step).2.levels := by
  have hhead : ∀ u, (u, st.2.levels u) ∈ step :: todo → (u, st.2.levels u) ≠ step → (u, st.2.levels u) ∈ todo :=
    fun u hmem hne => (List.mem_cons.mp hmem).resolve_left hne
  unfold Budget.fillStep
  dsimp only
  split_ifs with hskip hbytes
  · intro u hlt
    refine (h u hlt).imp_left fun hmem => hhead u hmem ?_
    -- the step is skipped only where it is not the unit's or there is nothing to gain
    rintro rfl
    rcases hskip with hskip | hskip | hskip
    · omega
    · exact hskip rfl
    · rw [hraised] at hskip
      exact absurd hlt (not_lt.mpr hskip)
  · push Not at hskip
    obtain ⟨-, hlevel, hup⟩ := hskip
    intro u hlt
    dsimp only at hlt ⊢
    by_cases hu : u = step.1
    · subst hu
      rw [Function.update_self] at hlt ⊢
      refine .inl ?_
      -- a unit that came back at its skeleton has that step ahead
      have hdrop : step.2 = .dropped ∧ (step.1, Level.skeleton) ∈ steps := by
        by_contra hnot
        have hfull : raised initial applied step = max .full (initial step.1) := by
          rw [hraised, nextLevel, if_neg hnot]
        rw [hfull] at hlt
        refine absurd hlt (not_lt.mpr (max_le ?_ (le_max_right _ _)))
        exact full_le _
      have hskeleton : raised initial applied step = .skeleton := by
        rw [hdrop.1] at hup
        refine eq_skeleton ?_ hup
        rw [hraised, nextLevel, if_pos hdrop]
        exact le_max_left _ _
      rw [hskeleton]
      exact hskel hdrop.1 hdrop.2
    · rw [Function.update_of_ne hu] at hlt ⊢
      refine (h u hlt).imp (fun hmem => hhead u hmem fun heq => hu (congrArg Prod.fst heq)) fun hbig => ?_
      refine lt_of_lt_of_le hbig (hshrinks.antitone ?_)
      have hless : Function.update st.2.levels step.1 (raised initial applied step) ≤ st.2.levels := by
        refine update_le_iff.mpr ⟨?_, fun _ _ => le_rfl⟩
        rw [hlevel]
        exact hup.le
      exact update_le_update_iff.mpr ⟨le_rfl, fun j _ => hless j⟩
  · push Not at hskip hbytes
    obtain ⟨-, hlevel, hup⟩ := hskip
    intro u hlt
    by_cases hu : u = step.1
    · subst hu
      rw [hlevel, ← hraised]
      exact .inr hbytes
    · exact (h u hlt).imp_left fun hmem => hhead u hmem fun heq => hu (congrArg Prod.fst heq)

theorem tried_le_foldl (todo : List (Step units)) (st : ℕ × Fitted units T) :
    st.1 ≤ (todo.foldl (Budget.fillStep initial applied budget render) st).1 := by
  induction todo generalizing st with
  | nil => exact le_rfl
  | cons step todo ih =>
    refine le_trans ?_ (ih _)
    unfold Budget.fillStep
    dsimp only
    split_ifs with hskip hbytes
    · exact le_rfl
    · exact Nat.le_succ _
    · exact Nat.le_succ _

/-- `fill` settles every unit, as long as it does not run out of renders. -/
theorem Settled.fill (hshrinks : Shrinks render) (happlied : Ordered steps applied)
    (hstart : Settled initial steps budget render applied.reverse best.levels)
    (htried : fillTried initial applied budget best render < fillTries) :
    Settled initial steps budget render [] (fill initial applied budget best render).levels := by
  have hsorted := List.pairwise_reverse.mpr happlied.sorted
  have hskel : ∀ u, (u, Level.dropped) ∈ applied.reverse → (u, Level.skeleton) ∈ steps →
      (u, Level.skeleton) ∈ applied.reverse := by
    intro u hdrop hstep
    exact List.mem_reverse.mpr (happlied.skeleton u (List.mem_reverse.mp hdrop) hstep)
  have hraised : ∀ step ∈ applied.reverse, raised initial applied step = nextLevel initial steps step.1 step.2 :=
    fun step hstep => happlied.raised_eq (List.mem_reverse.mp hstep)
  unfold fillTried at htried
  unfold Budget.fill
  generalize applied.reverse = todo at *
  -- the induction is on the steps ahead; the renders spent only grow, so none is missing before the end
  generalize hst : ((0 : ℕ), best) = st at *
  replace hstart : Settled initial steps budget render todo st.2.levels := by
    rw [← hst]
    exact hstart
  clear hst
  induction todo generalizing st with
  | nil => exact hstart
  | cons step todo ih =>
    rw [List.pairwise_cons] at hsorted
    rw [List.foldl_cons] at htried ⊢
    have htries : st.1 < fillTries := lt_of_le_of_lt (tried_le_foldl (step :: todo) st) htried
    have hahead : ∀ u, (u, Level.dropped) ∈ step :: todo → (u, Level.skeleton) ∈ steps →
        (u, Level.skeleton) ∈ todo := by
      intro u hdrop hstep
      refine (List.mem_cons.mp (hskel u hdrop hstep)).resolve_left ?_
      rintro rfl
      rcases List.mem_cons.mp hdrop with heq | hdrop
      · cases heq
      · exact absurd (show Level.dropped ≤ .skeleton from hsorted.1 _ hdrop) (by decide)
    refine ih hsorted.2 (fun u hdrop => hahead u (by simp [hdrop])) (fun s hs => hraised s (by simp [hs])) _ htried ?_
    refine hstart.fillStep hshrinks (hraised step (by simp)) (fun hlevel => hahead step.1 ?_) htries
    rw [← hlevel]
    exact List.mem_cons_self

/-- What is asked of an answer of `fit` that is not over budget. -/
structure LocallyMaximal (initial : Levels units) (steps : List (Step units)) (budget : ℕ)
    (render : Levels units → T × ℕ) (tried : ℕ) (fitted : Fitted units T) : Prop where
  rendered : render fitted.levels = (fitted.output, fitted.bytes)
  fits : fitted.bytes ≤ budget
  between : ∃ n, Shortest initial steps budget render n ∧
    ∀ u, initial u ≤ fitted.levels u ∧ fitted.levels u ≤ levelsAfter initial steps n u
  /-- Unless renders ran out, no unit can be raised to its next level. -/
  maximal : tried < fillTries → ∀ u, nextLevel initial steps u (fitted.levels u) < fitted.levels u →
    budget < (render (Function.update fitted.levels u (nextLevel initial steps u (fitted.levels u)))).2

/-- An answer within the budget lies between the units' first levels and those of the shortest prefix that fits, and
no unit can be raised to its next level, unless `fill` ran out of renders. -/
theorem fit_locally_maximal (initial : Levels units) (order : List (Fin units)) (hasSkeleton : Fin units → Bool)
    (budget : ℕ) (render : Levels units → T × ℕ) (hshrinks : Shrinks render)
    (hok : (fit initial (standardSteps order hasSkeleton) budget render).overBudget = false) :
    LocallyMaximal initial (standardSteps order hasSkeleton) budget render
      (fitTried initial (standardSteps order hasSkeleton) budget render)
      (fit initial (standardSteps order hasSkeleton) budget render) := by
  obtain ⟨n, hshortest, hfit, htried⟩ := hshrinks.fit_eq hok
  rw [hfit, htried]
  have hstart : Between initial (fittedAt initial (standardSteps order hasSkeleton) render n) render
      (fittedAt initial (standardSteps order hasSkeleton) render n) :=
    ⟨rfl, le_foldl_applyStep _ _, le_rfl⟩
  have hbetween : Between initial _ render
      (fill initial ((standardSteps order hasSkeleton).take n) budget
        (fittedAt initial (standardSteps order hasSkeleton) render n) render) := hstart.fill
  constructor
  case rendered => exact hbetween.rendered
  case fits => exact (fill_ok ⟨rfl, hshortest.1.2⟩).2
  case between => exact ⟨n, hshortest, fun u => ⟨hbetween.above u, hbetween.below u⟩⟩
  case maximal =>
    intro hless u hlt
    refine (Settled.fill hshrinks (ordered_take n) ?_ hless u hlt).resolve_left List.not_mem_nil
    exact settled_levelsAfter

/-- Units that are rendered one by one, each no larger at a later level, make an answer that shrinks. -/
theorem shrinks_sum {cost : Fin units → Level → ℕ} (hcost : ∀ u, Antitone (cost u)) :
    Shrinks fun levels => ((), ∑ u, cost u (levels u)) := by
  intro levels u level hle
  show ∑ v, cost v (Function.update levels u level v) ≤ ∑ v, cost v (levels v)
  refine Finset.sum_le_sum fun v _ => hcost v ?_
  by_cases hv : v = u
  · subst hv
    rw [Function.update_self]
    exact hle
  · rw [Function.update_of_ne hv]

/-- A large unit and two small ones, none of which has a skeleton. -/
def largeCost (u : Fin 3) (level : Level) : ℕ := if level = .dropped then 0 else ![100, 10, 10] u

theorem largeCost_antitone (u : Fin 3) : Antitone (largeCost u) := by
  intro level level' hle
  unfold largeCost
  by_cases hlow : level' = .dropped
  · rw [if_pos hlow]
    exact Nat.zero_le _
  · -- dropped is the last level
    have hhigh : level ≠ .dropped := by
      rintro rfl
      cases level' <;> first | exact hlow rfl | exact absurd hle (by decide)
    rw [if_neg hlow, if_neg hhigh]

/-- The large unit stays out, and the two that were dropped before it come back. -/
theorem fit_locally_maximal_three :
    (fit (fun _ => .full) (standardSteps [2, 1, 0] fun _ => false) 50
      fun levels => ((), ∑ u, largeCost u (levels u))).levels = ![.dropped, .full, .full] ∧
    LocallyMaximal (fun _ => .full) (standardSteps [2, 1, 0] fun _ => false) 50
      (fun levels => ((), ∑ u, largeCost u (levels u)))
      (fitTried (fun _ => .full) (standardSteps [2, 1, 0] fun _ => false) 50
        fun levels => ((), ∑ u, largeCost u (levels u)))
      (fit (fun _ => .full) (standardSteps [2, 1, 0] fun _ => false) 50
        fun levels => ((), ∑ u, largeCost u (levels u))) :=
  ⟨by decide +kernel,
    fit_locally_maximal _ [2, 1, 0] (fun _ => false) 50 _ (shrinks_sum largeCost_antitone) (by decide +kernel)⟩

end CodeGraph.Budget
