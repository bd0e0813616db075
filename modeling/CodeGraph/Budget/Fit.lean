import CodeGraph.Lib.Bisect
import Mathlib.Data.Finset.Attr
import Mathlib.Logic.Function.Basic
import Mathlib.Order.Lattice

/-!
# Fitting an answer into a budget

`standard_steps`, `levels_after`, `fit` and `fill` of `budget.rs`. Units are told by their position, so a step on a unit that does
not exist cannot be written; the source would panic on it. The render function has no state: it is given its
levels and returns an output and its size.
-/

namespace CodeGraph.Budget

open CodeGraph.Lib

/-- How much of a unit is rendered. A later level is smaller. -/
inductive Level
  | full | skeleton | dropped
  deriving DecidableEq, Repr

def Level.rank : Level → ℕ
  | .full => 0
  | .skeleton => 1
  | .dropped => 2

theorem Level.rank_injective : Function.Injective Level.rank := by
  intro a b h
  cases a <;> cases b <;> first | rfl | cases h

instance : LinearOrder Level := LinearOrder.lift' Level.rank Level.rank_injective

abbrev Levels (units : ℕ) := Fin units → Level

/-- Lower a unit to a level. -/
abbrev Step (units : ℕ) := Fin units × Level

/-- Steps are compared lawfully: found in one step. -/
instance lawfulBEqStep {units : ℕ} : LawfulBEq (Fin units × Level) := inferInstance

variable {units : ℕ} {T : Type*}

/-- A step never raises a level. -/
def applyStep (levels : Levels units) (step : Step units) : Levels units :=
  if levels step.1 < step.2 then Function.update levels step.1 step.2 else levels

/-- `levels_after`. -/
def levelsAfter (initial : Levels units) (steps : List (Step units)) (n : ℕ) : Levels units :=
  (steps.take n).foldl applyStep initial

/-- `standard_steps`: every unit that has a skeleton goes to it, then every unit is dropped. -/
def standardSteps (order : List (Fin units)) (hasSkeleton : Fin units → Bool) : List (Step units) :=
  (order.filter hasSkeleton).map (·, .skeleton) ++ order.map (·, .dropped)

structure Fitted (units : ℕ) (T : Type*) where
  output : T
  levels : Levels units
  bytes : ℕ
  overBudget : Bool

section Fit

variable (initial : Levels units) (steps : List (Step units)) (budget : ℕ) (render : Levels units → T × ℕ)

/-- The closure `at` of `fit`. -/
def fittedAt (n : ℕ) : Fitted units T :=
  let levels := levelsAfter initial steps n
  ⟨(render levels).1, levels, (render levels).2, false⟩

/-- The first steps, `n` of them, are enough. -/
def fits (n : ℕ) : Bool := (render (levelsAfter initial steps n)).2 ≤ budget

/-- The loop after the bisection: the first number of steps from `n` on that is enough, with what it renders. -/
def firstFit : ℕ → ℕ → Option (ℕ × Fitted units T)
  | left, n =>
    let candidate := fittedAt initial steps render n
    if candidate.bytes ≤ budget then some (n, candidate)
    else
      match left with
      | 0 => none
      | left + 1 => firstFit left (n + 1)

end Fit

/-! ### Filling up -/

/-- `FILL_TRIES`. -/
def fillTries : ℕ := 256

/-- The level that a step is undone to. -/
def raised (initial : Levels units) (applied : List (Step units)) (step : Step units) : Level :=
  let up := if step.2 = .dropped ∧ (step.1, Level.skeleton) ∈ applied then Level.skeleton else Level.full
  max up (initial step.1)

/-- One turn of the loop of `fill`, with the number of renders so far. -/
def fillStep (initial : Levels units) (applied : List (Step units)) (budget : ℕ) (render : Levels units → T × ℕ)
    (st : ℕ × Fitted units T) (step : Step units) : ℕ × Fitted units T :=
  if fillTries ≤ st.1 ∨ st.2.levels step.1 ≠ step.2 ∨ step.2 ≤ raised initial applied step then st
  else
    let levels := Function.update st.2.levels step.1 (raised initial applied step)
    if (render levels).2 ≤ budget then (st.1 + 1, ⟨(render levels).1, levels, (render levels).2, false⟩)
    else (st.1 + 1, st.2)

/-- `fill`. -/
def fill (initial : Levels units) (applied : List (Step units)) (budget : ℕ) (best : Fitted units T)
    (render : Levels units → T × ℕ) : Fitted units T :=
  (applied.reverse.foldl (fillStep initial applied budget render) (0, best)).2

/-- `fit`. -/
def fit (initial : Levels units) (steps : List (Step units)) (budget : ℕ) (render : Levels units → T × ℕ) :
    Fitted units T :=
  let first := fittedAt initial steps render 0
  if first.bytes ≤ budget ∨ steps = [] then { first with overBudget := decide (budget < first.bytes) }
  else
    let hi := bisect (fits initial steps budget render) 0 steps.length
    match firstFit initial steps budget render (steps.length - hi) hi with
    | some (n, fitted) => fill initial (steps.take n) budget fitted render
    | none => { fittedAt initial steps render steps.length with overBudget := true }

end CodeGraph.Budget
