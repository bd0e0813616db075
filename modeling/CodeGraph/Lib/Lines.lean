import Mathlib.Data.List.Basic

/-!
# Lines of a stream

A reader of a stream keeps what it has read behind the last delimiter and takes every stretch that ends in one. How
the stream is cut into chunks makes no difference to the stretches (`lines_append`).
-/

namespace CodeGraph.Lib

variable {α : Type*} [DecidableEq α] {sep : α}

/-- The stretches of a text that end in `sep`, and what is left behind the last of them. -/
def lines (sep : α) : List α → List (List α) × List α
  | [] => ([], [])
  | c :: s =>
    if c = sep then ([] :: (lines sep s).1, (lines sep s).2)
    else match (lines sep s).1 with
      | [] => ([], c :: (lines sep s).2)
      | l :: ls => ((c :: l) :: ls, (lines sep s).2)

/-- What is read behind a text is read on from what that text leaves. -/
theorem lines_append (s t : List α) :
    lines sep (s ++ t) =
      ((lines sep s).1 ++ (lines sep ((lines sep s).2 ++ t)).1, (lines sep ((lines sep s).2 ++ t)).2) := by
  induction s with
  | nil => simp [lines]
  | cons c s ih =>
    simp only [List.cons_append, lines, ih]
    by_cases hc : c = sep
    · simp only [if_pos hc, List.cons_append]
    · simp only [if_neg hc]
      cases (lines sep s).1 with
      | nil => simp only [List.nil_append, List.cons_append, lines, if_neg hc]
      | cons l ls => simp only [List.cons_append]

end CodeGraph.Lib
