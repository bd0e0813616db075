import Mathlib.Data.List.Infix
import Mathlib.Tactic.SplitIfs

/-!
# Cutting a list into runs

A list is cut into runs greedily: a run goes on for as long as it fits (`greedyRuns`). Where what is inside a run that
fits fits too, no way of cutting the list into runs that fit has fewer of them (`length_greedyRuns_le`).
-/

namespace CodeGraph.Lib

variable {α : Type*} {fits : List α → Bool} {cur rest : List α}

/-- The runs of `cur ++ rest`, where the first one has reached `cur`. -/
def greedyRuns (fits : List α → Bool) : List α → List α → List (List α)
  | [], [] => []
  | a :: cur, [] => [a :: cur]
  | [], x :: rest => greedyRuns fits [x] rest
  | a :: cur, x :: rest =>
    if fits (a :: cur ++ [x]) then greedyRuns fits (a :: cur ++ [x]) rest
    else (a :: cur) :: greedyRuns fits [x] rest

theorem greedyRuns_cons {x : α} (h : cur ≠ []) : greedyRuns fits cur (x :: rest) =
    if fits (cur ++ [x]) then greedyRuns fits (cur ++ [x]) rest else cur :: greedyRuns fits [x] rest := by
  cases cur with
  | nil => exact absurd rfl h
  | cons a cur => rw [greedyRuns]

theorem greedyRuns_nil (h : cur ≠ []) : greedyRuns fits cur [] = [cur] := by
  cases cur with
  | nil => exact absurd rfl h
  | cons a cur => rfl

theorem flatten_greedyRuns : (greedyRuns fits cur rest).flatten = cur ++ rest := by
  induction rest generalizing cur with
  | nil =>
    cases cur with
    | nil => rfl
    | cons a cur => rw [greedyRuns_nil (List.cons_ne_nil a cur), List.flatten_singleton, List.append_nil]
  | cons x rest ih =>
    cases cur with
    | nil =>
      rw [greedyRuns, ih]
      rfl
    | cons a cur =>
      rw [greedyRuns_cons (List.cons_ne_nil a cur)]
      split_ifs
      · rw [ih, List.append_assoc]
        rfl
      · rw [List.flatten_cons, ih]
        rfl

/-- Every run fits and is not empty, where the elements fit on their own. -/
theorem greedyRuns_spec (hone : ∀ x, fits [x] = true) (hcur : cur ≠ [] → fits cur = true) :
    ∀ run ∈ greedyRuns fits cur rest, run ≠ [] ∧ fits run = true := by
  induction rest generalizing cur with
  | nil =>
    intro run hrun
    cases cur with
    | nil => cases hrun
    | cons a cur =>
      rw [greedyRuns_nil (List.cons_ne_nil a cur), List.mem_singleton] at hrun
      rw [hrun]
      exact ⟨List.cons_ne_nil a cur, hcur (List.cons_ne_nil a cur)⟩
  | cons x rest ih =>
    have hnext := @ih [x] fun _ => hone x
    intro run hrun
    cases cur with
    | nil => exact hnext run hrun
    | cons a cur =>
      rw [greedyRuns_cons (List.cons_ne_nil a cur)] at hrun
      split_ifs at hrun with hfits
      · exact ih (fun _ => hfits) run hrun
      · rcases List.mem_cons.mp hrun with rfl | hrun
        · exact ⟨List.cons_ne_nil a cur, hcur (List.cons_ne_nil a cur)⟩
        · exact hnext run hrun

/-- Runs that have begun no later than the greedy one are no fewer: the first of them ends no later either. -/
theorem length_greedyRuns_le_of_suffix (hinside : ∀ a b c, fits (a ++ b ++ c) = true → fits b = true)
    (hcur : cur ≠ []) {before : List α} {runs : List (List α)} (hruns : ∀ run ∈ runs, fits run = true)
    (hsuffix : cur <:+ before) (hflat : runs.flatten = before ++ rest) :
    (greedyRuns fits cur rest).length ≤ runs.length := by
  induction rest generalizing cur before runs with
  | nil =>
    rw [greedyRuns_nil hcur, List.length_singleton]
    apply Nat.succ_le_of_lt
    rw [List.length_pos_iff]
    rintro rfl
    rw [List.append_nil] at hflat
    rw [← hflat] at hsuffix
    exact hcur (List.suffix_nil.mp hsuffix)
  | cons x rest ih =>
    rw [greedyRuns_cons hcur]
    split_ifs with hfits
    · refine ih (by simp) hruns ?_ (hflat.trans (List.append_cons before x rest))
      obtain ⟨front, rfl⟩ := hsuffix
      exact ⟨front, List.append_assoc ..|>.symm⟩
    · cases runs with
      | nil => simp at hflat
      | cons run runs =>
        rw [List.flatten_cons] at hflat
        -- a longer run would hold the one that does not fit
        have hshort : run.length ≤ before.length := by
          by_contra hlong
          rw [not_le] at hlong
          have hpre : before ++ [x] <+: run := by
            refine List.prefix_of_prefix_length_le ⟨rest, ?_⟩ ⟨runs.flatten, hflat⟩ ?_
            · rw [List.append_assoc]
              rfl
            · rw [List.length_append, List.length_singleton]
              omega
          obtain ⟨behind, hrun⟩ := hpre
          obtain ⟨front, rfl⟩ := hsuffix
          have hin := hinside front (cur ++ [x]) behind (by
            rw [← List.append_assoc, hrun]
            exact hruns run List.mem_cons_self)
          exact hfits hin
        have hrest : runs.flatten = before.drop run.length ++ [x] ++ rest := by
          have hdrop := congrArg (List.drop run.length) hflat
          rw [List.drop_left, List.drop_append_of_le_length hshort] at hdrop
          rw [hdrop, List.append_assoc]
          rfl
        have hle := ih (List.cons_ne_nil x []) (fun r hr => hruns r (List.mem_cons_of_mem run hr))
          (List.suffix_append _ _) hrest
        rw [List.length_cons, List.length_cons]
        omega

/-- The greedy runs are the fewest. -/
theorem length_greedyRuns_le (hinside : ∀ a b c, fits (a ++ b ++ c) = true → fits b = true) {l : List α}
    {runs : List (List α)} (hruns : ∀ run ∈ runs, fits run = true) (hflat : runs.flatten = l) :
    (greedyRuns fits [] l).length ≤ runs.length := by
  cases l with
  | nil => exact Nat.zero_le _
  | cons x l =>
    rw [greedyRuns]
    exact length_greedyRuns_le_of_suffix hinside (List.cons_ne_nil x []) hruns List.suffix_rfl hflat

end CodeGraph.Lib
