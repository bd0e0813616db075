import Mathlib.Order.Bounds.Basic
import Mathlib.Order.Lattice

/-!
# Edit distance

`Edits k xs ys` turns `xs` into `ys` with `k` insertions, deletions and replacements; the distance of two lists is the
least such `k`. `IsLeast.cell` is the cell of the usual table: the distance of two lists with one more element each from
the three neighbours, for any way of counting them. A table that goes through the lists from the front is read through
`edits_reverse`.
-/

namespace CodeGraph.Lib

variable {α : Type*} {x y : α} {xs ys : List α} {k : ℕ}

inductive Edits : ℕ → List α → List α → Prop
  | nil : Edits 0 [] []
  | keep {k : ℕ} {xs ys : List α} (x : α) : Edits k xs ys → Edits k (x :: xs) (x :: ys)
  | replace {k : ℕ} {xs ys : List α} (x y : α) : Edits k xs ys → Edits (k + 1) (x :: xs) (y :: ys)
  | delete {k : ℕ} {xs ys : List α} (x : α) : Edits k xs ys → Edits (k + 1) (x :: xs) ys
  | insert {k : ℕ} {xs ys : List α} (y : α) : Edits k xs ys → Edits (k + 1) xs (y :: ys)

/-- The distance of two lists. -/
def IsDistance (xs ys : List α) (k : ℕ) : Prop := IsLeast {k | Edits k xs ys} k

namespace Edits

theorem append {l : ℕ} {xs' ys' : List α} (h : Edits k xs ys) (h' : Edits l xs' ys') :
    Edits (k + l) (xs ++ xs') (ys ++ ys') := by
  induction h with
  | nil => rwa [Nat.zero_add]
  | keep x _ ih => exact .keep x ih
  | replace x y _ ih =>
    rw [Nat.add_right_comm]
    exact .replace x y ih
  | delete x _ ih =>
    rw [Nat.add_right_comm]
    exact .delete x ih
  | insert y _ ih =>
    rw [Nat.add_right_comm]
    exact .insert y ih

theorem reverse (h : Edits k xs ys) : Edits k xs.reverse ys.reverse := by
  induction h with
  | nil => exact .nil
  | keep x _ ih =>
    rw [List.reverse_cons, List.reverse_cons]
    exact ih.append (.keep x .nil)
  | replace x y _ ih =>
    rw [List.reverse_cons, List.reverse_cons]
    exact ih.append (.replace x y .nil)
  | delete x _ ih =>
    have h := ih.append (.delete x .nil)
    rwa [List.append_nil, ← List.reverse_cons] at h
  | insert y _ ih =>
    have h := ih.append (.insert y .nil)
    rwa [List.append_nil, ← List.reverse_cons] at h

/-- An edit adds at most one element. -/
theorem length_le_left (h : Edits k xs ys) : ys.length ≤ xs.length + k := by
  induction h with
  | nil => exact Nat.zero_le _
  | keep _ _ ih | replace _ _ _ ih | delete _ _ ih | insert _ _ ih =>
    simp only [List.length_cons]
    omega

theorem length_le_right (h : Edits k xs ys) : xs.length ≤ ys.length + k := by
  induction h with
  | nil => exact Nat.zero_le _
  | keep _ _ ih | replace _ _ _ ih | delete _ _ ih | insert _ _ ih =>
    simp only [List.length_cons]
    omega

end Edits

theorem edits_reverse : Edits k xs.reverse ys.reverse ↔ Edits k xs ys := by
  constructor
  · intro h
    have h' := h.reverse
    rwa [List.reverse_reverse, List.reverse_reverse] at h'
  · exact Edits.reverse

theorem isDistance_reverse : IsDistance xs.reverse ys.reverse k ↔ IsDistance xs ys k := by
  simp only [IsDistance, edits_reverse]

/-- From nothing there are only insertions. -/
theorem isDistance_nil_left (ys : List α) : IsDistance [] ys ys.length := by
  constructor
  · show Edits ys.length [] ys
    induction ys with
    | nil => exact .nil
    | cons y ys ih => exact .insert y ih
  · intro k hk
    have hle := Edits.length_le_left hk
    rwa [List.length_nil, Nat.zero_add] at hle

theorem isDistance_nil_right (xs : List α) : IsDistance xs [] xs.length := by
  constructor
  · show Edits xs.length xs []
    induction xs with
    | nil => exact .nil
    | cons x xs ih => exact .delete x ih
  · intro k hk
    have hle := Edits.length_le_right hk
    rwa [List.length_nil, Nat.zero_add] at hle

/-- A cell of the table from the cells above, to the left and across. -/
theorem IsDistance.cell [DecidableEq α] {above left across : ℕ} (habove : IsDistance xs (y :: ys) above)
    (hleft : IsDistance (x :: xs) ys left) (hacross : IsDistance xs ys across) :
    IsDistance (x :: xs) (y :: ys) (min (min (above + 1) (left + 1)) (across + if x = y then 0 else 1)) := by
  constructor
  · have hcase : ∀ m, m = above + 1 ∨ m = left + 1 ∨ m = (across + if x = y then 0 else 1) →
        Edits m (x :: xs) (y :: ys) := by
      rintro m (rfl | rfl | rfl)
      · exact .delete x habove.1
      · exact .insert y hleft.1
      · split_ifs with hxy
        · rw [hxy]
          exact .keep y hacross.1
        · exact .replace x y hacross.1
    apply hcase
    omega
  · intro k hk
    rcases hk with _ | ⟨_, h⟩ | ⟨_, _, h⟩ | ⟨_, h⟩ | ⟨_, h⟩
    · have hle := hacross.2 h
      rw [if_pos rfl]
      omega
    · have hle := hacross.2 h
      split_ifs <;> omega
    · have hle := habove.2 h
      omega
    · have hle := hleft.2 h
      omega

end CodeGraph.Lib
