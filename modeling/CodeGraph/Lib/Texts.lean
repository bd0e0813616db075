import Mathlib.Data.List.Basic

/-!
# Texts

A text is the list of its characters.
-/

namespace CodeGraph.Lib

/-- Texts are compared lawfully: found in one step. -/
instance lawfulBEqText : LawfulBEq (List Char) := inferInstance

/-- Two texts joined by a separator that the first one does not hold come apart again. -/
theorem append_separator_inj {α : Type*} {sep : α} {s s' t t' : List α} (hs : sep ∉ s) (hs' : sep ∉ s')
    (h : s ++ sep :: t = s' ++ sep :: t') : s = s' ∧ t = t' := by
  induction s generalizing s' with
  | nil =>
    cases s' with
    | nil => exact ⟨rfl, (List.cons.inj h).2⟩
    | cons c s' => exact absurd (List.cons.inj h).1 (List.ne_of_not_mem_cons hs')
  | cons c s ih =>
    cases s' with
    | nil => exact absurd (List.cons.inj h).1.symm (List.ne_of_not_mem_cons hs)
    | cons c' s' =>
      obtain ⟨rfl, hrest⟩ := List.cons.inj h
      obtain ⟨rfl, ht⟩ := ih (List.not_mem_of_not_mem_cons hs) (List.not_mem_of_not_mem_cons hs') hrest
      exact ⟨rfl, ht⟩

end CodeGraph.Lib
