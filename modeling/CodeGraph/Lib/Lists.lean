import Mathlib.Data.List.Induction
import Mathlib.Data.List.Lattice
import Mathlib.Tactic.SplitIfs
import Mathlib.Tactic.Tauto

/-!
# Lists that grow at the end

Loops that add an element at the end of a list, or go through a list and keep one of its elements.
-/

namespace CodeGraph.Lib

variable {α : Type*} {l : List α} {x : α}

/-- Where a list with one more element can be split. -/
theorem concat_eq_append_cons {a b : List α} {y : α} (h : l ++ [x] = a ++ y :: b) :
    (a = l ∧ y = x) ∨ ∃ b', l = a ++ y :: b' := by
  rcases List.eq_nil_or_concat b with rfl | ⟨b', z, rfl⟩
  · obtain ⟨rfl, hlast⟩ := List.append_inj' h rfl
    exact .inl ⟨rfl, (List.singleton_inj.mp hlast).symm⟩
  · have h' : l ++ [x] = (a ++ y :: b') ++ [z] := by simpa using h
    exact .inr ⟨b', (List.append_inj' h' rfl).1⟩

/-- A loop that keeps the last match finds the only one. -/
theorem foldl_last_eq_some_iff {q : α → Prop} [DecidablePred q] (honly : ∀ x y, q x → q y → x = y)
    (l : List α) (x : α) : l.foldl (fun found y => if q y then some y else found) none = some x ↔ x ∈ l ∧ q x := by
  induction l using List.reverseRecOn with
  | nil => simp
  | append_singleton l y ih =>
    rw [List.foldl_concat, List.mem_append, List.mem_singleton]
    split_ifs with hy
    · constructor
      · rintro ⟨⟩
        exact ⟨.inr rfl, hy⟩
      · rintro ⟨-, hx⟩
        rw [honly x y hx hy]
    · rw [ih]
      refine ⟨fun h => ⟨.inl h.1, h.2⟩, ?_⟩
      rintro ⟨hx | rfl, hqx⟩
      · exact ⟨hx, hqx⟩
      · exact absurd hqx hy

/-- What is taken of a list with one element more. -/
theorem mem_takeWhile_concat {q : α → Bool} {a : α} : a ∈ (l ++ [x]).takeWhile q ↔
    a ∈ l.takeWhile q ∨ a = x ∧ q x = true ∧ ∀ b ∈ l, q b = true := by
  induction l with
  | nil =>
    by_cases hx : q x = true <;> simp [hx]
  | cons b l ih =>
    rw [List.cons_append]
    by_cases hb : q b = true
    · rw [List.takeWhile_cons_of_pos hb, List.takeWhile_cons_of_pos hb, List.mem_cons, ih, List.mem_cons, or_assoc]
      simp [hb]
    · rw [List.takeWhile_cons_of_neg hb, List.takeWhile_cons_of_neg hb]
      simp [hb]

theorem mem_foldl_insert [BEq α] [LawfulBEq α] {s : List α} :
    x ∈ l.foldl (fun s a => s.insert a) s ↔ x ∈ s ∨ x ∈ l := by
  induction l generalizing s with
  | nil => simp
  | cons a l ih =>
    rw [List.foldl_cons, ih, List.mem_insert_iff, List.mem_cons]
    tauto

end CodeGraph.Lib
