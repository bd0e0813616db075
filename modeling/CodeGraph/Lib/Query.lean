import Mathlib.Data.Finset.Basic

/-!
# Queries asked in pieces

A query `WHERE key IN (…)` with too many keys for one statement is asked in pieces, and the rows of each
answer arrive in whatever order the database reads them. A `Plan` stands for both choices. A program that
reads the rows one by one and ends with the same result under every plan depends on neither.
-/

namespace CodeGraph.Lib

variable {κ ρ : Type*}

structure Plan (κ ρ : Type*) where
  /-- The pieces the keys are asked about in. -/
  split : List κ → List (List κ)
  split_flatten : ∀ l, (split l).flatten = l
  /-- The rows of one answer, in the order they arrive. -/
  answer : Finset ρ → List ρ
  mem_answer : ∀ rows row, row ∈ answer rows ↔ row ∈ rows

/-- The rows of all answers in turn. -/
def Plan.rows (P : Plan κ ρ) (query : List κ → Finset ρ) (keys : List κ) : List ρ :=
  (P.split keys).flatMap fun piece => P.answer (query piece)

theorem Plan.mem_rows (P : Plan κ ρ) {query : List κ → Finset ρ} {keys : List κ} {row : ρ}
    {Q : κ → ρ → Prop} (hquery : ∀ keys row, row ∈ query keys ↔ ∃ k ∈ keys, Q k row) :
    row ∈ P.rows query keys ↔ ∃ k ∈ keys, Q k row := by
  have hflat : ∀ k, k ∈ keys ↔ ∃ piece ∈ P.split keys, k ∈ piece := by
    intro k
    rw [← List.mem_flatten, P.split_flatten]
  simp only [rows, List.mem_flatMap, P.mem_answer, hquery, hflat]
  constructor
  · rintro ⟨piece, hpiece, k, hk, hrow⟩
    exact ⟨k, ⟨piece, hpiece, hk⟩, hrow⟩
  · rintro ⟨k, ⟨piece, hpiece, hk⟩, hrow⟩
    exact ⟨piece, hpiece, k, hk, hrow⟩

theorem flatten_toChunksAux (n i : ℕ) (l : List κ) :
    (l.toChunksAux n i).1 ++ (l.toChunksAux n i).2.flatten = l := by
  induction l generalizing i with
  | nil => rfl
  | cons a l ih =>
    cases i with
    | zero => exact congrArg (a :: ·) (ih n)
    | succ i => exact congrArg (a :: ·) (ih i)

/-- `<[T]>::chunks`: pieces of `n` elements, and a last one with what is left. -/
def chunks (n : ℕ) : List κ → List (List κ)
  | [] => []
  | a :: l =>
    let (piece, pieces) := l.toChunksAux (n - 1) (n - 1)
    (a :: piece) :: pieces

theorem flatten_chunks (n : ℕ) (l : List κ) : (chunks n l).flatten = l := by
  cases l with
  | nil => rfl
  | cons a l => exact congrArg (a :: ·) (flatten_toChunksAux (n - 1) (n - 1) l)

/-- Pieces of `n` keys. -/
def Plan.chunked (n : ℕ) (answer : Finset ρ → List ρ)
    (mem_answer : ∀ rows row, row ∈ answer rows ↔ row ∈ rows) : Plan κ ρ where
  split := chunks n
  split_flatten := flatten_chunks n
  answer := answer
  mem_answer := mem_answer

end CodeGraph.Lib
