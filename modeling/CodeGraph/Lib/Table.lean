import Mathlib.Data.Finset.Image
import Mathlib.Data.Finset.Lattice.Lemmas
import Mathlib.Data.List.Nodup

/-!
# Tables with a unique index

A table is a finite set of rows and `key` the columns of a unique index. `insertOrIgnore` adds the
rows whose key is free; which rows a table holds afterwards is a question about keys only, and
`image_key_insertOrIgnore` and `insertOrIgnore_eq_self_iff` answer it there.
-/

namespace CodeGraph.Lib

/-- In a list whose keys are distinct, a search by key finds the row that has it. -/
theorem find?_key_eq_some {ρ κ : Type*} [DecidableEq κ] {key : ρ → κ} {l : List ρ} {r : ρ}
    (h : (l.map key).Nodup) (hr : r ∈ l) : (l.find? fun x => key x == key r) = some r := by
  induction l with
  | nil => cases hr
  | cons x l ih =>
    rw [List.map_cons, List.nodup_cons] at h
    rcases List.mem_cons.mp hr with rfl | hr'
    · rw [List.find?_cons_of_pos (by simp)]
    · have hne : key x ≠ key r := by
        intro heq
        exact h.1 (heq ▸ List.mem_map_of_mem hr')
      rw [List.find?_cons_of_neg (by simpa using hne)]
      exact ih h.2 hr'

/-! ### Row ids -/

theorem foldl_max_le_iff {l : List ℕ} {a k : ℕ} :
    l.foldl max a ≤ k ↔ a ≤ k ∧ ∀ m ∈ l, m ≤ k := by
  induction l generalizing a with
  | nil => simp
  | cons m l ih =>
    rw [List.foldl_cons, ih, max_le_iff]
    simp only [List.mem_cons, forall_eq_or_imp]
    tauto

/-- An element of the list is its maximum when no other is larger. -/
theorem eq_foldl_max_iff {l : List ℕ} {k : ℕ} (hk : k ∈ l) :
    k = l.foldl max 0 ↔ ∀ m ∈ l, m ≤ k := by
  have hle : k ≤ l.foldl max 0 := (foldl_max_le_iff.mp le_rfl).2 k hk
  rw [le_antisymm_iff, foldl_max_le_iff]
  constructor
  · rintro ⟨-, -, h⟩
    exact h
  · intro h
    exact ⟨hle, Nat.zero_le k, h⟩

/-- The id of the next row when nothing is said of ids that were in use before. -/
def nextRowId (ids : List ℕ) : ℕ := ids.foldl max 0 + 1

theorem nextRowId_not_mem (ids : List ℕ) : nextRowId ids ∉ ids := by
  intro h
  have hle : nextRowId ids ≤ ids.foldl max 0 := (foldl_max_le_iff.mp le_rfl).2 _ h
  unfold nextRowId at hle
  omega

/-! ### Unique indexes -/

variable {ρ κ : Type*} [DecidableEq ρ] [DecidableEq κ] {key : ρ → κ} {E S : Finset ρ} {r : ρ}

/-- The rows of a table are told apart by their keys. -/
def KeyUnique (key : ρ → κ) (E : Finset ρ) : Prop :=
  ∀ e ∈ E, ∀ f ∈ E, key e = key f → e = f

instance (key : ρ → κ) (E : Finset ρ) : Decidable (KeyUnique key E) :=
  inferInstanceAs (Decidable (∀ e ∈ E, ∀ f ∈ E, key e = key f → e = f))

/-- `INSERT OR IGNORE`: the rows of `S` whose key no row of `E` has are added. Two rows of `S` with
one key would both be added: callers insert sets of rows with distinct keys. -/
def insertOrIgnore (key : ρ → κ) (E S : Finset ρ) : Finset ρ :=
  E ∪ S.filter fun r => ∀ e ∈ E, key e ≠ key r

theorem mem_insertOrIgnore :
    r ∈ insertOrIgnore key E S ↔ r ∈ E ∨ r ∈ S ∧ ∀ e ∈ E, key e ≠ key r := by
  rw [insertOrIgnore, Finset.mem_union, Finset.mem_filter]

theorem subset_insertOrIgnore : E ⊆ insertOrIgnore key E S := by
  intro r hr
  exact mem_insertOrIgnore.mpr (.inl hr)

/-- Every key offered is there afterwards. -/
theorem exists_key_insertOrIgnore (hr : r ∈ S) : ∃ e ∈ insertOrIgnore key E S, key e = key r := by
  by_cases h : ∃ e ∈ E, key e = key r
  · obtain ⟨e, he, hk⟩ := h
    exact ⟨e, subset_insertOrIgnore he, hk⟩
  · push Not at h
    exact ⟨r, mem_insertOrIgnore.mpr (.inr ⟨hr, h⟩), rfl⟩

omit [DecidableEq ρ] [DecidableEq κ] in
theorem KeyUnique.subset {E' : Finset ρ} (h : KeyUnique key E) (hs : E' ⊆ E) : KeyUnique key E' :=
  fun e he f hf => h e (hs he) f (hs hf)

theorem KeyUnique.insertOrIgnore (h : KeyUnique key E) (hS : KeyUnique key S) :
    KeyUnique key (insertOrIgnore key E S) := by
  intro e he f hf hk
  rcases mem_insertOrIgnore.mp he with he | ⟨he, he'⟩
  · rcases mem_insertOrIgnore.mp hf with hf | ⟨hf, hf'⟩
    · exact h e he f hf hk
    · exact absurd hk (hf' e he)
  · rcases mem_insertOrIgnore.mp hf with hf | ⟨hf, -⟩
    · exact absurd hk.symm (he' f hf)
    · exact hS e he f hf hk

/-- An insert leaves the table alone exactly when every key it offers is taken. -/
theorem insertOrIgnore_eq_self_iff :
    CodeGraph.Lib.insertOrIgnore key E S = E ↔ ∀ r ∈ S, ∃ e ∈ E, key e = key r := by
  constructor
  · intro h r hr
    have hk : ∃ e ∈ CodeGraph.Lib.insertOrIgnore key E S, key e = key r :=
      exists_key_insertOrIgnore hr
    rwa [h] at hk
  · intro h
    ext r
    rw [mem_insertOrIgnore]
    refine ⟨?_, .inl⟩
    rintro (hr | ⟨hr, hfree⟩)
    · exact hr
    · obtain ⟨e, he, hk⟩ := h r hr
      exact absurd hk (hfree e he)

end CodeGraph.Lib
