import Mathlib.Data.List.Chain

/-!
# Squeezing runs of separators

`squeeze sep` drops a separator that comes right after another. What is left has no two separators in a row
(`squeeze_isChain`), a text without such pairs is left alone (`squeeze_eq_self`), and a run counts for one separator
however long it is (`squeeze_run`), so the result does not depend on the lengths of the runs (`SameRuns.squeezeFrom`).
-/

namespace CodeGraph.Lib

variable {α : Type*} {sep : α → Bool} {c : α} {prev : Bool} {s t r : List α}

/-- Drop the separators that follow a separator. The first argument says whether one has just passed. -/
def squeezeFrom (sep : α → Bool) : Bool → List α → List α
  | _, [] => []
  | prev, c :: rest => if sep c && prev then squeezeFrom sep prev rest else c :: squeezeFrom sep (sep c) rest

def squeeze (sep : α → Bool) (s : List α) : List α := squeezeFrom sep false s

/-- Not both are separators. -/
def Apart (sep : α → Bool) (a b : α) : Prop := ¬(sep a = true ∧ sep b = true)

theorem squeezeFrom_cons_of_not (h : (sep c && prev) = false) :
    squeezeFrom sep prev (c :: s) = c :: squeezeFrom sep (sep c) s := by
  rw [squeezeFrom, h]
  rfl

theorem squeezeFrom_cons_sep (h : sep c = true) : squeezeFrom sep true (c :: s) = squeezeFrom sep true s := by
  rw [squeezeFrom, h]
  rfl

theorem squeezeFrom_subset : squeezeFrom sep prev s ⊆ s := by
  induction s generalizing prev with
  | nil => exact List.Subset.refl []
  | cons c s ih =>
    rw [squeezeFrom]
    split_ifs with h
    · exact List.Subset.trans ih (List.subset_cons_self c s)
    · exact List.cons_subset_cons c ih

/-- After a separator none comes first. -/
theorem squeezeFrom_true_head (h : c ∈ (squeezeFrom sep true s).head?) : sep c = false := by
  induction s with
  | nil => cases h
  | cons d s ih =>
    cases hd : sep d with
    | true =>
      rw [squeezeFrom_cons_sep hd] at h
      exact ih h
    | false =>
      rw [squeezeFrom_cons_of_not (by rw [hd]; rfl)] at h
      obtain rfl := Option.some.inj h
      exact hd

theorem squeezeFrom_isChain : (squeezeFrom sep prev s).IsChain (Apart sep) := by
  induction s generalizing prev with
  | nil => exact List.IsChain.nil
  | cons c s ih =>
    rw [squeezeFrom]
    split_ifs with h
    · exact ih
    · refine List.isChain_cons.mpr ⟨?_, ih⟩
      rintro d hd ⟨hc, hsep⟩
      rw [hc] at hd
      rw [squeezeFrom_true_head hd] at hsep
      cases hsep

/-- No two separators in a row are left. -/
theorem squeeze_isChain : (squeeze sep s).IsChain (Apart sep) := squeezeFrom_isChain

/-- The first element stays. -/
theorem squeeze_head? : (squeeze sep s).head? = s.head? := by
  cases s with
  | nil => rfl
  | cons c s =>
    rw [squeeze, squeezeFrom_cons_of_not (Bool.and_false _)]
    rfl

theorem squeezeFrom_eq_self (h : s.IsChain (Apart sep)) (hhead : prev = true → ∀ c ∈ s.head?, sep c = false) :
    squeezeFrom sep prev s = s := by
  induction s generalizing prev with
  | nil => rfl
  | cons c s ih =>
    obtain ⟨happart, h⟩ := List.isChain_cons.mp h
    have hfirst : (sep c && prev) = false := by
      cases prev with
      | false => exact Bool.and_false _
      | true => rw [hhead rfl c rfl, Bool.false_and]
    rw [squeezeFrom_cons_of_not hfirst, ih h]
    intro hc d hd
    exact Bool.eq_false_iff.mpr fun hsep => happart d hd ⟨hc, hsep⟩

/-- A text without two separators in a row stays. -/
theorem squeeze_eq_self (h : s.IsChain (Apart sep)) : squeeze sep s = s :=
  squeezeFrom_eq_self h fun hprev => Bool.noConfusion hprev

@[simp] theorem squeeze_squeeze : squeeze sep (squeeze sep s) = squeeze sep s := squeeze_eq_self squeeze_isChain

/-! ### Runs -/

theorem squeezeFrom_sep (h : ∀ c ∈ r, sep c = true) : squeezeFrom sep true (r ++ s) = squeezeFrom sep true s := by
  induction r with
  | nil => rfl
  | cons c r ih =>
    rw [List.cons_append, squeezeFrom_cons_sep (h c (by simp))]
    exact ih fun d hd => h d (by simp [hd])

/-- A run counts for its first separator. -/
theorem squeezeFrom_run (hc : sep c = true) (hr : ∀ d ∈ r, sep d = true) :
    squeezeFrom sep prev (c :: r ++ s) =
      if prev = true then squeezeFrom sep true s else c :: squeezeFrom sep true s := by
  rw [List.cons_append]
  cases prev with
  | true => rw [squeezeFrom_cons_sep hc, squeezeFrom_sep hr, if_pos rfl]
  | false => rw [squeezeFrom_cons_of_not (Bool.and_false _), hc, squeezeFrom_sep hr, if_neg Bool.false_ne_true]

/-- Two texts that differ in what their runs of separators are made of, and in nothing else. -/
inductive SameRuns (sep : α → Bool) : List α → List α → Prop
  | nil : SameRuns sep [] []
  | cons (c : α) {s t : List α} (h : SameRuns sep s t) : SameRuns sep (c :: s) (c :: t)
  | run {c d : α} {r r' s t : List α} (hc : sep c = true) (hr : ∀ e ∈ r, sep e = true) (hd : sep d = true)
      (hr' : ∀ e ∈ r', sep e = true) (h : SameRuns sep s t) : SameRuns sep (c :: r ++ s) (d :: r' ++ t)

theorem SameRuns.map {β : Type*} {sep' : β → Bool} {f : α → β} (hf : ∀ c, sep c = true → sep' (f c) = true)
    (h : SameRuns sep s t) : SameRuns sep' (s.map f) (t.map f) := by
  have hmem : ∀ l : List α, (∀ e ∈ l, sep e = true) → ∀ e ∈ l.map f, sep' e = true := by
    intro l hl e he
    obtain ⟨c, hc, rfl⟩ := List.mem_map.mp he
    exact hf c (hl c hc)
  induction h with
  | nil => exact .nil
  | cons c h ih => exact .cons (f c) ih
  | run hc hr hd hr' h ih =>
    rw [List.map_append, List.map_append]
    exact .run (hf _ hc) (hmem _ hr) (hf _ hd) (hmem _ hr') ih

/-- Where there is only one separator, squeezed texts do not tell the lengths of runs. -/
theorem SameRuns.squeezeFrom (h : SameRuns sep s t) (hone : ∀ c d, sep c = true → sep d = true → c = d) :
    squeezeFrom sep prev s = squeezeFrom sep prev t := by
  induction h generalizing prev with
  | nil => rfl
  | cons c h ih => simp only [Lib.squeezeFrom, ih]
  | run hc hr hd hr' h ih => rw [squeezeFrom_run hc hr, squeezeFrom_run hd hr', ih, hone _ _ hc hd]

end CodeGraph.Lib
