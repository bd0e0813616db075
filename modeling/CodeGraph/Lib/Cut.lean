import Mathlib.Data.List.Basic

/-!
# Lists with stretches cut out

`Cut soft hard xs ys` says that `ys` is `xs` without some stretches, each of which holds a `hard` element and otherwise
only `hard` and `soft` ones: what is soft goes only together with something hard next to it. Cutting twice is cutting
once (`Cut.trans`).
-/

namespace CodeGraph.Lib

variable {α : Type*} {soft hard : α → Prop} {xs ys zs g : List α}

/-- A stretch that may be cut out. -/
structure Gap (soft hard : α → Prop) (g : List α) : Prop where
  within : ∀ x ∈ g, soft x ∨ hard x
  some_hard : ∃ x ∈ g, hard x

inductive Cut (soft hard : α → Prop) : List α → List α → Prop
  | nil : Cut soft hard [] []
  | keep {xs ys : List α} (x : α) : Cut soft hard xs ys → Cut soft hard (x :: xs) (x :: ys)
  | gap {g xs ys : List α} : Gap soft hard g → Cut soft hard xs ys → Cut soft hard (g ++ xs) ys

namespace Cut

@[refl] theorem refl (xs : List α) : Cut soft hard xs xs := by
  induction xs with
  | nil => exact .nil
  | cons x xs ih => exact .keep x ih

theorem append {xs' ys' : List α} (h : Cut soft hard xs ys) (h' : Cut soft hard xs' ys') :
    Cut soft hard (xs ++ xs') (ys ++ ys') := by
  induction h with
  | nil => exact h'
  | keep x _ ih => exact .keep x ih
  | gap hg _ ih =>
    rw [List.append_assoc]
    exact .gap hg ih

/-- One stretch out of the middle of a list. -/
theorem of_gap (hg : Gap soft hard g) : Cut soft hard (xs ++ g ++ ys) (xs ++ ys) := by
  rw [List.append_assoc]
  exact (refl xs).append (.gap hg (refl ys))

theorem sublist (h : Cut soft hard xs ys) : ys.Sublist xs := by
  induction h with
  | nil => exact .slnil
  | keep x _ ih => exact ih.cons_cons x
  | @gap g _ _ _ _ ih => exact ih.trans (List.sublist_append_right g _)

/-- What is neither soft nor hard stays. -/
theorem filter_eq {p : α → Bool} (h : Cut soft hard xs ys) (hp : ∀ x, p x = true → ¬(soft x ∨ hard x)) :
    xs.filter p = ys.filter p := by
  induction h with
  | nil => rfl
  | keep x _ ih => rw [List.filter_cons, List.filter_cons, ih]
  | @gap g xs ys hg _ ih =>
    have hnone : g.filter p = [] := List.filter_eq_nil_iff.mpr fun x hx hpx => hp x hpx (hg.within x hx)
    rw [List.filter_append, hnone, List.nil_append, ih]

/-- What is cut down to two lists in a row is two lists in a row. -/
theorem split (h : Cut soft hard xs (ys ++ zs)) :
    ∃ xs₁ xs₂, xs = xs₁ ++ xs₂ ∧ Cut soft hard xs₁ ys ∧ Cut soft hard xs₂ zs := by
  generalize hw : ys ++ zs = ws at h
  induction h generalizing ys with
  | nil =>
    obtain ⟨rfl, rfl⟩ := List.append_eq_nil_iff.mp hw
    exact ⟨[], [], rfl, .nil, .nil⟩
  | @keep xs ws x h ih =>
    cases ys with
    | nil => exact ⟨[], x :: xs, rfl, .nil, by rw [show zs = x :: ws from hw]; exact .keep x h⟩
    | cons y ys =>
      obtain ⟨rfl, hws⟩ := List.cons_eq_cons.mp hw
      obtain ⟨xs₁, xs₂, rfl, h₁, h₂⟩ := ih hws
      exact ⟨y :: xs₁, xs₂, rfl, .keep y h₁, h₂⟩
  | @gap g xs ws hg h ih =>
    obtain ⟨xs₁, xs₂, rfl, h₁, h₂⟩ := ih hw
    exact ⟨g ++ xs₁, xs₂, by rw [List.append_assoc], .gap hg h₁, h₂⟩

/-- Only soft and hard elements are cut. -/
theorem within (h : Cut soft hard xs ys) (hy : ∀ y ∈ ys, soft y ∨ hard y) : ∀ x ∈ xs, soft x ∨ hard x := by
  induction h with
  | nil => exact hy
  | keep x _ ih =>
    intro z hz
    cases List.mem_cons.mp hz with
    | inl hz => exact hy z (hz ▸ List.mem_cons_self)
    | inr hz => exact ih (fun y hmem => hy y (List.mem_cons_of_mem x hmem)) z hz
  | gap hg _ ih =>
    intro z hz
    cases List.mem_append.mp hz with
    | inl hz => exact hg.within z hz
    | inr hz => exact ih hy z hz

/-- A stretch of what was cut before was a stretch already. -/
theorem gap_of_cut (h : Cut soft hard xs g) (hg : Gap soft hard g) : Gap soft hard xs where
  within := h.within hg.within
  some_hard := by
    obtain ⟨x, hx, hhard⟩ := hg.some_hard
    exact ⟨x, h.sublist.subset hx, hhard⟩

theorem trans (h₁ : Cut soft hard xs ys) (h₂ : Cut soft hard ys zs) : Cut soft hard xs zs := by
  induction h₂ generalizing xs with
  | nil => exact h₁
  | keep y _ ih =>
    have h₁ : Cut soft hard xs ([y] ++ _) := h₁
    obtain ⟨xs₁, xs₂, rfl, hy, hrest⟩ := h₁.split
    exact hy.append (ih hrest)
  | gap hg _ ih =>
    obtain ⟨xs₁, xs₂, rfl, hgap, hrest⟩ := h₁.split
    exact .gap (hgap.gap_of_cut hg) (ih hrest)

end Cut

end CodeGraph.Lib
