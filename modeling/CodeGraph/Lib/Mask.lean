import Mathlib.Data.List.Forall2
import Mathlib.Data.List.GetD

/-!
# Masked copies of a text

`blankRange` overwrites a range of a text with a filler, sparing the elements that `keep` protects. `Masks s m`
says that `m` is `s` with some elements blanked, and `Blanked m lo hi` that nothing of a range is left. Both
survive further blanking, so a text can be masked piece by piece.
-/

namespace CodeGraph.Lib

variable {α : Type*} (keep : α → Bool) (fill : α)

/-- Overwrite the elements from `lo` up to `hi` that are not kept. -/
def blankRange (lo hi : ℕ) (m : List α) : List α :=
  m.mapIdx fun k a => if lo ≤ k ∧ k < hi ∧ keep a = false then fill else a

/-- `m` is `s` with some elements blanked. -/
def Masks (s m : List α) : Prop :=
  List.Forall₂ (fun a b => b = a ∨ b = fill ∧ keep a = false) s m

/-- From `lo` up to `hi` only the filler and kept elements are left. -/
def Blanked (m : List α) (lo hi : ℕ) : Prop :=
  ∀ (k : ℕ) (b : α), lo ≤ k → k < hi → m[k]? = some b → b = fill ∨ keep b = true

variable {keep fill} {s m : List α} {lo hi : ℕ}

@[simp] theorem length_blankRange : (blankRange keep fill lo hi m).length = m.length := by
  simp [blankRange]

theorem getElem?_blankRange (k : ℕ) : (blankRange keep fill lo hi m)[k]? =
    m[k]?.map fun a => if lo ≤ k ∧ k < hi ∧ keep a = false then fill else a := by
  simp [blankRange]

theorem masks_iff : Masks keep fill s m ↔ s.length = m.length ∧
    ∀ (k : ℕ) (a b : α), s[k]? = some a → m[k]? = some b → b = a ∨ b = fill ∧ keep a = false := by
  rw [Masks, List.forall₂_iff_get]
  apply and_congr_right
  intro hlen
  constructor
  · intro h k a b ha hb
    obtain ⟨hk, rfl⟩ := List.getElem?_eq_some_iff.mp ha
    obtain ⟨hk', rfl⟩ := List.getElem?_eq_some_iff.mp hb
    exact h k hk hk'
  · intro h k hk hk'
    exact h k _ _ (List.getElem?_eq_getElem hk) (List.getElem?_eq_getElem hk')

theorem masks_refl (s : List α) : Masks keep fill s s :=
  List.forall₂_same.mpr fun _ _ => .inl rfl

theorem Masks.length_eq (h : Masks keep fill s m) : m.length = s.length :=
  (List.Forall₂.length_eq h).symm

theorem Masks.blankRange (h : Masks keep fill s m) (lo hi : ℕ) :
    Masks keep fill s (blankRange keep fill lo hi m) := by
  rw [masks_iff] at h ⊢
  refine ⟨by rw [length_blankRange, h.1], fun k a b ha hb => ?_⟩
  rw [getElem?_blankRange] at hb
  obtain ⟨c, hc, rfl⟩ := Option.map_eq_some_iff.mp hb
  have hac := h.2 k a c ha hc
  split_ifs with hif
  · rcases hac with rfl | ⟨-, hkeep⟩
    · exact .inr ⟨rfl, hif.2.2⟩
    · exact .inr ⟨rfl, hkeep⟩
  · exact hac

/-- The range just overwritten is blanked. -/
theorem blanked_blankRange : Blanked keep fill (blankRange keep fill lo hi m) lo hi := by
  intro k b hlo hhi hb
  rw [getElem?_blankRange] at hb
  obtain ⟨c, -, rfl⟩ := Option.map_eq_some_iff.mp hb
  cases hc : keep c with
  | false => simp [hlo, hhi]
  | true => simp [hc]

/-- What is blanked stays blanked. -/
theorem Blanked.blankRange {lo' hi' : ℕ} (h : Blanked keep fill m lo' hi') (lo hi : ℕ) :
    Blanked keep fill (blankRange keep fill lo hi m) lo' hi' := by
  intro k b hlo hhi hb
  rw [getElem?_blankRange] at hb
  obtain ⟨c, hc, rfl⟩ := Option.map_eq_some_iff.mp hb
  split_ifs
  · exact .inl rfl
  · exact h k c hlo hhi hc

end CodeGraph.Lib
