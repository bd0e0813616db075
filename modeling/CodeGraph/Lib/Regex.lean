import Mathlib.Logic.Relation
import Mathlib.Data.List.Forall2

/-!
# Regular expressions over a line

What an expression can match is a relation between two positions of a line (`Re.between`), so that assertions see both
sides of a position. Expressions with the same relation stand for each other everywhere (`Re.Same`). An option adds
nothing to an expression that can match nothing (`same_opt_of_refl`).
-/

namespace CodeGraph.Lib

inductive Re (α : Type*)
  | empty
  | one (p : α → Bool)
  | look (test : List α → List α → Bool)
  | seq (r s : Re α)
  | alt (r s : Re α)
  | rep (r : Re α) (least : ℕ) (most : Option ℕ)

variable {α : Type*} {w : List α} {r s r' s' : Re α} {least : ℕ} {most : Option ℕ} {i j : ℕ}

/-- `k` steps. -/
def Times (R : ℕ → ℕ → Prop) : ℕ → ℕ → ℕ → Prop
  | 0 => Eq
  | k + 1 => Relation.Comp R (Times R k)

namespace Re

/-- The expression can match what is between two positions of `w`. -/
def between (w : List α) : Re α → ℕ → ℕ → Prop
  | empty => Eq
  | one p => fun i j => (∃ a ∈ w[i]?, p a = true) ∧ j = i + 1
  | look test => fun i j => i = j ∧ test (w.take i) (w.drop i) = true
  | seq r s => Relation.Comp (r.between w) (s.between w)
  | alt r s => fun i j => r.between w i j ∨ s.between w i j
  | rep r least most => fun i j => ∃ k, least ≤ k ∧ (∀ m, most = some m → k ≤ m) ∧ Times (r.between w) k i j

/-- The expression matches somewhere in the line. -/
def Selects (r : Re α) (w : List α) : Prop := ∃ i j, i ≤ w.length ∧ r.between w i j

/-- The expressions match the same parts of `w`. -/
def Same (w : List α) (r s : Re α) : Prop := r.between w = s.between w

theorem Same.refl (r : Re α) : Same w r r := rfl

theorem Same.selects (h : Same w r s) : r.Selects w ↔ s.Selects w := by
  unfold Selects
  rw [h]

theorem Same.seq (hr : Same w r r') (hs : Same w s s') : Same w (.seq r s) (.seq r' s') := by
  unfold Same between
  rw [hr, hs]

theorem Same.alt (hr : Same w r r') (hs : Same w s s') : Same w (.alt r s) (.alt r' s') := by
  unfold Same between
  rw [hr, hs]

theorem Same.rep (h : Same w r s) : Same w (.rep r least most) (.rep s least most) := by
  unfold Same between
  rw [h]

/-- Expressions for one character that agree on the characters of the line. -/
theorem same_one {p q : α → Bool} (h : ∀ a ∈ w, p a = q a) : Same w (.one p) (.one q) := by
  funext i j
  show ((∃ a ∈ w[i]?, p a = true) ∧ j = i + 1) = ((∃ a ∈ w[i]?, q a = true) ∧ j = i + 1)
  refine propext (and_congr_left fun _ => exists_congr fun a => and_congr_right fun ha => ?_)
  rw [h a (List.mem_of_getElem? ha)]

/-! ### Options -/

theorem between_opt : (rep r 0 (some 1)).between w i j ↔ i = j ∨ r.between w i j := by
  constructor
  · rintro ⟨k, -, hk, h⟩
    have hle := hk 1 rfl
    match k, hle, h with
    | 0, _, h => exact .inl h
    | 1, _, ⟨m, hm, h⟩ => exact .inr (h ▸ hm)
  · rintro (rfl | h)
    · exact ⟨0, Nat.le_refl 0, fun _ _ => Nat.zero_le _, rfl⟩
    · exact ⟨1, Nat.zero_le 1, fun m hm => Nat.le_of_eq (Option.some_inj.mp hm), j, h, rfl⟩

/-- What may be left out matches nothing. -/
theorem between_refl (h : least = 0) : (rep r least most).between w i i := ⟨0, Nat.le_of_eq h, fun _ _ => Nat.zero_le _, rfl⟩

theorem same_opt_of_refl (h : ∀ i, r.between w i i) : Same w (.rep r 0 (some 1)) r := by
  funext i j
  refine propext (between_opt.trans (or_iff_right_of_imp ?_))
  rintro rfl
  exact h i

theorem same_opt_opt : Same w (.rep (.rep r 0 (some 1)) 0 (some 1)) (.rep r 0 (some 1)) :=
  same_opt_of_refl fun _ => between_refl rfl

/-! ### Sequences and alternatives, the latest first -/

def seqAll (pieces : List (Re α)) : Re α := pieces.foldl (fun r piece => .seq piece r) .empty

/-- The open alternative behind the finished ones. -/
def altAll (alternatives : List (Re α)) (r : Re α) : Re α := alternatives.foldl (fun r a => .alt a r) r

theorem Same.altAll {l l' : List (Re α)} (h : List.Forall₂ (Same w) l l') (hr : Same w r r') :
    Same w (altAll l r) (altAll l' r') := by
  induction h generalizing r r' with
  | nil => exact hr
  | cons ha _ ih => exact ih (ha.alt hr)

theorem Same.seqAll {l l' : List (Re α)} (h : List.Forall₂ (Same w) l l') : Same w (seqAll l) (seqAll l') := by
  suffices hfold : ∀ {r r' : Re α}, Same w r r' →
      Same w (l.foldl (fun r piece => .seq piece r) r) (l'.foldl (fun r piece => .seq piece r) r') from
    hfold (Same.refl _)
  induction h with
  | nil => exact fun hr => hr
  | cons hpiece _ ih => exact fun hr => ih (hpiece.seq hr)

end Re

end CodeGraph.Lib
