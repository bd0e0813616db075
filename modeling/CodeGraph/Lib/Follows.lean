import Mathlib.Data.Prod.Lex
import Mathlib.Data.Set.Card
import Mathlib.Logic.Relation

/-!
# Cutting a relation open

A thing can be listed once all that it needs is. From a set `B` this gives `follows R B`. When nothing is free any more
and something is left, a cut lists the thing that needs the fewest of those left; `AfterCut` says what such cuts, one
after the other, lead to.
-/

namespace CodeGraph.Lib

variable {α : Type*} {R : α → α → Prop} {B E : Set α} {c i : α}

/-- What can be listed once `B` is. -/
inductive Follows (R : α → α → Prop) (B : Set α) : α → Prop
  | base {j : α} : j ∈ B → Follows R B j
  | free {j : α} : (∀ p, R j p → Follows R B p) → Follows R B j

def follows (R : α → α → Prop) (B : Set α) : Set α := {i | Follows R B i}

theorem subset_follows : B ⊆ follows R B := fun _ => .base

/-- Once all that is left needs something that is left, what is listed is what follows. -/
theorem eq_follows (hB : B ⊆ E) (hE : E ⊆ follows R B) (hstuck : ∀ i ∉ E, ∃ p, R i p ∧ p ∉ E) :
    E = follows R B := by
  refine hE.antisymm fun i hi => ?_
  induction hi with
  | base hi => exact hB hi
  | @free j _ ih =>
    by_contra hleft
    obtain ⟨p, hp, hpleft⟩ := hstuck j hleft
    exact hpleft (ih p hp)

section Cut

variable [LinearOrder α]

/-- How many of the things left a thing needs. -/
noncomputable def needsLeft (R : α → α → Prop) (E : Set α) (i : α) : ℕ := {p | R i p ∧ p ∉ E}.ncard

/-- The cut when `E` is listed: of the things left the one that needs the fewest of them, the smallest of these. -/
def IsCut (R : α → α → Prop) (E : Set α) (c : α) : Prop :=
  c ∉ E ∧ ∀ i ∉ E, toLex (needsLeft R E c, c) ≤ toLex (needsLeft R E i, i)

theorem IsCut.unique (hc : IsCut R E c) (hi : IsCut R E i) : c = i := by
  have heq := (hc.2 i hi.1).antisymm (hi.2 c hc.1)
  exact (Prod.ext_iff.mp (toLex.injective heq)).2

/-- What is listed at the start and right after each cut. -/
inductive AfterCut (R : α → α → Prop) : Set α → Prop
  | start : AfterCut R ∅
  | cut {E : Set α} {d : α} : AfterCut R E → IsCut R (follows R E) d → AfterCut R (insert d (follows R E))

/-- What a cut still needs always needs the cut in turn. -/
def CutsInCycles (R : α → α → Prop) : Prop :=
  ∀ B c, AfterCut R B → IsCut R (follows R B) c →
    ∀ p, R c p → p ∉ follows R B → Relation.ReflTransGen R p c

end Cut

end CodeGraph.Lib
