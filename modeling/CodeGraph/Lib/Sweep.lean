import CodeGraph.Lib.Sort
import Mathlib.Data.List.DropRight
import Mathlib.Data.Prod.Lex

/-!
# A sweep over spans

Elements that span something are taken in the order of their starts, of two that start together the one that ends last
first. The spans that are open at a start are on a stack, and one that is over leaves it only when it comes to the top.
So a span that is over can stay, below one that is still open.

What stays too long does no harm, since it ends before the start that is looked at (`mem_inside_iff`): the sweep finds
the elements that another span contains, however the spans overlap.
-/

namespace CodeGraph.Lib

variable {ρ α : Type*} [LinearOrder α] {span : ρ → α × α} {r x : ρ} {l pre rest : List ρ} {stack : List (α × α)}

/-- The order of the sweep. -/
def sweepKey (s : α × α) : α ×ₗ αᵒᵈ := toLex (s.1, OrderDual.toDual s.2)

/-- The stack at a start. Its top is the last one. -/
def popClosed (stack : List (α × α)) (start : α) : List (α × α) := stack.rdropWhile fun s => s.2 < start

/-- The elements in one of the spans that are open where they start. -/
def inside (span : ρ → α × α) : List (α × α) → List ρ → List ρ
  | _, [] => []
  | stack, x :: rest =>
    let stack := popClosed stack (span x).1
    (if stack.any fun s => s ≠ span x ∧ (span x).2 ≤ s.2 then [x] else []) ++ inside span (stack ++ [span x]) rest

/-- The second span lies in the first one. -/
def Within (s t : α × α) : Prop := s.1 ≤ t.1 ∧ t.2 ≤ s.2

instance (s t : α × α) : Decidable (Within s t) := inferInstanceAs (Decidable (_ ∧ _))

theorem sweepKey_le_iff {s t : α × α} : sweepKey s ≤ sweepKey t ↔ s.1 < t.1 ∨ s.1 = t.1 ∧ t.2 ≤ s.2 := by
  rw [sweepKey, sweepKey, Prod.Lex.toLex_le_toLex]
  exact Iff.rfl

theorem start_le_of_sweepKey_le {s t : α × α} (h : sweepKey s ≤ sweepKey t) : s.1 ≤ t.1 := by
  rcases sweepKey_le_iff.mp h with hlt | ⟨heq, -⟩
  · exact hlt.le
  · exact heq.le

/-- What comes later in the sweep contains nothing but its equal. -/
theorem eq_of_sweepKey_le {s t : α × α} (h : sweepKey s ≤ sweepKey t) (hwithin : Within t s) : t = s := by
  obtain ⟨hstart, hend⟩ := hwithin
  rcases sweepKey_le_iff.mp h with hlt | ⟨heq, hle⟩
  · exact absurd hlt (not_lt.mpr hstart)
  · exact Prod.ext heq.symm (le_antisymm hle hend)

/-- The stack holds spans that have been visited, and those it has lost end before a start that has been visited. -/
structure Swept (span : ρ → α × α) (pre : List ρ) (stack : List (α × α)) : Prop where
  visited : ∀ s ∈ stack, ∃ t ∈ pre, span t = s
  passed : ∀ t ∈ pre, span t ∉ stack → ∃ u ∈ pre, (span t).2 < (span u).1

theorem mem_of_mem_popClosed {s : α × α} {start : α} (h : s ∈ popClosed stack start) : s ∈ stack :=
  (List.rdropWhile_prefix _ stack).subset h

theorem lt_of_not_mem_popClosed {s : α × α} {start : α} (hs : s ∈ stack) (h : s ∉ popClosed stack start) :
    s.2 < start := by
  rw [popClosed] at h
  rw [← List.rdropWhile_append_rtakeWhile (p := fun s => decide (s.2 < start)) (l := stack), List.mem_append] at hs
  have hpopped := List.mem_rtakeWhile_imp (hs.resolve_left h)
  simpa using hpopped

theorem Swept.step (h : Swept span pre stack) :
    Swept span (pre ++ [x]) (popClosed stack (span x).1 ++ [span x]) where
  visited := by
    intro s hs
    rcases List.mem_append.mp hs with hs | hs
    · obtain ⟨t, ht, heq⟩ := h.visited s (mem_of_mem_popClosed hs)
      exact ⟨t, List.mem_append_left _ ht, heq⟩
    · exact ⟨x, by simp, (List.mem_singleton.mp hs).symm⟩
  passed := by
    intro t ht hgone
    rw [List.mem_append, not_or] at hgone
    rcases List.mem_append.mp ht with ht | ht
    · by_cases hopen : span t ∈ stack
      · exact ⟨x, by simp, lt_of_not_mem_popClosed hopen hgone.1⟩
      · obtain ⟨u, hu, hlt⟩ := h.passed t ht hopen
        exact ⟨u, List.mem_append_left _ hu, hlt⟩
    · rw [List.mem_singleton.mp ht] at hgone
      exact absurd (List.mem_singleton_self _) hgone.2

/-- The open spans show the containing ones that have been visited. -/
theorem Swept.any_iff (h : Swept span pre stack) (hx : (span x).1 ≤ (span x).2)
    (hsorted : ∀ t ∈ pre, sweepKey (span t) ≤ sweepKey (span x)) :
    ((popClosed stack (span x).1).any fun s => s ≠ span x ∧ (span x).2 ≤ s.2) = true ↔
      ∃ t ∈ pre, span t ≠ span x ∧ Within (span t) (span x) := by
  rw [List.any_eq_true]
  constructor
  · rintro ⟨s, hs, htest⟩
    obtain ⟨hne, hend⟩ := of_decide_eq_true htest
    obtain ⟨t, ht, rfl⟩ := h.visited s (mem_of_mem_popClosed hs)
    exact ⟨t, ht, hne, start_le_of_sweepKey_le (hsorted t ht), hend⟩
  · rintro ⟨t, ht, hne, -, hend⟩
    refine ⟨span t, ?_, decide_eq_true ⟨hne, hend⟩⟩
    by_contra hgone
    -- a span that has been popped, now or before, ends before `x` starts
    have hlt : (span t).2 < (span x).1 := by
      by_cases hopen : span t ∈ stack
      · exact lt_of_not_mem_popClosed hopen hgone
      · obtain ⟨u, hu, hlt⟩ := h.passed t ht hopen
        exact hlt.trans_le (start_le_of_sweepKey_le (hsorted u hu))
    exact absurd (hend.trans_lt hlt) (not_lt.mpr hx)

theorem mem_inside_of_swept (hsorted : (pre ++ rest).Pairwise fun a b => sweepKey (span a) ≤ sweepKey (span b))
    (hspan : ∀ t ∈ rest, (span t).1 ≤ (span t).2) (h : Swept span pre stack) :
    r ∈ inside span stack rest ↔ r ∈ rest ∧ ∃ t ∈ pre ++ rest, span t ≠ span r ∧ Within (span t) (span r) := by
  induction rest generalizing pre stack with
  | nil => simp [inside]
  | cons x rest ih =>
    have hassoc : pre ++ x :: rest = (pre ++ [x]) ++ rest := by simp
    have hpairwise := List.pairwise_append.mp hsorted
    have hbefore : ∀ t ∈ pre, sweepKey (span t) ≤ sweepKey (span x) := fun t ht => hpairwise.2.2 t ht x (by simp)
    have hbehind := (List.pairwise_cons.mp hpairwise.2.1).1
    have hlater := ih (by rw [← hassoc]; exact hsorted) (fun t ht => hspan t (by simp [ht])) (h.step (x := x))
    have hhere : r ∈ (if (popClosed stack (span x).1).any fun s => s ≠ span x ∧ (span x).2 ≤ s.2 then [x] else []) ↔
        r = x ∧ ∃ t ∈ pre ++ x :: rest, span t ≠ span r ∧ Within (span t) (span r) := by
      have hany := h.any_iff (hspan x (by simp)) hbefore
      constructor
      · intro hr
        split_ifs at hr with htest
        · obtain ⟨t, ht, hcontains⟩ := hany.mp htest
          obtain rfl := List.mem_singleton.mp hr
          exact ⟨rfl, t, List.mem_append_left _ ht, hcontains⟩
        · cases hr
      · rintro ⟨rfl, t, ht, hne, hwithin⟩
        rcases List.mem_append.mp ht with ht | ht
        · rw [if_pos (hany.mpr ⟨t, ht, hne, hwithin⟩)]
          exact List.mem_singleton_self r
        rcases List.mem_cons.mp ht with rfl | ht
        · exact absurd rfl hne
        · exact absurd (eq_of_sweepKey_le (hbehind t ht) hwithin) hne
    show r ∈ _ ++ _ ↔ _
    rw [List.mem_append, hhere, hlater, ← hassoc, List.mem_cons, or_and_right]

/-- The sweep finds the elements that another span contains. -/
theorem mem_inside_iff (hsorted : l.Pairwise fun a b => sweepKey (span a) ≤ sweepKey (span b))
    (hspan : ∀ t ∈ l, (span t).1 ≤ (span t).2) :
    r ∈ inside span [] l ↔ r ∈ l ∧ ∃ t ∈ l, span t ≠ span r ∧ Within (span t) (span r) := by
  have hstart : Swept span [] [] := ⟨fun s hs => (nomatch hs), fun t ht => (nomatch ht)⟩
  exact mem_inside_of_swept hsorted hspan hstart

end CodeGraph.Lib
