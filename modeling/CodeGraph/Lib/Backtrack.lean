import CodeGraph.Lib.Regex
import Mathlib.Tactic.SplitIfs

/-!
# Matching by backtracking

A backtracking matcher tries the ways to match one after the other: `Pattern.ends` are the positions that it reaches from
a position, in the order in which it tries them. The order is what a lazy quantifier changes, and what a possessive one
keeps is the first of them alone. Without possessive quantifiers the positions are those of the relation of the
expression, whatever the order (`mem_ends`), so the line is selected or not as the expression says (`finds_iff`).
-/

namespace CodeGraph.Lib

inductive Mode
  | greedy | lazy | possessive
  deriving DecidableEq

inductive Pattern (α : Type*)
  | empty
  | one (p : α → Bool)
  | look (test : List α → List α → Bool)
  | seq (p q : Pattern α)
  | alt (p q : Pattern α)
  | rep (p : Pattern α) (least : ℕ) (most : Option ℕ) (mode : Mode)

variable {α : Type*} {w : List α} {R : ℕ → ℕ → Prop} {ways : ℕ → List ℕ} {i j k n len : ℕ}

/-- `n` times, whatever is reached in between. -/
def timesEnds (ways : ℕ → List ℕ) : ℕ → ℕ → List ℕ
  | 0, i => [i]
  | n + 1, i => (ways i).flatMap (timesEnds ways n)

/-- Up to `n` times more. A turn that reaches nothing new ends the loop. -/
def loopEnds (ways : ℕ → List ℕ) (lazy : Bool) : ℕ → ℕ → List ℕ
  | 0, i => [i]
  | n + 1, i =>
    let more := (ways i).flatMap fun j => if j = i then [i] else loopEnds ways lazy n j
    if lazy then i :: more else more ++ [i]

namespace Pattern

/-- The positions that are reached from `i`, in the order of the search. -/
def ends (w : List α) : Pattern α → ℕ → List ℕ
  | empty, i => [i]
  | one p, i => if w[i]?.any p then [i + 1] else []
  | look test, i => if test (w.take i) (w.drop i) then [i] else []
  | seq p q, i => (p.ends w i).flatMap (q.ends w)
  | alt p q, i => p.ends w i ++ q.ends w i
  | rep p least most mode, i =>
    let further (j : ℕ) : ℕ := (most.map (· - least)).getD (w.length - j)
    let all := if most.any (· < least) then [] else
      (timesEnds (p.ends w) least i).flatMap fun j => loopEnds (p.ends w) (mode = .lazy) (further j) j
    if mode = .possessive then all.take 1 else all

/-- The search from every position of the line finds something. -/
def finds (p : Pattern α) (w : List α) : Bool := (List.range (w.length + 1)).any fun i => !(p.ends w i).isEmpty

/-- The expression, without the order. -/
def toRe : Pattern α → Re α
  | empty => .empty
  | one p => .one p
  | look test => .look test
  | seq p q => .seq p.toRe q.toRe
  | alt p q => .alt p.toRe q.toRe
  | rep p least most _ => .rep p.toRe least most

/-- Every way to match is tried. -/
def Backtracks : Pattern α → Prop
  | empty | one _ | look _ => True
  | seq p q | alt p q => p.Backtracks ∧ q.Backtracks
  | rep p _ _ mode => p.Backtracks ∧ mode ≠ .possessive

/-- The expression with greedy quantifiers. -/
def ofRe : Re α → Pattern α
  | .empty => empty
  | .one p => one p
  | .look test => look test
  | .seq r s => seq (ofRe r) (ofRe s)
  | .alt r s => alt (ofRe r) (ofRe s)
  | .rep r least most => rep (ofRe r) least most .greedy

@[simp] theorem toRe_ofRe (r : Re α) : (ofRe r).toRe = r := by
  induction r with
  | empty | one | look => rfl
  | seq r s hr hs | alt r s hr hs =>
    rw [ofRe, toRe, hr, hs]
  | rep r least most hr => rw [ofRe, toRe, hr]

theorem backtracks_ofRe (r : Re α) : (ofRe r).Backtracks := by
  induction r with
  | empty | one | look => trivial
  | seq r s hr hs | alt r s hr hs => exact ⟨hr, hs⟩
  | rep r least most hr => exact ⟨hr, (nomatch ·)⟩

end Pattern

/-! ### Positions only grow -/

/-- A relation between positions of a line of `len` characters that never goes back. -/
def Advances (len : ℕ) (R : ℕ → ℕ → Prop) : Prop := ∀ {i j}, i ≤ len → R i j → i ≤ j ∧ j ≤ len

theorem Advances.times (h : Advances len R) (n : ℕ) : Advances len (Times R n) := by
  induction n with
  | zero =>
    rintro i j hi rfl
    exact ⟨Nat.le_refl i, hi⟩
  | succ n ih =>
    rintro i j hi ⟨m, hm, hj⟩
    obtain ⟨him, hmlen⟩ := h hi hm
    obtain ⟨hmj, hjlen⟩ := ih hmlen hj
    exact ⟨Nat.le_trans him hmj, hjlen⟩

theorem Re.advances (r : Re α) : Advances w.length (r.between w) := by
  induction r with
  | empty =>
    rintro i j hi rfl
    exact ⟨Nat.le_refl i, hi⟩
  | one p =>
    rintro i j - ⟨⟨a, ha, -⟩, rfl⟩
    have hlt := (List.getElem?_eq_some_iff.mp ha).1
    exact ⟨Nat.le_succ i, hlt⟩
  | look test =>
    rintro i j hi ⟨rfl, -⟩
    exact ⟨Nat.le_refl i, hi⟩
  | seq r s hr hs =>
    rintro i j hi ⟨m, hm, hj⟩
    obtain ⟨him, hmlen⟩ := hr hi hm
    obtain ⟨hmj, hjlen⟩ := hs hmlen hj
    exact ⟨Nat.le_trans him hmj, hjlen⟩
  | alt r s hr hs =>
    rintro i j hi (h | h)
    · exact hr hi h
    · exact hs hi h
  | rep r least most hr =>
    rintro i j hi ⟨k, -, -, h⟩
    exact Advances.times hr k hi h

theorem times_add : Times R (n + k) i j ↔ ∃ m, Times R n i m ∧ Times R k m j := by
  induction n generalizing i with
  | zero => simp [Times]
  | succ n ih =>
    rw [Nat.add_right_comm]
    constructor
    · rintro ⟨x, hx, h⟩
      obtain ⟨m, hm, hj⟩ := ih.mp h
      exact ⟨m, ⟨x, hx, hm⟩, hj⟩
    · rintro ⟨m, ⟨x, hx, hm⟩, hj⟩
      exact ⟨x, hx, ih.mpr ⟨m, hm, hj⟩⟩

/-- Turns that stand still can be left out, so the room that is left bounds the turns that are needed. -/
theorem times_within (h : Advances len R) (hi : i ≤ len) (hk : Times R k i j) : ∃ k' ≤ min k (len - i), Times R k' i j := by
  induction k generalizing i with
  | zero => exact ⟨0, Nat.zero_le _, hk⟩
  | succ k ih =>
    obtain ⟨m, hm, hj⟩ := hk
    obtain ⟨him, hmlen⟩ := h hi hm
    obtain ⟨k', hk', htimes⟩ := ih hmlen hj
    rcases Nat.eq_or_lt_of_le him with rfl | hlt
    · exact ⟨k', by omega, htimes⟩
    · exact ⟨k' + 1, by omega, m, hm, htimes⟩

/-! ### What is tried is what matches -/

section

variable (hways : ∀ {i j}, i ≤ len → (j ∈ ways i ↔ R i j)) (hR : Advances len R)

include hways hR

theorem mem_timesEnds (hi : i ≤ len) : j ∈ timesEnds ways n i ↔ Times R n i j := by
  induction n generalizing i with
  | zero => exact List.mem_singleton.trans eq_comm
  | succ n ih =>
    rw [timesEnds, List.mem_flatMap]
    constructor
    · rintro ⟨m, hm, hj⟩
      have hstep := (hways hi).mp hm
      exact ⟨m, hstep, (ih (hR hi hstep).2).mp hj⟩
    · rintro ⟨m, hm, hj⟩
      exact ⟨m, (hways hi).mpr hm, (ih (hR hi hm).2).mpr hj⟩

theorem mem_loopEnds {lazy : Bool} (hi : i ≤ len) : j ∈ loopEnds ways lazy n i ↔ ∃ k ≤ n, Times R k i j := by
  induction n generalizing i with
  | zero =>
    rw [loopEnds, List.mem_singleton]
    constructor
    · rintro rfl
      exact ⟨0, Nat.le_refl 0, rfl⟩
    · rintro ⟨k, hk, h⟩
      obtain rfl := Nat.le_zero.mp hk
      exact h.symm
  | succ n ih =>
    have hmem : j ∈ loopEnds ways lazy (n + 1) i ↔
        j = i ∨ ∃ m ∈ ways i, j ∈ if m = i then [i] else loopEnds ways lazy n m := by
      rw [loopEnds]
      cases lazy
      · simp [or_comm]
      · simp
    rw [hmem]
    constructor
    · rintro (rfl | ⟨m, hm, hj⟩)
      · exact ⟨0, Nat.zero_le _, rfl⟩
      · have hstep := (hways hi).mp hm
        split_ifs at hj with hsame
        · obtain rfl := List.mem_singleton.mp hj
          exact ⟨0, Nat.zero_le _, rfl⟩
        · obtain ⟨k, hk, h⟩ := (ih (hR hi hstep).2).mp hj
          exact ⟨k + 1, Nat.succ_le_succ hk, m, hstep, h⟩
    · rintro ⟨k, hk, h⟩
      induction k with
      | zero => exact .inl h.symm
      | succ k ihk =>
        obtain ⟨m, hm, hj⟩ := h
        by_cases hsame : m = i
        · -- the turn stands still
          exact ihk (by omega) (hsame ▸ hj)
        · refine .inr ⟨m, (hways hi).mpr hm, ?_⟩
          rw [if_neg hsame]
          exact (ih (hR hi hm).2).mpr ⟨k, Nat.le_of_succ_le_succ hk, hj⟩

end

namespace Pattern

variable {p q : Pattern α} {r s : Re α} {least : ℕ} {most : Option ℕ} {mode : Mode}

theorem mem_ends_rep (hways : ∀ {i j}, i ≤ w.length → (j ∈ p.ends w i ↔ p.toRe.between w i j))
    (hmode : mode ≠ .possessive) (hi : i ≤ w.length) :
    j ∈ (rep p least most mode).ends w i ↔ (rep p least most mode).toRe.between w i j := by
  have hR : Advances w.length (p.toRe.between w) := p.toRe.advances
  rw [ends, if_neg hmode]
  dsimp only
  constructor
  · intro hj
    split_ifs at hj with hmost
    · cases hj
    obtain ⟨m, hm, hj⟩ := List.mem_flatMap.mp hj
    -- first the turns that must be, then those that may be
    have hm := (mem_timesEnds hways hR hi).mp hm
    have hmlen := (hR.times least hi hm).2
    obtain ⟨k, hk, hj⟩ := (mem_loopEnds hways hR hmlen).mp hj
    refine ⟨least + k, Nat.le_add_right _ _, ?_, times_add.mpr ⟨m, hm, hj⟩⟩
    rintro bound rfl
    simp only [Option.any_some, decide_eq_true_eq, Nat.not_lt, Option.map_some, Option.getD_some] at hmost hk
    omega
  · rintro ⟨k, hleast, hmost, h⟩
    obtain ⟨k, rfl⟩ := Nat.exists_eq_add_of_le hleast
    obtain ⟨m, hm, hj⟩ := times_add.mp h
    have hmlen := (hR.times least hi hm).2
    have hfits : ¬(most.any (· < least)) = true := by
      cases most with
      | none => exact Bool.false_ne_true
      | some bound =>
        have hbound := hmost bound rfl
        simp only [Option.any_some, decide_eq_true_eq, Nat.not_lt]
        omega
    rw [if_neg hfits]
    refine List.mem_flatMap.mpr ⟨m, (mem_timesEnds hways hR hi).mpr hm, (mem_loopEnds hways hR hmlen).mpr ?_⟩
    -- turns that read nothing can be left out, so the rest of the text bounds their number
    obtain ⟨k', hk', hj⟩ := times_within hR hmlen hj
    refine ⟨k', ?_, hj⟩
    cases most with
    | none =>
      show k' ≤ w.length - m
      omega
    | some bound =>
      have hbound := hmost bound rfl
      show k' ≤ bound - least
      omega

/-- The positions that the search reaches, where every way is tried. -/
theorem mem_ends (h : p.Backtracks) (hi : i ≤ w.length) : j ∈ p.ends w i ↔ p.toRe.between w i j := by
  -- the induction is on the pattern; only a repetition needs that its turns advance
  induction p generalizing i j with
  | empty => exact List.mem_singleton.trans eq_comm
  | one p =>
    rw [ends]
    constructor
    · intro hj
      split_ifs at hj with hany
      · obtain ⟨a, ha, hp⟩ := (Option.any_eq_true p w[i]?).mp hany
        exact ⟨⟨a, ha, hp⟩, List.mem_singleton.mp hj⟩
      · cases hj
    · rintro ⟨⟨a, ha, hp⟩, rfl⟩
      have hany : w[i]?.any p = true := by
        rw [Option.mem_def.mp ha]
        exact hp
      rw [if_pos hany]
      exact List.mem_singleton.mpr rfl
  | look test =>
    rw [ends]
    constructor
    · intro hj
      split_ifs at hj with htest
      · exact ⟨(List.mem_singleton.mp hj).symm, htest⟩
      · cases hj
    · rintro ⟨rfl, htest⟩
      rw [if_pos htest]
      exact List.mem_singleton.mpr rfl
  | seq p q hp hq =>
    rw [ends, List.mem_flatMap]
    constructor
    · rintro ⟨m, hm, hj⟩
      have hm := (hp h.1 hi).mp hm
      exact ⟨m, hm, (hq h.2 (p.toRe.advances hi hm).2).mp hj⟩
    · rintro ⟨m, hm, hj⟩
      exact ⟨m, (hp h.1 hi).mpr hm, (hq h.2 (p.toRe.advances hi hm).2).mpr hj⟩
  | alt p q hp hq =>
    rw [ends, List.mem_append, hp h.1 hi, hq h.2 hi]
    rfl
  | rep p least most mode hp => exact mem_ends_rep (fun hi => hp h.1 hi) h.2 hi

/-- The search finds something in the lines that the expression selects. -/
theorem finds_iff (h : p.Backtracks) : p.finds w = true ↔ p.toRe.Selects w := by
  rw [finds, List.any_eq_true]
  constructor
  · rintro ⟨i, hi, hne⟩
    have hi := Nat.le_of_lt_succ (List.mem_range.mp hi)
    rw [Bool.not_eq_true', List.isEmpty_eq_false_iff_exists_mem] at hne
    obtain ⟨j, hj⟩ := hne
    exact ⟨i, j, hi, (mem_ends h hi).mp hj⟩
  · rintro ⟨i, j, hi, hj⟩
    refine ⟨i, List.mem_range.mpr (Nat.lt_succ_of_le hi), ?_⟩
    rw [Bool.not_eq_true', List.isEmpty_eq_false_iff_exists_mem]
    exact ⟨j, (mem_ends h hi).mpr hj⟩

end Pattern

end CodeGraph.Lib
