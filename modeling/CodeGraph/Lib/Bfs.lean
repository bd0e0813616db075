import Mathlib.Data.List.Basic
import Mathlib.Data.Set.Basic

/-!
# Shortest distances, level by level

`Walk R n a b` is a walk of `n` steps, and `AtDist R S d b` says that `d` is the length of the shortest
walk from the set `S` to `b`. Two ways to compute these distances are covered:

* a level-by-level search with a set of visited elements: `Level` is its invariant, `Level.next` the step
  and `Level.stop` what an empty frontier says;
* the enumeration of simple paths, as a recursive query with a path column does it: the least length at
  which an element ends a simple path is its distance (`atDist_iff_simple`).
-/

namespace CodeGraph.Lib

variable {α : Type*} {R : α → α → Prop} {S : Set α} {a b c : α} {n d : ℕ}

/-- A walk of `n` steps. -/
def Walk (R : α → α → Prop) : ℕ → α → α → Prop
  | 0, a, b => a = b
  | n + 1, a, b => ∃ c, Walk R n a c ∧ R c b

/-- The shortest walk from `S` to `b` has `d` steps. -/
def AtDist (R : α → α → Prop) (S : Set α) (d : ℕ) (b : α) : Prop :=
  (∃ a ∈ S, Walk R d a b) ∧ ∀ n < d, ∀ a ∈ S, ¬ Walk R n a b

theorem AtDist.unique {d' : ℕ} (h : AtDist R S d b) (h' : AtDist R S d' b) : d = d' := by
  obtain ⟨a, ha, hw⟩ := h.1
  obtain ⟨a', ha', hw'⟩ := h'.1
  have hle : d ≤ d' := not_lt.mp fun hlt => h.2 d' hlt a' ha' hw'
  have hge : d' ≤ d := not_lt.mp fun hlt => h'.2 d hlt a ha hw
  omega

/-- What a walk reaches has a distance, and no longer one. -/
theorem exists_atDist (ha : a ∈ S) (h : Walk R n a b) : ∃ d ≤ n, AtDist R S d b := by
  induction n using Nat.strong_induction_on generalizing a with
  | _ n ih =>
    by_cases hshort : ∃ m < n, ∃ a' ∈ S, Walk R m a' b
    · obtain ⟨m, hm, a', ha', hw⟩ := hshort
      obtain ⟨d, hd, hdist⟩ := ih m hm ha' hw
      exact ⟨d, by omega, hdist⟩
    · push Not at hshort
      exact ⟨n, le_rfl, ⟨a, ha, h⟩, hshort⟩

theorem atDist_zero_iff : AtDist R S 0 b ↔ b ∈ S := by
  constructor
  · rintro ⟨⟨a, ha, rfl⟩, -⟩
    exact ha
  · intro hb
    exact ⟨⟨b, hb, rfl⟩, fun n hn => absurd hn (Nat.not_lt_zero n)⟩

/-- The last step of a shortest walk starts one nearer. -/
theorem AtDist.pred (h : AtDist R S (d + 1) b) : ∃ c, AtDist R S d c ∧ R c b := by
  obtain ⟨⟨a, ha, c, hw, hcb⟩, hmin⟩ := h
  refine ⟨c, ⟨⟨a, ha, hw⟩, ?_⟩, hcb⟩
  intro n hn a' ha' hw'
  exact hmin (n + 1) (by omega) a' ha' ⟨c, hw', hcb⟩

/-- A step from distance `d` ends at distance `d + 1` at most. -/
theorem AtDist.succ (h : AtDist R S d c) (hcb : R c b) : ∃ k ≤ d + 1, AtDist R S k b := by
  obtain ⟨a, ha, hw⟩ := h.1
  exact exists_atDist ha ⟨c, hw, hcb⟩

/-- No element at one distance, none farther. -/
theorem not_atDist_of_empty (h : ∀ x, ¬ AtDist R S d x) (hd : d ≤ n) : ¬ AtDist R S n b := by
  induction n, hd using Nat.le_induction generalizing b with
  | base => exact h b
  | succ n _ ih =>
    intro hb
    obtain ⟨c, hc, -⟩ := hb.pred
    exact ih hc

/-! ### Level by level -/

/-- The frontier is the level at distance `d`, and what is at `d` or nearer has been visited. -/
structure Level (R : α → α → Prop) (S : Set α) (d : ℕ) (frontier visited : Set α) : Prop where
  frontier : ∀ x, x ∈ frontier ↔ AtDist R S d x
  visited : ∀ x, x ∈ visited ↔ ∃ k ≤ d, AtDist R S k x

theorem level_zero : Level R S 0 S S := by
  refine ⟨fun x => atDist_zero_iff.symm, fun x => ?_⟩
  constructor
  · intro hx
    exact ⟨0, le_rfl, atDist_zero_iff.mpr hx⟩
  · rintro ⟨k, hk, hx⟩
    obtain rfl : k = 0 := by omega
    exact atDist_zero_iff.mp hx

/-- **The step**: the next frontier is what the frontier reaches and has not been visited. -/
theorem Level.next {F V F' V' : Set α} (h : Level R S d F V)
    (hF : ∀ x, x ∈ F' ↔ (∃ f ∈ F, R f x) ∧ x ∉ V) (hV : ∀ x, x ∈ V' ↔ x ∈ V ∨ x ∈ F') :
    Level R S (d + 1) F' V' := by
  have hfront : ∀ x, x ∈ F' ↔ AtDist R S (d + 1) x := by
    intro x
    rw [hF]
    constructor
    · rintro ⟨⟨f, hf, hfx⟩, hnew⟩
      obtain ⟨k, hk, hdist⟩ := ((h.frontier f).mp hf).succ hfx
      obtain rfl : k = d + 1 := by
        by_contra hne
        exact hnew ((h.visited x).mpr ⟨k, by omega, hdist⟩)
      exact hdist
    · intro hx
      obtain ⟨c, hc, hcx⟩ := hx.pred
      refine ⟨⟨c, (h.frontier c).mpr hc, hcx⟩, fun hvis => ?_⟩
      obtain ⟨k, hk, hdist⟩ := (h.visited x).mp hvis
      have heq : k = d + 1 := hdist.unique hx
      omega
  refine ⟨hfront, fun x => ?_⟩
  rw [hV, h.visited, hfront]
  constructor
  · rintro (⟨k, hk, hx⟩ | hx)
    · exact ⟨k, by omega, hx⟩
    · exact ⟨d + 1, le_rfl, hx⟩
  · rintro ⟨k, hk, hx⟩
    rcases Nat.lt_or_ge d k with hlt | hge
    · obtain rfl : k = d + 1 := by omega
      exact .inr hx
    · exact .inl ⟨k, hge, hx⟩

/-- With an empty frontier everything that has a distance has been visited. -/
theorem Level.stop {F V : Set α} (h : Level R S d F V) (hF : ∀ x, x ∉ F) (x : α) :
    x ∈ V ↔ ∃ k, AtDist R S k x := by
  rw [h.visited]
  constructor
  · rintro ⟨k, -, hx⟩
    exact ⟨k, hx⟩
  · rintro ⟨k, hx⟩
    refine ⟨k, ?_, hx⟩
    by_contra hlt
    exact not_atDist_of_empty (fun y hy => hF y ((h.frontier y).mpr hy)) (by omega) hx

/-! ### Simple paths -/

/-- A simple path: its elements from last to first, each a step from the one before, none twice. -/
inductive SimplePath (R : α → α → Prop) (S : Set α) : List α → Prop
  | seed {a : α} (ha : a ∈ S) : SimplePath R S [a]
  | step {a b : α} {l : List α} (h : SimplePath R S (a :: l)) (hab : R a b) (hnew : b ∉ a :: l) :
    SimplePath R S (b :: a :: l)

/-- A simple path of `n + 1` elements is a walk of `n` steps from its first. -/
theorem SimplePath.walk {l : List α} (h : SimplePath R S (b :: l)) :
    ∃ a ∈ S, Walk R l.length a b := by
  generalize hp : b :: l = p at h
  induction h generalizing b l with
  | seed ha =>
    rw [List.cons.injEq] at hp
    obtain ⟨rfl, rfl⟩ := hp
    exact ⟨b, ha, rfl⟩
  | step h hab hnew ih =>
    rw [List.cons.injEq] at hp
    obtain ⟨rfl, rfl⟩ := hp
    obtain ⟨a, ha, hw⟩ := ih rfl
    exact ⟨a, ha, _, hw, hab⟩

/-- The elements of a simple path end simple paths themselves, none of them longer. -/
theorem SimplePath.mem {l : List α} (h : SimplePath R S l) (hc : c ∈ l) :
    ∃ m, SimplePath R S (c :: m) ∧ m.length < l.length := by
  induction h with
  | seed ha =>
    obtain rfl := List.mem_singleton.mp hc
    exact ⟨[], .seed ha, by simp⟩
  | @step a b l h hab hnew ih =>
    rcases List.mem_cons.mp hc with rfl | hc
    · exact ⟨a :: l, .step h hab hnew, by simp⟩
    · obtain ⟨m, hm, hlen⟩ := ih hc
      exact ⟨m, hm, by simp only [List.length_cons] at hlen ⊢; omega⟩

/-- A simple path has one of the elements it may start from. -/
theorem SimplePath.exists_seed {l : List α} (h : SimplePath R S l) : ∃ a ∈ S, a ∈ l := by
  induction h with
  | @seed a ha => exact ⟨a, ha, List.mem_singleton.mpr rfl⟩
  | step _ _ _ ih =>
    obtain ⟨a, ha, hmem⟩ := ih
    exact ⟨a, ha, List.mem_cons_of_mem _ hmem⟩

/-- A shortest walk is a simple path. -/
theorem AtDist.simple (h : AtDist R S d b) : ∃ l, SimplePath R S (b :: l) ∧ l.length = d := by
  induction d generalizing b with
  | zero => exact ⟨[], .seed (atDist_zero_iff.mp h), rfl⟩
  | succ d ih =>
    obtain ⟨c, hc, hcb⟩ := h.pred
    obtain ⟨l, hl, hlen⟩ := ih hc
    refine ⟨c :: l, .step hl hcb ?_, by simp [hlen]⟩
    -- Were it on the path already, it would be nearer.
    intro hmem
    obtain ⟨m, hm, hmlen⟩ := hl.mem hmem
    obtain ⟨a, ha, hw⟩ := hm.walk
    exact h.2 m.length (by simp only [List.length_cons] at hmlen; omega) a ha hw

/-- **The distance is the least length of a simple path.** -/
theorem atDist_iff_simple :
    AtDist R S d b ↔ (∃ l, SimplePath R S (b :: l) ∧ l.length = d) ∧
      ∀ l, SimplePath R S (b :: l) → d ≤ l.length := by
  constructor
  · intro h
    refine ⟨h.simple, fun l hl => ?_⟩
    obtain ⟨a, ha, hw⟩ := hl.walk
    by_contra hlt
    exact h.2 l.length (by omega) a ha hw
  · rintro ⟨⟨l, hl, rfl⟩, hmin⟩
    obtain ⟨a, ha, hw⟩ := hl.walk
    obtain ⟨k, hk, hdist⟩ := exists_atDist ha hw
    obtain ⟨m, hm, rfl⟩ := hdist.simple
    have heq : m.length = l.length := le_antisymm hk (hmin m hm)
    rw [← heq]
    exact hdist

end CodeGraph.Lib
