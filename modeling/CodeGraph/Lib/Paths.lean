import CodeGraph.Lib.Bfs
import Mathlib.Algebra.BigOperators.Field
import Mathlib.Algebra.BigOperators.Group.Finset.Basic
import Mathlib.Algebra.BigOperators.Ring.Finset
import Mathlib.Algebra.Order.BigOperators.Group.Finset
import Mathlib.Data.Rat.BigOperators
import Mathlib.Data.Set.Card
import Mathlib.Tactic.FieldSimp
import Mathlib.Tactic.Ring

/-!
# Counting shortest paths

In a finite directed graph `walkCount k s t` is the number of paths of `k` steps from `s` to `t`, by a recursion
over the last step; the first step can be split off as well (`walkCount_succ_left`). Two facts about shortest
paths follow by induction on their length:

* `card_through`: those through `v` are a shortest path to `v` and a rest, so their number is a product;
* `dependency_eq_sum`: the share of the shortest paths from `s` that pass through `v`, summed over their ends,
  is a sum over the steps out of `v` alone. A search from `s` can therefore compute it backwards.
-/

namespace CodeGraph.Lib

variable {α : Type*}

/-- The vertices of a path from `s` to `t`. -/
inductive IsPath (R : α → α → Prop) (s : α) : α → List α → Prop
  | nil : IsPath R s s [s]
  | snoc {c t : α} {l : List α} (h : IsPath R s c l) (hct : R c t) : IsPath R s t (l ++ [t])

/-- The paths from `s` to `t` of least length. -/
def shortestPaths (R : α → α → Prop) (s t : α) : Set (List α) :=
  {l | IsPath R s t l ∧ ∀ l', IsPath R s t l' → l.length ≤ l'.length}

/-- What the paths from `s` add to the betweenness of `v` among the vertices `V`: over the other vertices that
can be reached from `s`, the share of the shortest paths that pass through `v`. -/
noncomputable def betweennessFrom (V : Finset α) (R : α → α → Prop) (s v : α) : ℚ :=
  open Classical in
  ∑ t ∈ V with s ≠ v ∧ t ≠ v ∧ s ≠ t ∧ Relation.ReflTransGen R s t,
    ({l | l ∈ shortestPaths R s t ∧ v ∈ l}.ncard : ℚ) / (shortestPaths R s t).ncard

/-- Betweenness, over the ordered pairs of other vertices. -/
noncomputable def betweenness (V : Finset α) (R : α → α → Prop) (v : α) : ℚ :=
  ∑ s ∈ V, betweennessFrom V R s v

variable {R : α → α → Prop} {s t v : α} {k : ℕ} {l : List α}

theorem IsPath.getLast? (h : IsPath R s t l) : l.getLast? = some t := by
  cases h with
  | nil => rfl
  | snoc h hct => exact List.getLast?_concat

theorem IsPath.head? (h : IsPath R s t l) : l.head? = some s := by
  induction h with
  | nil => rfl
  | snoc h hct ih => rw [List.head?_append, ih, Option.some_or]

theorem IsPath.isChain (h : IsPath R s t l) : l.IsChain R := by
  induction h with
  | nil => exact List.isChain_singleton _
  | @snoc c t l h hct ih =>
    refine List.isChain_append.mpr ⟨ih, List.isChain_singleton _, ?_⟩
    intro x hx y hy
    rw [h.getLast?] at hx
    obtain rfl := Option.some.inj hx
    obtain rfl := Option.some.inj hy
    exact hct

/-- A vertex of a path is its first one, or a step leads to it. -/
theorem IsPath.eq_or_step (h : IsPath R s t l) (hv : v ∈ l) : v = s ∨ ∃ c, R c v := by
  induction h with
  | nil => exact .inl (List.mem_singleton.mp hv)
  | @snoc c t l h hct ih =>
    rcases List.mem_append.mp hv with hv | hv
    · exact ih hv
    · rw [List.mem_singleton.mp hv]
      exact .inr ⟨c, hct⟩

theorem IsPath.mono {R' : α → α → Prop} (h : IsPath R s t l) (hR : ∀ a b, R a b → R' a b) : IsPath R' s t l := by
  induction h with
  | nil => exact .nil
  | snoc h hct ih => exact ih.snoc (hR _ _ hct)

theorem IsPath.walk (h : IsPath R s t l) : ∃ k, l.length = k + 1 ∧ Walk R k s t := by
  induction h with
  | nil => exact ⟨0, rfl, rfl⟩
  | @snoc c t l h hct ih =>
    obtain ⟨k, hk, hw⟩ := ih
    exact ⟨k + 1, by rw [List.length_append, hk]; rfl, c, hw, hct⟩

theorem Walk.isPath (h : Walk R k s t) : ∃ l, IsPath R s t l ∧ l.length = k + 1 := by
  induction k generalizing t with
  | zero =>
    cases h
    exact ⟨[s], .nil, rfl⟩
  | succ k ih =>
    obtain ⟨c, hc, hct⟩ := h
    obtain ⟨l, hl, hlen⟩ := ih hc
    exact ⟨l ++ [t], .snoc hl hct, by rw [List.length_append, hlen]; rfl⟩

theorem IsPath.mem_last (h : IsPath R s t l) : t ∈ l :=
  List.mem_of_getLast? h.getLast?

section Count

variable [DecidableEq α] (V : Finset α) (R : α → α → Prop) [DecidableRel R]

/-- The paths of `k` steps. -/
def walks : ℕ → α → α → Finset (List α)
  | 0, s, t => if s = t then {[t]} else ∅
  | k + 1, s, t => (V.filter (R · t)).biUnion fun c => (walks k s c).image (· ++ [t])

/-- The number of paths of `k` steps. -/
def walkCount : ℕ → α → α → ℕ
  | 0, s, t => if s = t then 1 else 0
  | k + 1, s, t => ∑ c ∈ V with R c t, walkCount k s c

end Count

variable [DecidableEq α] {V : Finset α} [DecidableRel R]

theorem mem_walks (hR : ∀ a b, R a b → a ∈ V) : l ∈ walks V R k s t ↔ IsPath R s t l ∧ l.length = k + 1 := by
  -- the induction is on the length: a longer walk ends in an edge
  induction k generalizing t l with
  | zero =>
    rw [walks]
    constructor
    · intro h
      split_ifs at h with hst
      · subst hst
        rw [Finset.mem_singleton.mp h]
        exact ⟨.nil, rfl⟩
      · exact absurd h (Finset.notMem_empty l)
    · rintro ⟨h, hlen⟩
      cases h with
      | nil => simp
      | snoc h hct =>
        obtain ⟨k, hk, -⟩ := h.walk
        rw [List.length_append, hk] at hlen
        simp at hlen
  | succ k ih =>
    rw [walks, Finset.mem_biUnion]
    constructor
    · rintro ⟨c, hc, hl⟩
      obtain ⟨l', hl', rfl⟩ := Finset.mem_image.mp hl
      obtain ⟨hpath, hlen⟩ := ih.mp hl'
      exact ⟨.snoc hpath (Finset.mem_filter.mp hc).2, by rw [List.length_append, hlen]; rfl⟩
    · rintro ⟨h, hlen⟩
      cases h with
      | nil => simp at hlen
      | @snoc c _ l' h hct =>
        refine ⟨c, Finset.mem_filter.mpr ⟨hR c t hct, hct⟩, Finset.mem_image.mpr ⟨l', ih.mpr ⟨h, ?_⟩, rfl⟩⟩
        rw [List.length_append] at hlen
        exact Nat.succ.inj hlen

/-- Paths whose last step comes from different vertices are different. -/
theorem disjoint_walks (hR : ∀ a b, R a b → a ∈ V) {c c' : α} (hne : c ≠ c') :
    Disjoint ((walks V R k s c).image (· ++ [t])) ((walks V R k s c').image (· ++ [t])) := by
  rw [Finset.disjoint_left]
  intro l hl hl'
  obtain ⟨m, hm, rfl⟩ := Finset.mem_image.mp hl
  obtain ⟨m', hm', heq⟩ := Finset.mem_image.mp hl'
  have hmm : m' = m := List.append_cancel_right heq
  subst hmm
  have h := ((mem_walks hR).mp hm).1.getLast?
  have h' := ((mem_walks hR).mp hm').1.getLast?
  exact hne (Option.some_inj.mp (h.symm.trans h'))

/-- A set of paths, counted by their last step. -/
theorem card_filter_walks_succ (hR : ∀ a b, R a b → a ∈ V) (q : List α → Prop) [DecidablePred q] :
    ((walks V R (k + 1) s t).filter q).card =
      ∑ c ∈ V with R c t, ((walks V R k s c).filter fun l => q (l ++ [t])).card := by
  rw [walks, Finset.filter_biUnion, Finset.card_biUnion]
  · apply Finset.sum_congr rfl
    intro c _
    rw [Finset.filter_image, Finset.card_image_of_injective]
    exact List.append_left_injective [t]
  · intro c _ c' _ hne
    exact (disjoint_walks hR hne).mono (Finset.filter_subset _ _) (Finset.filter_subset _ _)

theorem card_walks (hR : ∀ a b, R a b → a ∈ V) : (walks V R k s t).card = walkCount V R k s t := by
  induction k generalizing t with
  | zero =>
    rw [walks, walkCount]
    split_ifs <;> rfl
  | succ k ih =>
    have h := card_filter_walks_succ (k := k) (s := s) (t := t) hR fun _ => True
    simp only [Finset.filter_true, ih] at h
    exact h

theorem walkCount_pos_iff (hR : ∀ a b, R a b → a ∈ V) : 0 < walkCount V R k s t ↔ Walk R k s t := by
  rw [← card_walks hR, Finset.card_pos]
  constructor
  · rintro ⟨l, hl⟩
    obtain ⟨hpath, hlen⟩ := (mem_walks hR).mp hl
    obtain ⟨k', hk', hw⟩ := hpath.walk
    obtain rfl : k' = k := by omega
    exact hw
  · intro h
    obtain ⟨l, hl⟩ := h.isPath
    exact ⟨l, (mem_walks hR).mpr hl⟩

/-- Paths counted by their first step. -/
theorem walkCount_succ_left (hs : s ∈ V) (ht : t ∈ V) :
    walkCount V R (k + 1) s t = ∑ c ∈ V with R s c, walkCount V R k c t := by
  induction k generalizing t with
  | zero =>
    have hleft : walkCount V R 1 s t = if R s t then 1 else 0 := by
      show (∑ c ∈ V with R c t, if s = c then 1 else 0) = _
      rw [Finset.sum_ite_eq (V.filter (R · t)) s fun _ => 1]
      simp [hs]
    have hright : (∑ c ∈ V with R s c, walkCount V R 0 c t) = if R s t then 1 else 0 := by
      show (∑ c ∈ V with R s c, if c = t then 1 else 0) = _
      rw [Finset.sum_ite_eq' (V.filter (R s ·)) t fun _ => 1]
      simp [ht]
    rw [hleft, hright]
  | succ k ih =>
    calc walkCount V R (k + 2) s t
        = ∑ c ∈ V with R c t, walkCount V R (k + 1) s c := rfl
      _ = ∑ c ∈ V with R c t, ∑ a ∈ V with R s a, walkCount V R k a c := by
          apply Finset.sum_congr rfl
          intro c hc
          exact ih (Finset.mem_filter.mp hc).1
      _ = ∑ a ∈ V with R s a, ∑ c ∈ V with R c t, walkCount V R k a c := Finset.sum_comm
      _ = ∑ a ∈ V with R s a, walkCount V R (k + 1) a t := rfl

/-! ### Shortest paths -/

variable {m : ℕ}

omit [DecidableEq α] [DecidableRel R] in
theorem Walk.append (h : Walk R k s v) (h' : Walk R m v t) : Walk R (k + m) s t := by
  induction m generalizing t with
  | zero =>
    cases h'
    exact h
  | succ m ih =>
    obtain ⟨c, hc, hct⟩ := h'
    exact ⟨c, ih hc, hct⟩

omit [DecidableEq α] [DecidableRel R] in
theorem AtDist.walk (h : AtDist R {s} k t) : Walk R k s t := by
  obtain ⟨a, ha, hw⟩ := h.1
  rwa [Set.mem_singleton_iff.mp ha] at hw

omit [DecidableEq α] [DecidableRel R] in
theorem AtDist.le (h : AtDist R {s} k t) (hw : Walk R m s t) : k ≤ m := by
  by_contra hlt
  exact h.2 m (by omega) s rfl hw

omit [DecidableEq α] [DecidableRel R] in
/-- A path of `k` steps to a vertex from which one step leads to distance `k + 1` is a shortest one. -/
theorem AtDist.of_step {c : α} (h : AtDist R {s} (k + 1) t) (hct : R c t) (hw : Walk R k s c) :
    AtDist R {s} k c := by
  obtain ⟨d, hd, hdist⟩ := exists_atDist (S := {s}) rfl hw
  have hstep : Walk R (d + 1) s t := ⟨c, hdist.walk, hct⟩
  have hle := h.le hstep
  obtain rfl : d = k := by omega
  exact hdist

omit [DecidableEq α] [DecidableRel R] in
theorem reflTransGen_iff_atDist : Relation.ReflTransGen R s t ↔ ∃ k, AtDist R {s} k t := by
  constructor
  · intro h
    have hwalk : ∃ k, Walk R k s t := by
      induction h with
      | refl => exact ⟨0, rfl⟩
      | @tail b c _ hbc ih =>
        obtain ⟨k, hk⟩ := ih
        exact ⟨k + 1, b, hk, hbc⟩
    obtain ⟨k, hk⟩ := hwalk
    obtain ⟨d, -, hd⟩ := exists_atDist (S := {s}) rfl hk
    exact ⟨d, hd⟩
  · rintro ⟨k, hk⟩
    have hw := hk.walk
    clear hk
    induction k generalizing t with
    | zero =>
      cases hw
      exact .refl
    | succ k ih =>
      obtain ⟨c, hc, hct⟩ := hw
      exact (ih hc).tail hct

theorem shortestPaths_eq_walks (hR : ∀ a b, R a b → a ∈ V) (h : AtDist R {s} k t) :
    shortestPaths R s t = walks V R k s t := by
  ext l
  rw [Finset.mem_coe, mem_walks hR]
  constructor
  · rintro ⟨hpath, hmin⟩
    obtain ⟨m, hm, hw⟩ := hpath.walk
    obtain ⟨l', hl', hlen'⟩ := h.walk.isPath
    have hle := hmin l' hl'
    have hge := h.le hw
    exact ⟨hpath, by omega⟩
  · rintro ⟨hpath, hlen⟩
    refine ⟨hpath, fun l' hl' => ?_⟩
    obtain ⟨m, hm, hw⟩ := hl'.walk
    have hge := h.le hw
    omega

theorem ncard_shortestPaths (hR : ∀ a b, R a b → a ∈ V) (h : AtDist R {s} k t) :
    (shortestPaths R s t).ncard = walkCount V R k s t := by
  rw [shortestPaths_eq_walks hR h, Set.ncard_coe_finset, card_walks hR]

/-- A shortest path through `v` is a shortest path to `v` and a rest. -/
theorem card_through {d : ℕ} (hR : ∀ a b, R a b → a ∈ V) (hv : AtDist R {s} d v) (ht : AtDist R {s} k t) :
    ((walks V R k s t).filter (v ∈ ·)).card =
      if d ≤ k then walkCount V R d s v * walkCount V R (k - d) v t else 0 := by
  induction k generalizing t with
  | zero =>
    obtain rfl : s = t := ht.walk
    by_cases hvs : v = s
    · subst hvs
      obtain rfl : d = 0 := hv.unique ht
      simp [walks, walkCount, Finset.filter_singleton]
    · have hd : ¬ d ≤ 0 := by
        intro hd
        obtain rfl : d = 0 := by omega
        exact hvs hv.walk.symm
      simp [walks, hvs, hd]
  | succ k ih =>
    by_cases htv : t = v
    · subst htv
      obtain rfl : d = k + 1 := hv.unique ht
      have hall : (walks V R (k + 1) s t).filter (t ∈ ·) = walks V R (k + 1) s t := by
        rw [Finset.filter_eq_self]
        intro l hl
        exact ((mem_walks hR).mp hl).1.mem_last
      rw [hall, card_walks hR, if_pos le_rfl, Nat.sub_self]
      simp [walkCount]
    · -- the last step does not bring `v`, so the count is that of the vertices before
      have hstep : ∀ c ∈ V.filter (R · t), ((walks V R k s c).filter fun l => v ∈ l ++ [t]).card =
          if d ≤ k then walkCount V R d s v * walkCount V R (k - d) v c else 0 := by
        intro c hc
        have hct := (Finset.mem_filter.mp hc).2
        have hmem : ∀ l : List α, v ∈ l ++ [t] ↔ v ∈ l := by
          intro l
          simp [Ne.symm htv]
        simp only [hmem]
        by_cases hck : Walk R k s c
        · exact ih (ht.of_step hct hck)
        · have hnone : walks V R k s c = ∅ := by
            rw [← Finset.card_eq_zero, card_walks hR]
            by_contra hne
            exact hck ((walkCount_pos_iff hR).mp (Nat.pos_of_ne_zero hne))
          rw [hnone, Finset.filter_empty, Finset.card_empty]
          split_ifs with hd
          · have hzero : walkCount V R (k - d) v c = 0 := by
              by_contra hne
              have hrest := (walkCount_pos_iff hR).mp (Nat.pos_of_ne_zero hne)
              have happ := hv.walk.append hrest
              rw [Nat.add_sub_cancel' hd] at happ
              exact hck happ
            rw [hzero, Nat.mul_zero]
          · rfl
      rw [card_filter_walks_succ hR, Finset.sum_congr rfl hstep]
      by_cases hd : d ≤ k
      · simp only [hd, if_true, if_pos (Nat.le_succ_of_le hd), Nat.succ_sub hd, walkCount, Finset.mul_sum]
      · simp only [hd, if_false, Finset.sum_const_zero]
        split_ifs with hd'
        · obtain rfl : d = k + 1 := by omega
          rw [Nat.sub_self]
          simp [walkCount, Ne.symm htv]
        · rfl

theorem ncard_through {d : ℕ} (hR : ∀ a b, R a b → a ∈ V) (hv : AtDist R {s} d v) (ht : AtDist R {s} k t) :
    {l | l ∈ shortestPaths R s t ∧ v ∈ l}.ncard =
      if d ≤ k then walkCount V R d s v * walkCount V R (k - d) v t else 0 := by
  rw [← card_through hR hv ht, ← Set.ncard_coe_finset, shortestPaths_eq_walks hR ht, Finset.coe_filter]
  rfl

/-! ### Dependencies -/

/-- The vertices that can be reached from `s`, and their distances. -/
structure Reached (R : α → α → Prop) (s : α) (B : Finset α) (d : α → ℕ) : Prop where
  mem_iff : ∀ x, x ∈ B ↔ ∃ k, AtDist R {s} k x
  dist : ∀ x ∈ B, AtDist R {s} (d x) x

section Dependency

variable (V : Finset α) (R : α → α → Prop) [DecidableRel R] (s : α) (d : α → ℕ)

/-- The share of the shortest paths from `s` to `t` that pass through `v`. -/
def share (v t : α) : ℚ :=
  if d v ≤ d t then
    (walkCount V R (d v) s v * walkCount V R (d t - d v) v t : ℕ) / (walkCount V R (d t) s t : ℚ)
  else 0

/-- The shares of `v`, summed over the ends of the paths. -/
def dependency (B : Finset α) (v : α) : ℚ := ∑ t ∈ B with t ≠ v, share V R s d v t

end Dependency

variable {B : Finset α} {d : α → ℕ} {w : α}

theorem Reached.walkCount_ne_zero (h : Reached R s B d) (hR : ∀ a b, R a b → a ∈ V) (hv : v ∈ B) :
    (walkCount V R (d v) s v : ℚ) ≠ 0 :=
  Nat.cast_ne_zero.mpr ((walkCount_pos_iff hR).mpr (h.dist v hv).walk).ne'

theorem Reached.share_self (h : Reached R s B d) (hR : ∀ a b, R a b → a ∈ V) (hv : v ∈ B) :
    share V R s d v v = 1 := by
  rw [share, if_pos le_rfl, Nat.sub_self]
  simp only [walkCount, if_true, Nat.mul_one]
  exact div_self (h.walkCount_ne_zero hR hv)

theorem share_eq_zero (hne : v ≠ t) (hd : d t ≤ d v) : share V R s d v t = 0 := by
  rw [share]
  split_ifs with hle
  · have heq : d t - d v = 0 := by omega
    rw [heq]
    simp [walkCount, hne]
  · rfl

/-- One share with its own end counted. -/
theorem Reached.one_add_dependency (h : Reached R s B d) (hR : ∀ a b, R a b → a ∈ V) (hv : v ∈ B) :
    1 + dependency V R s d B v = ∑ t ∈ B, share V R s d v t := by
  rw [dependency, ← h.share_self hR hv, Finset.filter_ne', add_comm]
  exact Finset.sum_erase_add B _ hv

omit [DecidableEq α] [DecidableRel R] in
theorem Reached.mem_vertices (h : Reached R s B d) (hR : ∀ a b, R a b → a ∈ V ∧ b ∈ V) (hs : s ∈ V)
    (hv : v ∈ B) : v ∈ V := by
  have hw := (h.dist v hv).walk
  cases hk : d v with
  | zero =>
    rw [hk] at hw
    cases hw
    exact hs
  | succ k =>
    rw [hk] at hw
    obtain ⟨c, -, hcv⟩ := hw
    exact (hR c v hcv).2

omit [DecidableEq α] [DecidableRel R] in
/-- A step on a shortest path to `t` leads one farther from `s`. -/
theorem Reached.of_step {m : ℕ} (h : Reached R s B d) (hv : v ∈ B) (ht : t ∈ B) (hd : d t = d v + (m + 1))
    (hvw : R v w) (hwt : Walk R m w t) : w ∈ B ∧ d w = d v + 1 := by
  have hsw : Walk R (d v + 1) s w := ⟨v, (h.dist v hv).walk, hvw⟩
  obtain ⟨k, -, hk⟩ := exists_atDist (S := {s}) rfl hsw
  have hw : w ∈ B := (h.mem_iff w).mpr ⟨k, hk⟩
  have hle := (h.dist w hw).le hsw
  have hge := (h.dist t ht).le ((h.dist w hw).walk.append hwt)
  exact ⟨hw, by omega⟩

/-- A share in terms of the vertices one step on. -/
theorem Reached.share_eq_sum (h : Reached R s B d) (hR : ∀ a b, R a b → a ∈ V ∧ b ∈ V) (hs : s ∈ V)
    (hv : v ∈ B) (ht : t ∈ B) (hne : v ≠ t) :
    share V R s d v t =
      ∑ w ∈ B with R v w ∧ d w = d v + 1,
        (walkCount V R (d v) s v : ℚ) / walkCount V R (d w) s w * share V R s d w t := by
  have hRl : ∀ a b, R a b → a ∈ V := fun a b hab => (hR a b hab).1
  -- the walks to `t` are split by their first step, which must be one away from `s`
  by_cases hlt : d v < d t
  · obtain ⟨m, hm⟩ : ∃ m, d t = d v + (m + 1) := ⟨d t - d v - 1, by omega⟩
    have hrest : d t - d v = m + 1 := by omega
    have hcount : walkCount V R (m + 1) v t =
        ∑ w ∈ B with R v w ∧ d w = d v + 1, walkCount V R m w t := by
      rw [walkCount_succ_left (h.mem_vertices hR hs hv) (h.mem_vertices hR hs ht)]
      symm
      apply Finset.sum_subset
      · intro w hw
        obtain ⟨hwB, hvw, -⟩ := Finset.mem_filter.mp hw
        exact Finset.mem_filter.mpr ⟨(hR v w hvw).2, hvw⟩
      · intro w hw hnot
        by_contra hne
        have hvw := (Finset.mem_filter.mp hw).2
        have hwt := (walkCount_pos_iff hRl).mp (Nat.pos_of_ne_zero hne)
        obtain ⟨hwB, hdw⟩ := h.of_step hv ht hm hvw hwt
        exact hnot (Finset.mem_filter.mpr ⟨hwB, hvw, hdw⟩)
    rw [share, if_pos hlt.le, hrest, hcount, Finset.mul_sum, Nat.cast_sum, Finset.sum_div]
    apply Finset.sum_congr rfl
    intro w hw
    obtain ⟨hwB, -, hdw⟩ := Finset.mem_filter.mp hw
    have hσ := h.walkCount_ne_zero hRl hwB
    have hle : d w ≤ d t := by omega
    have hrest' : d t - d w = m := by omega
    rw [share, if_pos hle, hrest', Nat.cast_mul, Nat.cast_mul]
    field_simp
  · -- `t` is not behind `v`, nor behind a node that is farther
    rw [share_eq_zero hne (not_lt.mp hlt)]
    symm
    apply Finset.sum_eq_zero
    intro w hw
    obtain ⟨-, -, hdw⟩ := Finset.mem_filter.mp hw
    rw [share_eq_zero _ (by omega), mul_zero]
    rintro rfl
    omega

/-- **The recurrence**: the dependency on `v` from the dependencies on the vertices one step on. -/
theorem Reached.dependency_eq_sum (h : Reached R s B d) (hR : ∀ a b, R a b → a ∈ V ∧ b ∈ V) (hs : s ∈ V)
    (hv : v ∈ B) :
    dependency V R s d B v =
      ∑ w ∈ B with R v w ∧ d w = d v + 1,
        (walkCount V R (d v) s v : ℚ) / walkCount V R (d w) s w * (1 + dependency V R s d B w) := by
  have hRl : ∀ a b, R a b → a ∈ V := fun a b hab => (hR a b hab).1
  calc dependency V R s d B v
      = ∑ t ∈ B with t ≠ v, ∑ w ∈ B with R v w ∧ d w = d v + 1,
          (walkCount V R (d v) s v : ℚ) / walkCount V R (d w) s w * share V R s d w t := by
        apply Finset.sum_congr rfl
        intro t ht
        rw [Finset.mem_filter] at ht
        exact h.share_eq_sum hR hs hv ht.1 (Ne.symm ht.2)
    _ = ∑ t ∈ B, ∑ w ∈ B with R v w ∧ d w = d v + 1,
          (walkCount V R (d v) s v : ℚ) / walkCount V R (d w) s w * share V R s d w t := by
        -- `v` itself adds nothing: the vertices one step on are farther than it
        apply Finset.sum_filter_of_ne
        intro t ht hsum htv
        apply hsum
        apply Finset.sum_eq_zero
        intro w hw
        have hdw := (Finset.mem_filter.mp hw).2.2
        rw [share_eq_zero, mul_zero]
        · rintro rfl
          rw [htv] at hdw
          omega
        · rw [htv]
          omega
    _ = ∑ w ∈ B with R v w ∧ d w = d v + 1, ∑ t ∈ B,
          (walkCount V R (d v) s v : ℚ) / walkCount V R (d w) s w * share V R s d w t := Finset.sum_comm
    _ = _ := by
        apply Finset.sum_congr rfl
        intro w hw
        rw [h.one_add_dependency hRl (Finset.mem_filter.mp hw).1, Finset.mul_sum]

/-! ### Betweenness -/

omit [DecidableEq α] [DecidableRel R] in
theorem IsPath.exists_walk (h : IsPath R s t l) (hv : v ∈ l) : ∃ k, Walk R k s v := by
  induction h with
  | nil =>
    obtain rfl := List.mem_singleton.mp hv
    exact ⟨0, rfl⟩
  | @snoc c t l h hct ih =>
    rcases List.mem_append.mp hv with hv | hv
    · exact ih hv
    · obtain ⟨k, -, hk⟩ := h.walk
      obtain rfl := List.mem_singleton.mp hv
      exact ⟨k + 1, c, hk, hct⟩

theorem Reached.share_eq_ncard (h : Reached R s B d) (hR : ∀ a b, R a b → a ∈ V) (hv : v ∈ B) (ht : t ∈ B) :
    share V R s d v t =
      ({l | l ∈ shortestPaths R s t ∧ v ∈ l}.ncard : ℚ) / (shortestPaths R s t).ncard := by
  rw [share, ncard_through hR (h.dist v hv) (h.dist t ht), ncard_shortestPaths hR (h.dist t ht)]
  split_ifs
  · rfl
  · rw [Nat.cast_zero, zero_div]

/-- What one source adds to the betweenness of `v` is the dependency on `v`. -/
theorem Reached.betweennessFrom_eq (h : Reached R s B d) (hR : ∀ a b, R a b → a ∈ V ∧ b ∈ V) (hs : s ∈ V) :
    betweennessFrom V R s v = if s ≠ v ∧ v ∈ B then dependency V R s d B v else 0 := by
  have hRl : ∀ a b, R a b → a ∈ V := fun a b hab => (hR a b hab).1
  have hreach : ∀ t, Relation.ReflTransGen R s t ↔ t ∈ B :=
    fun t => reflTransGen_iff_atDist.trans (h.mem_iff t).symm
  unfold betweennessFrom
  split_ifs with hv
  · trans ∑ t ∈ B with s ≠ v ∧ t ≠ v ∧ s ≠ t, share V R s d v t
    · apply Finset.sum_congr
      · ext t
        simp only [Finset.mem_filter, hreach]
        constructor
        · rintro ⟨-, hsv, htv, hst, htB⟩
          exact ⟨htB, hsv, htv, hst⟩
        · rintro ⟨htB, hsv, htv, hst⟩
          exact ⟨h.mem_vertices hR hs htB, hsv, htv, hst, htB⟩
      · intro t ht
        exact (h.share_eq_ncard hRl hv.2 (Finset.mem_filter.mp ht).1).symm
    · rw [dependency]
      apply Finset.sum_subset
      · intro t ht
        obtain ⟨htB, -, htv, -⟩ := Finset.mem_filter.mp ht
        exact Finset.mem_filter.mpr ⟨htB, htv⟩
      · intro t ht hnot
        obtain ⟨htB, htv⟩ := Finset.mem_filter.mp ht
        -- the only end left out is `s` itself, which no shortest path comes back to
        obtain rfl : s = t := by
          by_contra hst
          exact hnot (Finset.mem_filter.mpr ⟨htB, hv.1, htv, hst⟩)
        have hzero : d s = 0 := by
          have hself : Walk R 0 s s := rfl
          have hle := (h.dist s htB).le hself
          omega
        exact share_eq_zero (Ne.symm hv.1) (by omega)
  · apply Finset.sum_eq_zero
    intro t ht
    simp only [Finset.mem_filter] at ht
    have hnone : {l | l ∈ shortestPaths R s t ∧ v ∈ l} = ∅ := by
      rw [Set.eq_empty_iff_forall_notMem]
      rintro l ⟨hl, hvl⟩
      obtain ⟨k, hk⟩ := hl.1.exists_walk hvl
      obtain ⟨m, -, hm⟩ := exists_atDist (S := {s}) rfl hk
      exact hv ⟨ht.2.1, (h.mem_iff v).mpr ⟨m, hm⟩⟩
    rw [hnone, Set.ncard_empty, Nat.cast_zero, zero_div]

end CodeGraph.Lib
