import CodeGraph.Graph.Centrality
import CodeGraph.Lib.Paths
import Mathlib.Algebra.BigOperators.Group.Finset.Sigma
import Mathlib.Data.List.Perm.Subperm

/-!
# Betweenness centrality is exact

For one source, in the order of the code:

* `Search` is the invariant of the queue. It is stated for the edges followed so far (`out`), so that one step
  of the inner loop is `Search.relax` and a turn of the outer loop adds them up (`Search.pop`). At the end the
  stack holds what can be reached, `dist` the distances and `sigma` the numbers of shortest paths.
* `Back` is the invariant of the back-propagation: when a node's turn comes, the nodes one step on have had
  theirs, so its `delta` is complete and is the dependency of `Lib.Paths`.
* What the search never reached still has its initial scratch, so restoring the stack restores everything
  (`source_spec`), and the sources add up.
-/

namespace CodeGraph.Graph.Centrality

open CodeGraph.Lib

/-- A graph on the numbers below `n`, without loops or parallel edges. -/
structure GoodAdj (adj : ℕ → List ℕ) (n : ℕ) : Prop where
  nodup : ∀ u, (adj u).Nodup
  bound : ∀ u, ∀ v ∈ adj u, u < n ∧ v < n
  loopless : ∀ u, u ∉ adj u

/-- The edge relation of an adjacency list. -/
abbrev Edge (adj : ℕ → List ℕ) (u v : ℕ) : Prop := v ∈ adj u

variable {adj : ℕ → List ℕ} {n s : ℕ}

/-! ### The search -/

/-- The search from `s` has followed the edges `out`, of the nodes on the stack. -/
structure Search (adj : ℕ → List ℕ) (s : ℕ) (out : ℕ → List ℕ) (sc : Scratch) (queue : List ℕ) : Prop where
  nodup : (sc.stack ++ queue).Nodup
  head : (sc.stack ++ queue).head? = some s
  seen : ∀ x, x ∈ sc.stack ++ queue → 0 ≤ sc.dist x
  unseen : ∀ x, x ∉ sc.stack ++ queue → sc.dist x = -1
  sorted : (sc.stack ++ queue).Pairwise fun x y => sc.dist x ≤ sc.dist y
  start : sc.stack = [] → queue = [s]
  near : ∀ x, sc.stack.getLast? = some x → ∀ y ∈ queue, sc.dist y ≤ sc.dist x + 1
  dist : ∀ x ∈ sc.stack ++ queue, AtDist (Edge adj) {s} (sc.dist x).toNat x
  followed : ∀ x ∈ sc.stack, ∀ y ∈ out x, y ∈ sc.stack ++ queue
  preds : ∀ w, sc.preds w = sc.stack.filter fun v => w ∈ out v ∧ sc.dist w = sc.dist v + 1
  sigma : ∀ w, sc.sigma w = (if w = s then 1 else 0) + ((sc.preds w).map sc.sigma).sum
  delta : ∀ x, sc.delta x = 0

variable {out : ℕ → List ℕ} {sc : Scratch} {queue : List ℕ} {v w : ℕ}

/-- The first source step. -/
theorem search_start (s : ℕ) :
    Search adj s adj { sigma := Function.update (fun _ => 0) s 1, dist := Function.update (fun _ => -1) s 0 }
      [s] where
  nodup := List.nodup_singleton s
  head := rfl
  seen x hx := by
    rw [List.mem_singleton.mp hx]
    simp
  unseen x hx := by
    have hne : x ≠ s := by simpa using hx
    simp [hne]
  sorted := List.pairwise_singleton _ _
  start _ := rfl
  near x hx := by cases hx
  dist x hx := by
    obtain rfl := List.mem_singleton.mp hx
    have h0 : x ∈ ({x} : Set ℕ) := rfl
    simpa using atDist_zero_iff.mpr h0
  followed x hx := absurd hx List.not_mem_nil
  preds w := rfl
  sigma w := by
    by_cases hw : w = s <;> simp [hw]
  delta x := rfl

/-- What is on the stack is no farther than its last node, what is in the queue no nearer. -/
theorem Search.le_last {rest : List ℕ} (h : Search adj s out sc queue) (hstack : sc.stack = rest ++ [v]) {x : ℕ} :
    (x ∈ sc.stack → sc.dist x ≤ sc.dist v) ∧ (x ∈ queue → sc.dist v ≤ sc.dist x) := by
  have hsorted := h.sorted
  rw [hstack, List.append_assoc, List.pairwise_append] at hsorted
  obtain ⟨-, hright, hcross⟩ := hsorted
  constructor
  · intro hx
    rw [hstack] at hx
    rcases List.mem_append.mp hx with hx | hx
    · exact hcross x hx v (by simp)
    · rw [List.mem_singleton.mp hx]
  · intro hx
    exact (List.pairwise_cons.mp hright).1 x hx

theorem Search.toNat_dist {x : ℕ} (h : Search adj s out sc queue) (hx : x ∈ sc.stack ++ queue) :
    ((sc.dist x).toNat : ℤ) = sc.dist x :=
  Int.toNat_of_nonneg (h.seen x hx)

/-- What is nearer than the last node of the stack is on the stack, if all edges before that node's have been
followed. -/
theorem Search.mem_of_near {rest : List ℕ} (h : Search adj s out sc queue) (hstack : sc.stack = rest ++ [v])
    (hout : ∀ u, u ≠ v → out u = adj u) {k x : ℕ} (hx : AtDist (Edge adj) {s} k x) (hk : (k : ℤ) < sc.dist v) :
    x ∈ sc.stack := by
  -- the induction is on the distance: the node before `x` is off the queue, so its edges were followed
  induction k generalizing x with
  | zero =>
    have hxs : x ∈ ({s} : Set ℕ) := atDist_zero_iff.mp hx
    rw [Set.mem_singleton_iff.mp hxs]
    have hhead := h.head
    rw [hstack] at hhead ⊢
    cases rest with
    | nil =>
      cases hhead
      exact List.mem_singleton.mpr rfl
    | cons r rest =>
      cases hhead
      exact List.mem_cons_self
  | succ k ih =>
    obtain ⟨u, hu, hux⟩ := hx.pred
    have hus : u ∈ sc.stack := ih hu (by push_cast at hk; omega)
    have hdu : (sc.dist u).toNat = k := (h.dist u (List.mem_append_left _ hus)).unique hu
    have hne : u ≠ v := by
      rintro rfl
      have := h.toNat_dist (List.mem_append_left _ hus)
      push_cast at hk
      omega
    have hseen := h.followed u hus x (by rw [hout u hne]; exact hux)
    have hdx : (sc.dist x).toNat = k + 1 := (h.dist x hseen).unique hx
    have hcast := h.toNat_dist hseen
    rcases List.mem_append.mp hseen with hxs | hxq
    · exact hxs
    · have := (h.le_last hstack).2 hxq
      push_cast at hk
      omega

/-- A node that is new behind an edge of the last one is one farther: were it nearer, it would have been seen from a node
before that one. -/
theorem Search.atDist_new {rest : List ℕ} (h : Search adj s out sc queue) (hstack : sc.stack = rest ++ [v])
    (hout : ∀ u, u ≠ v → out u = adj u) (hvw : w ∈ adj v) (hnew : w ∉ sc.stack ++ queue) :
    AtDist (Edge adj) {s} (sc.dist v + 1).toNat w := by
  have hvs : v ∈ sc.stack ++ queue := by
    rw [hstack]
    simp
  obtain ⟨k, hk, hdist⟩ := (h.dist v hvs).succ (show Edge adj v w from hvw)
  have hnotnear : ¬ k < (sc.dist v).toNat + 1 := by
    intro hlt
    apply hnew
    cases k with
    | zero =>
      have hws : w ∈ ({s} : Set ℕ) := atDist_zero_iff.mp hdist
      rw [Set.mem_singleton_iff.mp hws]
      exact List.mem_of_head? h.head
    | succ k =>
      obtain ⟨u, hu, huw⟩ := hdist.pred
      have hcast := h.toNat_dist hvs
      have hus := h.mem_of_near hstack hout hu (by omega)
      have hne : u ≠ v := by
        rintro rfl
        have := (h.dist u (List.mem_append_left _ hus)).unique hu
        omega
      exact h.followed u hus w (by rw [hout u hne]; exact huw)
  have hcast := h.toNat_dist hvs
  have heq : (sc.dist v + 1).toNat = k := by omega
  rw [heq]
  exact hdist

/-- **A new node** is one farther than the last of the stack. -/
theorem Search.discover {rest : List ℕ} (h : Search adj s out sc queue) (hstack : sc.stack = rest ++ [v])
    (hout : ∀ u, u ≠ v → out u = adj u) (hvw : w ∈ adj v) (hw : sc.dist w < 0) :
    Search adj s out { sc with dist := Function.update sc.dist w (sc.dist v + 1) } (queue ++ [w]) := by
  have hnew : w ∉ sc.stack ++ queue := fun hmem => absurd (h.seen w hmem) (not_le.mpr hw)
  have hvs : v ∈ sc.stack := by
    rw [hstack]
    simp
  have hmem : ∀ x, x ∈ sc.stack ++ (queue ++ [w]) ↔ x ∈ sc.stack ++ queue ∨ x = w := by
    intro x
    simp [or_assoc]
  -- the distances of what had been seen stay
  have hold : ∀ x ∈ sc.stack ++ queue, Function.update sc.dist w (sc.dist v + 1) x = sc.dist x := by
    intro x hx
    rw [Function.update_of_ne]
    rintro rfl
    exact hnew hx
  have hlow : ∀ x ∈ sc.stack ++ queue, sc.dist x ≤ sc.dist v + 1 := by
    intro x hx
    rcases List.mem_append.mp hx with hx | hx
    · have := (h.le_last hstack).1 hx
      omega
    · exact h.near v (by rw [hstack, List.getLast?_concat]) x hx
  constructor
  -- the stack with the queue behind it
  case nodup =>
    rw [← List.append_assoc]
    exact List.Nodup.append h.nodup (List.nodup_singleton w) (by simpa using hnew)
  case head =>
    have hhead := h.head
    rw [← List.append_assoc]
    cases hl : sc.stack ++ queue with
    | nil =>
      rw [hl] at hhead
      cases hhead
    | cons x xs =>
      rw [hl] at hhead
      exact hhead
  -- the distances: each node's own, and in order along the stack and the queue
  case seen =>
    intro x hx
    rcases (hmem x).mp hx with hx | rfl
    · show 0 ≤ Function.update sc.dist w (sc.dist v + 1) x
      rw [hold x hx]
      exact h.seen x hx
    · show 0 ≤ Function.update sc.dist x (sc.dist v + 1) x
      rw [Function.update_self]
      have := h.seen v (List.mem_append_left _ hvs)
      omega
  case unseen =>
    intro x hx
    rw [hmem, not_or] at hx
    show Function.update sc.dist w (sc.dist v + 1) x = -1
    rw [Function.update_of_ne hx.2]
    exact h.unseen x hx.1
  case sorted =>
    show (sc.stack ++ (queue ++ [w])).Pairwise fun x y =>
      Function.update sc.dist w (sc.dist v + 1) x ≤ Function.update sc.dist w (sc.dist v + 1) y
    rw [← List.append_assoc, List.pairwise_append]
    refine ⟨?_, List.pairwise_singleton _ _, fun x hx y hy => ?_⟩
    · apply List.Pairwise.imp_of_mem _ h.sorted
      intro x y hx hy hxy
      rwa [hold x hx, hold y hy]
    · rw [List.mem_singleton.mp hy, hold x hx, Function.update_self]
      exact hlow x hx
  case start =>
    intro hnil
    have hempty : sc.stack = [] := hnil
    rw [hempty] at hvs
    exact absurd hvs List.not_mem_nil
  case near =>
    intro x hx y hy
    have hxs : x ∈ sc.stack := List.mem_of_getLast? hx
    show Function.update sc.dist w (sc.dist v + 1) y ≤ Function.update sc.dist w (sc.dist v + 1) x + 1
    rw [hold x (List.mem_append_left _ hxs)]
    rcases List.mem_append.mp hy with hy | hy
    · rw [hold y (List.mem_append_right _ hy)]
      exact h.near x hx y hy
    · obtain rfl : x = v := by
        have hlast : sc.stack.getLast? = some v := by rw [hstack, List.getLast?_concat]
        exact Option.some_inj.mp (hx.symm.trans hlast)
      rw [List.mem_singleton.mp hy, Function.update_self]
  case dist =>
    intro x hx
    show AtDist (Edge adj) {s} (Function.update sc.dist w (sc.dist v + 1) x).toNat x
    rcases (hmem x).mp hx with hx | rfl
    · rw [hold x hx]
      exact h.dist x hx
    · rw [Function.update_self]
      exact h.atDist_new hstack hout hvw hnew
  -- no edge is followed yet, so nothing is counted
  case followed =>
    intro x hx y hy
    exact (hmem y).mpr (.inl (h.followed x hx y hy))
  case preds =>
    intro u
    show sc.preds u = _
    rw [h.preds u]
    apply List.filter_congr
    intro x hx
    have hux : Function.update sc.dist w (sc.dist v + 1) x = sc.dist x := hold x (List.mem_append_left _ hx)
    simp only [hux]
    by_cases hu : u = w
    · subst hu
      have hno : u ∉ out x := fun hmem => hnew (h.followed x hx u hmem)
      simp [hno]
    · rw [Function.update_of_ne hu]
  case sigma => exact h.sigma
  case delta => exact h.delta

/-- The predecessors of `u` once the edge from `v` to `w` has been followed. -/
theorem Search.filter_follow {rest ws : List ℕ} (h : Search adj s (Function.update adj v ws) sc queue)
    (hstack : sc.stack = rest ++ [v]) (hw : w ∉ ws) (u : ℕ) :
    (sc.stack.filter fun x => u ∈ Function.update adj v (ws ++ [w]) x ∧ sc.dist u = sc.dist x + 1) =
      sc.preds u ++ if u = w ∧ sc.dist u = sc.dist v + 1 then [v] else [] := by
  have hnodup := h.nodup
  rw [hstack, List.append_assoc, List.nodup_append] at hnodup
  have hrest : ∀ x ∈ rest, x ≠ v := fun x hx => hnodup.2.2 x hx v (by simp)
  rw [h.preds u, hstack, List.filter_append, List.filter_append, List.append_assoc]
  congr 1
  · apply List.filter_congr
    intro x hx
    rw [Function.update_of_ne (hrest x hx), Function.update_of_ne (hrest x hx)]
  · rw [List.filter_singleton, List.filter_singleton, Function.update_self, Function.update_self]
    by_cases hu : u = w
    · subst hu
      by_cases hd : sc.dist u = sc.dist v + 1 <;> simp [hw, hd]
    · by_cases hd : sc.dist u = sc.dist v + 1 <;> simp [hu, hd]

/-- **A followed edge** counts if it leads one farther. -/
theorem Search.follow {rest ws : List ℕ} (h : Search adj s (Function.update adj v ws) sc queue)
    (hstack : sc.stack = rest ++ [v]) (hw : w ∉ ws) (hseen : w ∈ sc.stack ++ queue) :
    Search adj s (Function.update adj v (ws ++ [w]))
      (if sc.dist w = sc.dist v + 1 then
        { sc with
          sigma := Function.update sc.sigma w (sc.sigma w + sc.sigma v)
          preds := Function.update sc.preds w (sc.preds w ++ [v]) }
      else sc) queue := by
  have hfollowed : ∀ x ∈ sc.stack, ∀ y ∈ Function.update adj v (ws ++ [w]) x, y ∈ sc.stack ++ queue := by
    intro x hx y hy
    by_cases hxv : x = v
    · subst hxv
      rw [Function.update_self] at hy
      rcases List.mem_append.mp hy with hy | hy
      · exact h.followed x hx y (by rw [Function.update_self]; exact hy)
      · rwa [List.mem_singleton.mp hy]
    · rw [Function.update_of_ne hxv] at hy
      exact h.followed x hx y (by rw [Function.update_of_ne hxv]; exact hy)
  split_ifs with hd
  · -- `w` is farther than the whole stack, so no count that goes into another changes
    have hws : w ∉ sc.stack := by
      intro hmem
      have := (h.le_last hstack).1 hmem
      omega
    have hkeep : ∀ x ∈ sc.stack, Function.update sc.sigma w (sc.sigma w + sc.sigma v) x = sc.sigma x := by
      intro x hx
      rw [Function.update_of_ne]
      rintro rfl
      exact hws hx
    have hvs : v ∈ sc.stack := by
      rw [hstack]
      simp
    refine { h with followed := hfollowed, preds := fun u => ?_, sigma := fun u => ?_ }
    · show Function.update sc.preds w (sc.preds w ++ [v]) u = _
      rw [h.filter_follow hstack hw]
      by_cases hu : u = w
      · subst hu
        rw [Function.update_self, if_pos ⟨rfl, hd⟩]
      · rw [Function.update_of_ne hu, if_neg fun hc => hu hc.1, List.append_nil]
    · have hpreds : ∀ x ∈ sc.preds u, x ∈ sc.stack := by
        intro x hx
        rw [h.preds u] at hx
        exact (List.mem_filter.mp hx).1
      have hsum : ((sc.preds u).map (Function.update sc.sigma w (sc.sigma w + sc.sigma v))).sum =
          ((sc.preds u).map sc.sigma).sum := by
        congr 1
        apply List.map_congr_left
        intro x hx
        exact hkeep x (hpreds x hx)
      show Function.update sc.sigma w (sc.sigma w + sc.sigma v) u = (if u = s then 1 else 0) +
        ((Function.update sc.preds w (sc.preds w ++ [v]) u).map
          (Function.update sc.sigma w (sc.sigma w + sc.sigma v))).sum
      by_cases hu : u = w
      · subst hu
        rw [Function.update_self, Function.update_self, List.map_append, List.sum_append, hsum,
          List.map_singleton, List.sum_singleton, hkeep v hvs]
        rw [h.sigma u]
        ring
      · rw [Function.update_of_ne hu, Function.update_of_ne hu, hsum]
        exact h.sigma u
  · refine { h with followed := hfollowed, preds := fun u => ?_ }
    rw [h.filter_follow hstack hw, if_neg, List.append_nil]
    rintro ⟨rfl, hd'⟩
    exact hd hd'

/-- One step of the inner loop. -/
theorem Search.relax {rest ws : List ℕ} (h : Search adj s (Function.update adj v ws) sc queue)
    (hstack : sc.stack = rest ++ [v]) (hvw : w ∈ adj v) (hw : w ∉ ws) :
    Search adj s (Function.update adj v (ws ++ [w])) (relax v (sc, queue) w).1 (relax v (sc, queue) w).2 ∧
      (relax v (sc, queue) w).1.stack = sc.stack := by
  have hout : ∀ u, u ≠ v → Function.update adj v ws u = adj u := fun u hu => Function.update_of_ne hu _ _
  unfold Centrality.relax
  dsimp only
  by_cases hd : sc.dist w < 0
  · rw [if_pos hd]
    have hnew := h.discover hstack hout hvw hd
    have hfollow := hnew.follow hstack hw (by simp)
    dsimp only at hfollow ⊢
    split_ifs at hfollow ⊢
    · exact ⟨hfollow, rfl⟩
    · exact ⟨hfollow, rfl⟩
  · rw [if_neg hd]
    have hseen : w ∈ sc.stack ++ queue := by
      by_contra hn
      have := h.unseen w hn
      omega
    have hfollow := h.follow hstack hw hseen
    dsimp only at hfollow ⊢
    split_ifs at hfollow ⊢
    · exact ⟨hfollow, rfl⟩
    · exact ⟨hfollow, rfl⟩

/-- Taking the first node of the queue, before any of its edges is followed. -/
theorem Search.pop (h : Search adj s adj sc (v :: queue)) :
    Search adj s (Function.update adj v []) { sc with stack := sc.stack ++ [v] } queue := by
  have happ : sc.stack ++ [v] ++ queue = sc.stack ++ v :: queue := by simp
  have hvs : v ∉ sc.stack := by
    intro hmem
    exact (List.nodup_append.mp h.nodup).2.2 v hmem v List.mem_cons_self rfl
  -- `v` has followed none of its edges, so it is nobody's predecessor yet
  have hfilter : ∀ u, (sc.stack ++ [v]).filter (fun x => u ∈ Function.update adj v [] x ∧
      sc.dist u = sc.dist x + 1) = sc.preds u := by
    intro u
    rw [List.filter_append, List.filter_singleton, h.preds u, Function.update_self]
    simp only [List.not_mem_nil, false_and, decide_false, cond_false, List.append_nil]
    apply List.filter_congr
    intro x hx
    rw [Function.update_of_ne]
    rintro rfl
    exact hvs hx
  constructor
  case nodup => rw [happ]; exact h.nodup
  case head => rw [happ]; exact h.head
  case seen => rw [happ]; exact h.seen
  case unseen => rw [happ]; exact h.unseen
  case sorted => rw [happ]; exact h.sorted
  case start => exact fun hnil => absurd hnil (by simp)
  -- `v` is the last of the stack now, and what was near the last one is near it
  case near =>
    intro x hx y hy
    obtain rfl : v = x := by simpa using hx
    cases hlast : sc.stack.getLast? with
    | none =>
      have hqueue := h.start (List.getLast?_eq_none_iff.mp hlast)
      cases hqueue
      exact absurd hy List.not_mem_nil
    | some z =>
      have hnear := h.near z hlast y (List.mem_cons_of_mem v hy)
      have hzv := (List.pairwise_append.mp h.sorted).2.2 z (List.mem_of_getLast? hlast) v List.mem_cons_self
      show sc.dist y ≤ sc.dist v + 1
      omega
  case dist => rw [happ]; exact h.dist
  case followed =>
    intro x hx y hy
    rw [happ]
    have hx' : x ∈ sc.stack ++ [v] := hx
    rcases List.mem_append.mp hx' with hxs | hxv
    · have hne : x ≠ v := by
        rintro rfl
        exact hvs hxs
      rw [Function.update_of_ne hne] at hy
      exact h.followed x hxs y hy
    · rw [List.mem_singleton.mp hxv, Function.update_self] at hy
      exact absurd hy List.not_mem_nil
  case preds => exact fun u => (hfilter u).symm
  case sigma => exact h.sigma
  case delta => exact h.delta

/-- The inner loop: all edges of the node taken. -/
theorem Search.expand (hgood : GoodAdj adj n) (h : Search adj s adj sc (v :: queue)) :
    Search adj s adj ((adj v).foldl (Centrality.relax v) ({ sc with stack := sc.stack ++ [v] }, queue)).1
        ((adj v).foldl (Centrality.relax v) ({ sc with stack := sc.stack ++ [v] }, queue)).2 ∧
      ((adj v).foldl (Centrality.relax v) ({ sc with stack := sc.stack ++ [v] }, queue)).1.stack =
        sc.stack ++ [v] := by
  -- over the edges already followed and those to come
  have hloop : ∀ (todo ws : List ℕ) (sc' : Scratch) (queue' : List ℕ), ws ++ todo = adj v →
      sc'.stack = sc.stack ++ [v] → Search adj s (Function.update adj v ws) sc' queue' →
      Search adj s adj (todo.foldl (Centrality.relax v) (sc', queue')).1
          (todo.foldl (Centrality.relax v) (sc', queue')).2 ∧
        (todo.foldl (Centrality.relax v) (sc', queue')).1.stack = sc.stack ++ [v] := by
    intro todo
    induction todo with
    | nil =>
      intro ws sc' queue' hws hstack hs
      rw [List.append_nil] at hws
      rw [hws, Function.update_eq_self] at hs
      exact ⟨hs, hstack⟩
    | cons w todo ih =>
      intro ws sc' queue' hws hstack hs
      have hw : w ∉ ws := by
        have hnodup := hgood.nodup v
        rw [← hws] at hnodup
        intro hmem
        exact (List.nodup_append.mp hnodup).2.2 w hmem w List.mem_cons_self rfl
      have hvw : w ∈ adj v := by
        rw [← hws]
        simp
      obtain ⟨hrelax, hkeep⟩ := hs.relax hstack hvw hw
      have hws' : ws ++ [w] ++ todo = adj v := by
        rw [← hws]
        simp
      exact ih (ws ++ [w]) _ _ hws' (hkeep.trans hstack) hrelax
  exact hloop (adj v) [] _ queue rfl rfl h.pop

theorem atDist_lt (hgood : GoodAdj adj n) (hs : s < n) {k x : ℕ} (h : AtDist (Edge adj) {s} k x) : x < n := by
  cases k with
  | zero =>
    have hxs : x ∈ ({s} : Set ℕ) := atDist_zero_iff.mp h
    rwa [Set.mem_singleton_iff.mp hxs]
  | succ k =>
    obtain ⟨u, -, hux⟩ := h.pred
    exact (hgood.bound u x hux).2

theorem Search.length_le (hgood : GoodAdj adj n) (hs : s < n) (h : Search adj s out sc queue) :
    (sc.stack ++ queue).length ≤ n := by
  have hsub : sc.stack ++ queue ⊆ List.range n := by
    intro x hx
    exact List.mem_range.mpr (atDist_lt hgood hs (h.dist x hx))
  have hle := (List.subperm_of_subset h.nodup hsub).length_le
  rwa [List.length_range] at hle

/-- The whole search: with a pop for each node it ends with nothing in the queue. -/
theorem Search.bfs (hgood : GoodAdj adj n) (hs : s < n) {fuel : ℕ} (h : Search adj s adj sc queue)
    (hfuel : n ≤ sc.stack.length + fuel) :
    ∃ sc', bfs adj fuel sc queue = some sc' ∧ Search adj s adj sc' [] := by
  induction fuel generalizing sc queue with
  | zero =>
    cases queue with
    | nil => exact ⟨sc, by rw [Centrality.bfs], h⟩
    | cons v queue =>
      have hle := h.length_le hgood hs
      rw [List.length_append, List.length_cons] at hle
      omega
  | succ fuel ih =>
    cases queue with
    | nil => exact ⟨sc, by rw [Centrality.bfs], h⟩
    | cons v queue =>
      obtain ⟨hexp, hstack⟩ := h.expand hgood
      rw [Centrality.bfs]
      apply ih hexp
      rw [hstack, List.length_append, List.length_singleton]
      omega

/-! ### What the search has found -/

/-- The distance as a number. -/
def Scratch.depth (sc : Scratch) (x : ℕ) : ℕ := (sc.dist x).toNat

theorem GoodAdj.edge (hgood : GoodAdj adj n) (a b : ℕ) (hab : Edge adj a b) :
    a ∈ Finset.range n ∧ b ∈ Finset.range n := by
  obtain ⟨ha, hb⟩ := hgood.bound a b hab
  exact ⟨Finset.mem_range.mpr ha, Finset.mem_range.mpr hb⟩

section Found

variable (h : Search adj s adj sc [])

include h

theorem Search.mem_stack_of_atDist {k x : ℕ} (hx : AtDist (Edge adj) {s} k x) : x ∈ sc.stack := by
  induction k generalizing x with
  | zero =>
    have hxs : x ∈ ({s} : Set ℕ) := atDist_zero_iff.mp hx
    rw [Set.mem_singleton_iff.mp hxs]
    simpa using List.mem_of_head? h.head
  | succ k ih =>
    obtain ⟨u, hu, hux⟩ := hx.pred
    simpa using h.followed u (ih hu) x hux

/-- The stack holds what can be reached. -/
theorem Search.reached : Reached (Edge adj) s sc.stack.toFinset sc.depth where
  mem_iff x := by
    rw [List.mem_toFinset]
    constructor
    · intro hx
      exact ⟨_, h.dist x (List.mem_append_left _ hx)⟩
    · rintro ⟨k, hk⟩
      exact h.mem_stack_of_atDist hk
  dist x hx := h.dist x (List.mem_append_left _ (List.mem_toFinset.mp hx))

theorem Search.depth_eq {x : ℕ} (hx : x ∈ sc.stack) : (sc.depth x : ℤ) = sc.dist x :=
  h.toNat_dist (List.mem_append_left _ hx)

theorem Search.mem_preds {u x : ℕ} (hu : u ∈ sc.stack) :
    x ∈ sc.preds u ↔ x ∈ sc.stack ∧ u ∈ adj x ∧ sc.depth u = sc.depth x + 1 := by
  rw [h.preds u, List.mem_filter, decide_eq_true_eq]
  apply and_congr_right
  intro hx
  apply and_congr_right
  intro _
  have hdu := h.depth_eq hu
  have hdx := h.depth_eq hx
  omega

theorem Search.preds_nodup (u : ℕ) : (sc.preds u).Nodup := by
  rw [h.preds u]
  exact ((List.nodup_append.mp h.nodup).1).filter _

/-- A node that was not reached has no predecessors and no paths. -/
theorem Search.not_reached {u : ℕ} (hu : u ∉ sc.stack) :
    sc.dist u = -1 ∧ sc.preds u = [] ∧ sc.sigma u = 0 := by
  have hd : sc.dist u = -1 := h.unseen u (by simpa using hu)
  have hpreds : sc.preds u = [] := by
    rw [h.preds u, List.filter_eq_nil_iff]
    intro x hx
    have hdx := h.seen x (List.mem_append_left _ hx)
    simp only [decide_eq_true_eq, not_and]
    intro _
    omega
  have hus : u ≠ s := by
    rintro rfl
    exact hu (by simpa using List.mem_of_head? h.head)
  refine ⟨hd, hpreds, ?_⟩
  rw [h.sigma u, hpreds]
  simp [hus]

/-- `sigma` counts the shortest paths. -/
theorem Search.sigma_eq (hgood : GoodAdj adj n) {u : ℕ} (hu : u ∈ sc.stack) :
    sc.sigma u = walkCount (Finset.range n) (Edge adj) (sc.depth u) s u := by
  have hR : ∀ a b, Edge adj a b → a ∈ Finset.range n := fun a b hab => (hgood.edge a b hab).1
  -- the induction is on the distance: the predecessors of `u` are one step nearer
  induction hk : sc.depth u generalizing u with
  | zero =>
    have hdist := h.reached.dist u (List.mem_toFinset.mpr hu)
    rw [hk] at hdist
    obtain rfl : s = u := hdist.walk
    have hpreds : sc.preds s = [] := by
      rw [List.eq_nil_iff_forall_not_mem]
      intro x hx
      have := ((h.mem_preds hu).mp hx).2.2
      omega
    rw [h.sigma s, hpreds]
    simp [walkCount]
  | succ k ih =>
    have hdist := h.reached.dist u (List.mem_toFinset.mpr hu)
    rw [hk] at hdist
    have hus : u ≠ s := by
      rintro rfl
      have hself : Walk (Edge adj) 0 u u := rfl
      have hle := hdist.le hself
      omega
    have hpred : ∀ x ∈ sc.preds u, x ∈ sc.stack ∧ u ∈ adj x ∧ sc.depth x = k := by
      intro x hx
      obtain ⟨hxs, hxu, hd⟩ := (h.mem_preds hu).mp hx
      exact ⟨hxs, hxu, by omega⟩
    rw [h.sigma u, if_neg hus, zero_add, walkCount, Nat.cast_sum]
    have hlist : (sc.preds u).map sc.sigma =
        (sc.preds u).map fun x => (walkCount (Finset.range n) (Edge adj) k s x : ℚ) := by
      apply List.map_congr_left
      intro x hx
      obtain ⟨hxs, -, hxk⟩ := hpred x hx
      exact ih hxs hxk
    rw [hlist, ← List.sum_toFinset _ (h.preds_nodup u)]
    -- a node with an edge to `u` that is no predecessor begins no walk of that length
    apply Finset.sum_subset
    · intro x hx
      obtain ⟨-, hxu, -⟩ := hpred x (List.mem_toFinset.mp hx)
      exact Finset.mem_filter.mpr ⟨hR x u hxu, hxu⟩
    · intro x hx hnot
      have hxu := (Finset.mem_filter.mp hx).2
      by_contra hne
      have hw := (walkCount_pos_iff hR).mp (Nat.pos_of_ne_zero (Nat.cast_ne_zero.mp hne))
      have hdx := hdist.of_step hxu hw
      have hxs := h.mem_stack_of_atDist hdx
      have hdepth : sc.depth x = k := (h.dist x (List.mem_append_left _ hxs)).unique hdx
      exact hnot (List.mem_toFinset.mpr ((h.mem_preds hu).mpr ⟨hxs, hxu, by omega⟩))

end Found

/-! ### Back-propagation -/

/-- The dependency on a node, as the search has found it. -/
def dep (adj : ℕ → List ℕ) (n s : ℕ) (sc : Scratch) (v : ℕ) : ℚ :=
  dependency (Finset.range n) (Edge adj) s sc.depth sc.stack.toFinset v

/-- The nodes `past` have had their turn. -/
structure Back (adj : ℕ → List ℕ) (n s : ℕ) (sc : Scratch) (bet : ℕ → ℚ) (past : List ℕ)
    (st : (ℕ → ℚ) × Scratch) : Prop where
  frame : st.2 = { sc with delta := st.2.delta }
  delta : ∀ v, st.2.delta v =
    ((past.filter fun w => v ∈ sc.preds w).map fun w => sc.sigma v * ((1 + dep adj n s sc w) / sc.sigma w)).sum
  bet : ∀ v, st.1 v = bet v + if v ∈ past ∧ v ≠ s then dep adj n s sc v else 0

/-- Adding to a vector at the members of a list. -/
theorem foldl_add_apply {f : ℕ → ℚ} {ps : List ℕ} (hps : ps.Nodup) (a : ℕ → ℚ) (x : ℕ) :
    ps.foldl (fun a v => Function.update a v (a v + f v)) a x = a x + if x ∈ ps then f x else 0 := by
  induction ps generalizing a with
  | nil => simp
  | cons p ps ih =>
    rw [List.nodup_cons] at hps
    rw [List.foldl_cons, ih hps.2]
    by_cases hx : x = p
    · subst hx
      simp [hps.1]
    · simp [hx]

/-- A node whose farther nodes have had their turn has its whole dependency in `delta`. -/
theorem Back.delta_eq {bet : ℕ → ℚ} {past : List ℕ} {st : (ℕ → ℚ) × Scratch} (hgood : GoodAdj adj n) (hs : s < n)
    (h : Search adj s adj sc []) (hb : Back adj n s sc bet past st) (hpast : past.Nodup)
    (hsub : ∀ x ∈ past, x ∈ sc.stack) (hw : w ∈ sc.stack)
    (hfar : ∀ x ∈ sc.stack, sc.depth w < sc.depth x → x ∈ past) : st.2.delta w = dep adj n s sc w := by
  rw [hb.delta w, dep, h.reached.dependency_eq_sum hgood.edge (Finset.mem_range.mpr hs) (List.mem_toFinset.mpr hw),
    ← List.sum_toFinset _ (hpast.filter _)]
  apply Finset.sum_congr
  · ext x
    simp only [List.mem_toFinset, List.mem_filter, Finset.mem_filter, decide_eq_true_eq]
    constructor
    · rintro ⟨hx, hwx⟩
      obtain ⟨-, hadj, hd⟩ := (h.mem_preds (hsub x hx)).mp hwx
      exact ⟨hsub x hx, hadj, hd⟩
    · rintro ⟨hx, hadj, hd⟩
      exact ⟨hfar x hx (by omega), (h.mem_preds hx).mpr ⟨hw, hadj, hd⟩⟩
  · intro x hx
    have hxs : x ∈ sc.stack := List.mem_toFinset.mp (Finset.mem_filter.mp hx).1
    rw [h.sigma_eq hgood hw, h.sigma_eq hgood hxs]
    show _ * (_ / _) = _ / _ * _
    rw [dep]
    ring

/-- One turn. -/
theorem Back.step {bet : ℕ → ℚ} {past : List ℕ} {st : (ℕ → ℚ) × Scratch} (hgood : GoodAdj adj n) (hs : s < n)
    (h : Search adj s adj sc []) (hb : Back adj n s sc bet past st) (hpast : (past ++ [w]).Nodup)
    (hsub : ∀ x ∈ past, x ∈ sc.stack) (hw : w ∈ sc.stack)
    (hfar : ∀ x ∈ sc.stack, sc.depth w < sc.depth x → x ∈ past) :
    Back adj n s sc bet (past ++ [w]) (backPropagate s st w) := by
  obtain ⟨hpast', -, hdisj⟩ := List.nodup_append.mp hpast
  have hwp : w ∉ past := fun hmem => hdisj w hmem w (List.mem_singleton.mpr rfl) rfl
  have hdelta := hb.delta_eq hgood hs h hpast' hsub hw hfar
  have hsigma : st.2.sigma = sc.sigma := by rw [hb.frame]
  have hpreds : st.2.preds = sc.preds := by rw [hb.frame]
  -- so the loop over the predecessors leaves the dependency of `w` alone
  have hself : w ∉ sc.preds w := by
    intro hmem
    have := ((h.mem_preds hw).mp hmem).2.2
    omega
  unfold backPropagate
  dsimp only
  rw [hsigma, hpreds, hdelta]
  constructor
  case frame =>
    have hdist : st.2.dist = sc.dist := by rw [hb.frame]
    have hstack : st.2.stack = sc.stack := by rw [hb.frame]
    dsimp only
    rw [hdist, hstack]
  case delta =>
    intro v
    show (sc.preds w).foldl _ st.2.delta v = _
    rw [foldl_add_apply (h.preds_nodup w) (f := fun v => sc.sigma v * ((1 + dep adj n s sc w) / sc.sigma w)),
      hb.delta v, List.filter_append, List.map_append, List.sum_append, List.filter_singleton]
    by_cases hv : v ∈ sc.preds w <;> simp [hv]
  -- the score of `w` alone moves, and not at the source
  case bet =>
    intro v
    have hval : (sc.preds w).foldl (fun delta v =>
        Function.update delta v (delta v + sc.sigma v * ((1 + dep adj n s sc w) / sc.sigma w))) st.2.delta w =
        dep adj n s sc w := by
      rw [foldl_add_apply (h.preds_nodup w) (f := fun v => sc.sigma v * ((1 + dep adj n s sc w) / sc.sigma w)),
        if_neg hself, add_zero, hdelta]
    dsimp only
    rw [hval]
    by_cases hws : w = s
    · rw [if_neg (not_not.mpr hws), hb.bet v]
      by_cases hv : v = w
      · subst hv
        simp [hws]
      · simp [hv]
    · rw [if_pos hws]
      by_cases hv : v = w
      · subst hv
        rw [Function.update_self, hb.bet v]
        simp [hwp, hws]
      · rw [Function.update_of_ne hv, hb.bet v]
        simp [hv]

/-- All turns, from the last node of the stack to the first. -/
theorem Search.back (bet : ℕ → ℚ) (hgood : GoodAdj adj n) (hs : s < n) (h : Search adj s adj sc []) :
    Back adj n s sc bet sc.stack.reverse (sc.stack.reverse.foldl (backPropagate s) (bet, sc)) := by
  have hnodup : sc.stack.reverse.Nodup := List.nodup_reverse.mpr (List.nodup_append.mp h.nodup).1
  have hsorted : sc.stack.reverse.Pairwise fun x y => sc.dist y ≤ sc.dist x := by
    rw [List.pairwise_reverse]
    exact (List.pairwise_append.mp h.sorted).1
  have hloop : ∀ (todo past : List ℕ) (st : (ℕ → ℚ) × Scratch), past ++ todo = sc.stack.reverse →
      Back adj n s sc bet past st → Back adj n s sc bet sc.stack.reverse (todo.foldl (backPropagate s) st) := by
    intro todo
    induction todo with
    | nil =>
      intro past st hall hb
      rw [List.append_nil] at hall
      rwa [hall] at hb
    | cons w todo ih =>
      intro past st hall hb
      have hall' : past ++ [w] ++ todo = sc.stack.reverse := by
        rw [← hall]
        simp
      have hmem : ∀ x, x ∈ sc.stack ↔ x ∈ past ∨ x ∈ w :: todo := by
        intro x
        rw [← List.mem_reverse, ← hall, List.mem_append]
      apply ih (past ++ [w]) _ hall'
      apply hb.step hgood hs h
      · rw [← hall'] at hnodup
        exact (List.nodup_append.mp hnodup).1
      · exact fun x hx => (hmem x).mpr (.inl hx)
      · exact (hmem w).mpr (.inr List.mem_cons_self)
      · intro x hx hlt
        rcases (hmem x).mp hx with hx' | hx'
        · exact hx'
        -- what comes after `w` is no farther
        · have hdx := h.depth_eq hx
          have hdw := h.depth_eq ((hmem w).mpr (.inr List.mem_cons_self))
          rw [← hall] at hsorted
          have hcons := (List.pairwise_append.mp hsorted).2.1
          rcases List.mem_cons.mp hx' with rfl | hx''
          · omega
          · have := (List.pairwise_cons.mp hcons).1 x hx''
            omega
  apply hloop sc.stack.reverse [] (bet, sc) rfl
  constructor
  case frame => rfl
  case delta => exact fun v => by simpa using h.delta v
  case bet => exact fun v => by simp

/-! ### The scratch is restored -/

theorem foldl_restore (vs : List ℕ) (sc : Scratch) :
    (∀ x ∈ vs, (vs.foldl restore sc).sigma x = 0 ∧ (vs.foldl restore sc).dist x = -1 ∧
        (vs.foldl restore sc).delta x = 0 ∧ (vs.foldl restore sc).preds x = []) ∧
      ∀ x ∉ vs, (vs.foldl restore sc).sigma x = sc.sigma x ∧ (vs.foldl restore sc).dist x = sc.dist x ∧
        (vs.foldl restore sc).delta x = sc.delta x ∧ (vs.foldl restore sc).preds x = sc.preds x := by
  induction vs generalizing sc with
  | nil => simp
  | cons v vs ih =>
    obtain ⟨hin, hout⟩ := ih (restore sc v)
    constructor
    · intro x hx
      by_cases hxs : x ∈ vs
      · exact hin x hxs
      · obtain rfl : x = v := (List.mem_cons.mp hx).resolve_right hxs
        rw [List.foldl_cons, (hout x hxs).1, (hout x hxs).2.1, (hout x hxs).2.2.1, (hout x hxs).2.2.2]
        simp [restore]
    · intro x hx
      rw [List.mem_cons, not_or] at hx
      rw [List.foldl_cons, (hout x hx.2).1, (hout x hx.2).2.1, (hout x hx.2).2.2.1, (hout x hx.2).2.2.2]
      simp [restore, hx.1]

/-- **One source**: it adds its part of every betweenness and leaves the scratch as it found it. -/
theorem source_spec (hgood : GoodAdj adj n) (hs : s < n) (bet : ℕ → ℚ) :
    ∃ bet', source adj n (bet, {}) s = some (bet', {}) ∧
      ∀ v, bet' v = bet v + betweennessFrom (Finset.range n) (Edge adj) s v := by
  have hstart : Search adj s adj _ [s] := search_start s
  obtain ⟨sc, hbfs, hsearch⟩ := hstart.bfs hgood hs (Nat.le_add_left n _)
  have hback := hsearch.back bet hgood hs
  unfold source
  dsimp only
  rw [hbfs]
  dsimp only [bind, Option.bind, pure]
  generalize sc.stack.reverse.foldl (backPropagate s) (bet, sc) = st at hback ⊢
  have hstack : st.2.stack = sc.stack := by rw [hback.frame]
  refine ⟨st.1, ?_, fun v => ?_⟩
  · congr 2
    obtain ⟨hin, hout⟩ := foldl_restore st.2.stack st.2
    rw [hstack] at hin hout ⊢
    -- a node off the stack kept its initial scratch all along
    have hoff : ∀ x, x ∉ sc.stack → st.2.sigma x = 0 ∧ st.2.dist x = -1 ∧ st.2.delta x = 0 ∧
        st.2.preds x = [] := by
      intro x hx
      obtain ⟨hd, hp, hσ⟩ := hsearch.not_reached hx
      have hdelta : st.2.delta x = 0 := by
        rw [hback.delta x, List.filter_eq_nil_iff.mpr]
        · rfl
        · intro w hw
          have hws := List.mem_reverse.mp hw
          simp only [decide_eq_true_eq]
          exact fun hmem => hx ((hsearch.mem_preds hws).mp hmem).1
      refine ⟨?_, ?_, hdelta, ?_⟩ <;> rw [hback.frame]
      · exact hσ
      · exact hd
      · exact hp
    have hclean : ∀ x, (sc.stack.foldl restore st.2).sigma x = 0 ∧ (sc.stack.foldl restore st.2).dist x = -1 ∧
        (sc.stack.foldl restore st.2).delta x = 0 ∧ (sc.stack.foldl restore st.2).preds x = [] := by
      intro x
      by_cases hx : x ∈ sc.stack
      · exact hin x hx
      · obtain ⟨h₁, h₂, h₃, h₄⟩ := hout x hx
        obtain ⟨g₁, g₂, g₃, g₄⟩ := hoff x hx
        exact ⟨h₁.trans g₁, h₂.trans g₂, h₃.trans g₃, h₄.trans g₄⟩
    show Scratch.mk _ _ _ _ _ = Scratch.mk _ _ _ _ _
    congr 1
    · exact funext fun x => (hclean x).1
    · exact funext fun x => (hclean x).2.1
    · exact funext fun x => (hclean x).2.2.1
    · exact funext fun x => (hclean x).2.2.2
  · rw [hback.bet v, hsearch.reached.betweennessFrom_eq hgood.edge (Finset.mem_range.mpr hs)]
    congr 1
    simp only [List.mem_reverse, List.mem_toFinset, ne_comm (a := v), and_comm, dep]

/-- Sources add up. -/
theorem sources_spec (hgood : GoodAdj adj n) (ss : List ℕ) (hss : ∀ s ∈ ss, s < n) :
    ∃ bet, sources adj n ss = some (bet, {}) ∧
      ∀ v, bet v = (ss.map fun s => betweennessFrom (Finset.range n) (Edge adj) s v).sum := by
  have hloop : ∀ (ss : List ℕ) (bet : ℕ → ℚ), (∀ s ∈ ss, s < n) →
      ∃ bet', ss.foldlM (source adj n) (bet, ({} : Scratch)) = some (bet', {}) ∧
        ∀ v, bet' v = bet v + (ss.map fun s => betweennessFrom (Finset.range n) (Edge adj) s v).sum := by
    intro ss
    induction ss with
    | nil => exact fun bet _ => ⟨bet, rfl, fun v => by simp⟩
    | cons s ss ih =>
      intro bet hall
      obtain ⟨bet', hsource, hbet'⟩ := source_spec hgood (hall s List.mem_cons_self) bet
      obtain ⟨bet'', hrest, hbet''⟩ := ih bet' fun x hx => hall x (List.mem_cons_of_mem s hx)
      refine ⟨bet'', ?_, fun v => ?_⟩
      · rw [List.foldlM_cons, hsource]
        exact hrest
      · rw [hbet'' v, hbet' v, List.map_cons, List.sum_cons]
        ring
  obtain ⟨bet, hrun, hbet⟩ := hloop ss (fun _ => 0) hss
  exact ⟨bet, hrun, fun v => by rw [hbet v, zero_add]⟩

/-! ### The graph of the rows -/

/-- A kept node calls another. -/
def Calls (T : CallTable) (ms : List NodeMeta) (u v : ℕ) : Prop :=
  u ≠ v ∧ ∃ a b, ms[u]? = some a ∧ ms[v]? = some b ∧ (a.nodeId, b.nodeId) ∈ T.calls

variable {T : CallTable} {ms : List NodeMeta} {g : CallGraph} {includeTests : Bool}

theorem metas_nodup (T : CallTable) (includeTests : Bool) :
    ((metas T includeTests).map NodeMeta.nodeId).Nodup :=
  T.ids.sublist (List.filter_sublist.map NodeMeta.nodeId)

/-- Two kept nodes with one id are one. -/
theorem eq_of_nodeId {i j : ℕ} {a b : NodeMeta} (hids : (ms.map NodeMeta.nodeId).Nodup) (ha : ms[i]? = some a)
    (hb : ms[j]? = some b) (hab : a.nodeId = b.nodeId) : i = j := by
  obtain ⟨hi, rfl⟩ := List.getElem?_eq_some_iff.mp ha
  obtain ⟨hj, rfl⟩ := List.getElem?_eq_some_iff.mp hb
  have hi' : i < (ms.map NodeMeta.nodeId).length := by rwa [List.length_map]
  have hj' : j < (ms.map NodeMeta.nodeId).length := by rwa [List.length_map]
  have heq : (ms.map NodeMeta.nodeId)[i] = (ms.map NodeMeta.nodeId)[j] := by simpa using hab
  exact hids.getElem_inj_iff.mp heq

theorem indexOf_eq_some (hids : (ms.map NodeMeta.nodeId).Nodup) {id u : ℕ} :
    indexOf ms id = some u ↔ ∃ a, ms[u]? = some a ∧ a.nodeId = id := by
  unfold indexOf
  constructor
  · intro h
    obtain ⟨hu, hid, -⟩ := List.findIdx?_eq_some_iff_getElem.mp h
    exact ⟨ms[u], List.getElem?_eq_getElem hu, by simpa using hid⟩
  · rintro ⟨a, ha, rfl⟩
    obtain ⟨hu, rfl⟩ := List.getElem?_eq_some_iff.mp ha
    rw [List.findIdx?_eq_some_iff_getElem]
    refine ⟨hu, beq_self_eq_true _, fun j hj heq => ?_⟩
    have := eq_of_nodeId hids (List.getElem?_eq_getElem (hj.trans hu)) ha (beq_iff_eq.mp heq)
    omega

/-- The rows read so far are in the graph. -/
structure Loaded (ms : List NodeMeta) (rows : List (ℕ × ℕ)) (g : CallGraph) : Prop where
  nodup : ∀ u, (g.adj u).Nodup
  adj : ∀ u v, v ∈ g.adj u ↔ (u, v) ∈ g.seenEdges
  seen : ∀ u v, (u, v) ∈ g.seenEdges ↔
    u ≠ v ∧ ∃ e ∈ rows, indexOf ms e.1 = some u ∧ indexOf ms e.2 = some v

/-- A row that adds nothing. -/
theorem Loaded.skip {rows : List (ℕ × ℕ)} {e : ℕ × ℕ} (h : Loaded ms rows g)
    (hskip : ∀ u v, u ≠ v → indexOf ms e.1 = some u → indexOf ms e.2 = some v → (u, v) ∈ g.seenEdges) :
    Loaded ms (rows ++ [e]) g where
  nodup := h.nodup
  adj := h.adj
  seen u v := by
    constructor
    · intro hmem
      obtain ⟨hne, e', he', hu, hv⟩ := (h.seen u v).mp hmem
      exact ⟨hne, e', List.mem_append_left _ he', hu, hv⟩
    · rintro ⟨hne, e', he', hu, hv⟩
      rcases List.mem_append.mp he' with he' | he'
      · exact (h.seen u v).mpr ⟨hne, e', he', hu, hv⟩
      · obtain rfl := List.mem_singleton.mp he'
        exact hskip u v hne hu hv

theorem Loaded.addEdge {rows : List (ℕ × ℕ)} (h : Loaded ms rows g) (e : ℕ × ℕ) :
    Loaded ms (rows ++ [e]) (addEdge ms g e) := by
  unfold Centrality.addEdge
  split
  · next u v hu hv =>
    split
    · -- a loop, or an edge that was met before
      next hskip =>
      apply h.skip
      intro u' v' hne hu' hv'
      obtain rfl : u = u' := Option.some.inj (hu.symm.trans hu')
      obtain rfl : v = v' := Option.some.inj (hv.symm.trans hv')
      exact hskip.resolve_left hne
    · -- a new edge goes to the end of its caller's row
      next hnew =>
      obtain ⟨hne, hnew⟩ := not_or.mp hnew
      constructor
      case nodup =>
        intro x
        show (Function.update g.adj u (g.adj u ++ [v]) x).Nodup
        by_cases hx : x = u
        · subst hx
          have hv' : v ∉ g.adj x := fun hmem => hnew ((h.adj x v).mp hmem)
          rw [Function.update_self]
          exact List.nodup_append.mpr ⟨h.nodup x, List.nodup_singleton v, fun a ha b hb =>
            (List.mem_singleton.mp hb) ▸ ne_of_mem_of_not_mem ha hv'⟩
        · rw [Function.update_of_ne hx]
          exact h.nodup x
      case adj =>
        intro x y
        show y ∈ Function.update g.adj u (g.adj u ++ [v]) x ↔ (x, y) ∈ insert (u, v) g.seenEdges
        rw [Finset.mem_insert, ← h.adj x y, Prod.mk.injEq]
        by_cases hx : x = u
        · subst hx
          simp [or_comm]
        · simp [hx]
      case seen =>
        intro x y
        show (x, y) ∈ insert (u, v) g.seenEdges ↔ _
        rw [Finset.mem_insert, h.seen x y, Prod.mk.injEq]
        constructor
        · rintro (⟨rfl, rfl⟩ | ⟨hxy, e', he', hx, hy⟩)
          · exact ⟨hne, e, List.mem_append_right _ List.mem_cons_self, hu, hv⟩
          · exact ⟨hxy, e', List.mem_append_left _ he', hx, hy⟩
        · rintro ⟨hxy, e', he', hx, hy⟩
          rcases List.mem_append.mp he' with he' | he'
          · exact .inr ⟨hxy, e', he', hx, hy⟩
          · obtain rfl := List.mem_singleton.mp he'
            exact .inl ⟨Option.some.inj (hx.symm.trans hu), Option.some.inj (hy.symm.trans hv)⟩
  · -- one of the two is no node of the graph
    next hnone =>
    exact h.skip fun u v _ hu hv => absurd hv (hnone u v hu)

theorem loadGraph_loaded (T : CallTable) (ms : List NodeMeta) : Loaded ms T.calls (loadGraph T ms) := by
  have hloop : ∀ (todo past : List (ℕ × ℕ)) (g : CallGraph), Loaded ms past g →
      Loaded ms (past ++ todo) (todo.foldl (addEdge ms) g) := by
    intro todo
    induction todo with
    | nil =>
      intro past g h
      simpa using h
    | cons e todo ih =>
      intro past g h
      simpa using ih (past ++ [e]) _ (h.addEdge e)
  apply hloop T.calls [] {}
  constructor
  case nodup => exact fun u => List.nodup_nil
  case adj => exact fun u v => by simp
  case seen => exact fun u v => by simp

/-- The graph is the calls between kept nodes, once each and without loops. -/
theorem edge_loadGraph (hids : (ms.map NodeMeta.nodeId).Nodup) : Edge (loadGraph T ms).adj = Calls T ms := by
  have h := loadGraph_loaded T ms
  funext u v
  apply propext
  rw [Edge, h.adj, h.seen, Calls]
  apply and_congr_right
  intro _
  constructor
  · rintro ⟨e, he, hu, hv⟩
    obtain ⟨a, ha, hae⟩ := (indexOf_eq_some hids).mp hu
    obtain ⟨b, hb, hbe⟩ := (indexOf_eq_some hids).mp hv
    exact ⟨a, b, ha, hb, by rwa [hae, hbe]⟩
  · rintro ⟨a, b, ha, hb, he⟩
    exact ⟨_, he, (indexOf_eq_some hids).mpr ⟨a, ha, rfl⟩, (indexOf_eq_some hids).mpr ⟨b, hb, rfl⟩⟩

theorem goodAdj_loadGraph (hids : (ms.map NodeMeta.nodeId).Nodup) : GoodAdj (loadGraph T ms).adj ms.length := by
  have hedge : Edge (loadGraph T ms).adj = Calls T ms := edge_loadGraph hids
  constructor
  case nodup => exact (loadGraph_loaded T ms).nodup
  case bound =>
    intro u v hv
    have hcall : Calls T ms u v := hedge ▸ hv
    obtain ⟨-, a, b, ha, hb, -⟩ := hcall
    exact ⟨(List.getElem?_eq_some_iff.mp ha).1, (List.getElem?_eq_some_iff.mp hb).1⟩
  case loopless =>
    intro u hu
    have hcall : Calls T ms u u := hedge ▸ hu
    exact hcall.1 rfl

/-! ### The whole computation -/

theorem pivots_of_le {maxPivots : ℕ} (h : n ≤ maxPivots) : pivots n maxPivots = List.range n := by
  unfold pivots
  rw [if_neg (by omega)]

/-- With at most as many nodes as pivots, the ranking is by the betweenness that was accumulated. -/
theorem betweennessCentralityCapped_score {bet : ℕ → ℚ} {sc : Scratch} {limit maxPivots : ℕ}
    (h : (metas T includeTests).length ≤ maxPivots)
    (hrun : sources (loadGraph T (metas T includeTests)).adj (metas T includeTests).length
      (pivots (metas T includeTests).length maxPivots) = some (bet, sc)) :
    ∃ out, betweennessCentralityCapped T includeTests limit maxPivots = some out ∧
      ∀ c ∈ out, ∃ i m, (metas T includeTests)[i]? = some m ∧ c.nodeId = m.nodeId ∧ c.score = bet i := by
  unfold betweennessCentralityCapped
  generalize metas T includeTests = ms at h hrun
  by_cases hn : ms.length = 0
  · refine ⟨[], by simp [hn], fun c hc => ?_⟩
    exact absurd hc List.not_mem_nil
  have hmax : maxPivots ≠ 0 := by omega
  have hle : ¬maxPivots < ms.length := by omega
  simp only [hn, hmax, hle, if_false, hrun, Option.pure_def, Option.bind_eq_bind, Option.bind_some,
    Option.some.injEq, exists_eq_left']
  intro c hc
  obtain ⟨i, -, hi⟩ := List.mem_filterMap.mp hc
  obtain ⟨m, hm, rfl⟩ := Option.map_eq_some_iff.mp hi
  exact ⟨i, m, hm, rfl, rfl⟩

/-- **Exact betweenness**: with at most as many kept nodes as pivots, what is accumulated for a node is its
betweenness in the graph of the calls between kept nodes. The scratch is back at its initial value before every
source and at the end. -/
theorem betweenness_exact (T : CallTable) (includeTests : Bool) (limit maxPivots : ℕ)
    (h : (metas T includeTests).length ≤ maxPivots) :
    let ms := metas T includeTests
    let adj := (loadGraph T ms).adj
    (∀ past next, pivots ms.length maxPivots = past ++ next → ∃ bet, sources adj ms.length past = some (bet, {})) ∧
      ∃ bet, sources adj ms.length (pivots ms.length maxPivots) = some (bet, {}) ∧
        (∀ v < ms.length, bet v = betweenness (Finset.range ms.length) (Calls T ms) v) ∧
        ∃ out, betweennessCentralityCapped T includeTests limit maxPivots = some out ∧
          ∀ c ∈ out, ∃ i m, ms[i]? = some m ∧ c.nodeId = m.nodeId ∧ c.score = bet i := by
  intro ms adj
  have hids : (ms.map NodeMeta.nodeId).Nodup := metas_nodup T includeTests
  have hgood : GoodAdj adj ms.length := goodAdj_loadGraph hids
  have hpivots : pivots ms.length maxPivots = List.range ms.length := pivots_of_le h
  have hbound : ∀ s ∈ pivots ms.length maxPivots, s < ms.length := by
    rw [hpivots]
    exact fun s => List.mem_range.mp
  constructor
  · intro past next hcut
    have hpast : ∀ s ∈ past, s < ms.length := fun s hs => hbound s (hcut ▸ List.mem_append_left next hs)
    obtain ⟨bet, hrun, -⟩ := sources_spec hgood past hpast
    exact ⟨bet, hrun⟩
  · obtain ⟨bet, hrun, hbet⟩ := sources_spec hgood _ hbound
    refine ⟨bet, hrun, fun v _ => ?_, betweennessCentralityCapped_score h hrun⟩
    have hedge : Edge adj = Calls T ms := edge_loadGraph hids
    rw [hbet v, hpivots, hedge]
    rfl

/-- Two ways from the first node to the last: the middle nodes get half of them each. The call of the excluded
node, the loop and the parallel call count for nothing. -/
def twoWays : CallTable where
  nodes :=
    [⟨11, "a", "function", "src/a.rs", false⟩, ⟨12, "b", "function", "src/a.rs", false⟩,
      ⟨13, "c", "function", "src/a.rs", false⟩, ⟨14, "d", "function", "src/a.rs", false⟩,
      ⟨15, "e", "function", "src/a.rs", true⟩]
  calls := [(11, 12), (11, 13), (12, 14), (13, 14), (11, 12), (12, 12), (11, 15), (15, 14)]
  ids := by decide

theorem twoWays_exact :
    (metas twoWays false).length = 4 ∧
      ∃ bet, sources (loadGraph twoWays (metas twoWays false)).adj 4 (List.range 4) = some (bet, {}) ∧
        bet 1 = 1 / 2 ∧ bet 1 = betweenness (Finset.range 4) (Calls twoWays (metas twoWays false)) 1 := by
  have hlen : (metas twoWays false).length = 4 := by decide +kernel
  have hex := betweenness_exact twoWays false 10 4 (by rw [hlen])
  obtain ⟨-, bet, hrun, hbet, -⟩ := hex
  rw [hlen] at hrun hbet
  refine ⟨hlen, bet, hrun, ?_, hbet 1 (by norm_num)⟩
  have hone : (sources (loadGraph twoWays (metas twoWays false)).adj 4 (List.range 4)).map (fun st => st.1 1)
      = some (1 / 2) := by decide +kernel
  rw [pivots_of_le le_rfl] at hrun
  rw [hrun] at hone
  exact Option.some.inj hone

end CodeGraph.Graph.Centrality
