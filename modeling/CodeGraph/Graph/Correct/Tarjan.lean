import CodeGraph.Graph.Cycles
import Mathlib.Algebra.Order.BigOperators.Group.Finset
import Mathlib.Logic.Relation

/-!
# Tarjan's algorithm finds the strongly connected components

`Inv` is the invariant of the loop. It speaks of the nodes `K` on the call stack that have been entered, with
`ptr` the child pointer of each, and of at most one node that has been pushed and not entered yet. What
carries the proof:

* a node of the component stack that has left the call stack reaches a node below it (`reach_down`);
* the lowlink of a node on the call stack is the position of a node it reaches (`low_sound`);
* an edge that has been followed to a node of the component stack has lowered the lowlink of the node on the
  call stack that it belongs to (`low_complete`).

When a node is finished with its lowlink at its own position, the edges of what lies above it stay there or
lead to components that are out already, so what lies above it is its component (`component_of_root`).

One turn keeps the invariant and takes one from `work`, so the fuel is enough (`dfs_inv`).
-/

namespace CodeGraph.Graph.Cycles

open Relation

/-- There is an edge from `a` to `b`. -/
def Edge (adj : List (List ℕ)) (a b : ℕ) : Prop := b ∈ succs adj a

/-- A strongly connected component, as a list of its nodes. -/
structure Component (adj : List (List ℕ)) (comp : List ℕ) : Prop where
  ne_nil : comp ≠ []
  nodup : comp.Nodup
  mem_iff : ∀ a ∈ comp, ∀ b, b ∈ comp ↔ ReflTransGen (Edge adj) a b ∧ ReflTransGen (Edge adj) b a

/-- The position of a node in the order of discovery. -/
def TarjanState.idx (s : TarjanState) (v : ℕ) : ℕ := (s.index v).getD 0

/-- The edges that have been followed: of a node on the call stack those before its pointer, of another
all. -/
def Done (adj : List (List ℕ)) (K : List ℕ) (ptr : ℕ → ℕ) (x y : ℕ) : Prop :=
  y ∈ succs adj x ∧ (x ∈ K → y ∈ (succs adj x).take (ptr x))

structure Inv (adj : List (List ℕ)) (s : TarjanState) (K : List ℕ) (ptr : ℕ → ℕ)
    (pending : Option ℕ) : Prop where
  visited_lt : ∀ v, s.index v ≠ none → v < adj.length
  index_lt : ∀ v, s.index v ≠ none → s.idx v < s.nextIndex
  index_inj : ∀ v w, s.index v ≠ none → s.index w ≠ none → s.idx v = s.idx w → v = w
  on_stack : ∀ v, s.onStack v = true ↔ v ∈ s.sccStack
  stack_visited : ∀ x ∈ s.sccStack, s.index x ≠ none
  stack_sorted : s.sccStack.Pairwise fun a b => s.idx b < s.idx a
  call_mem : ∀ p ∈ K, p ∈ s.sccStack
  call_sorted : K.Pairwise fun p q => s.idx q < s.idx p
  ptr_le : ∀ p ∈ K, ptr p ≤ (succs adj p).length
  pending_new : ∀ w ∈ pending, s.index w = none ∧ w < adj.length ∧ ∀ p ∈ K.head?, Edge adj p w
  owner : ∀ x ∈ s.sccStack, ∃ p ∈ K, s.idx p ≤ s.idx x
  low_le : ∀ p ∈ K, s.lowlink p ≤ s.idx p
  low_sound : ∀ p ∈ K, ∃ w ∈ s.sccStack, s.idx w = s.lowlink p ∧ ReflTransGen (Edge adj) p w
  low_complete : ∀ p ∈ K, ∀ x ∈ s.sccStack, s.idx p ≤ s.idx x → ∀ y ∈ s.sccStack, Done adj K ptr x y →
    s.lowlink p ≤ s.idx y ∨
      ∃ q ∈ K, s.idx p < s.idx q ∧ s.idx q ≤ s.idx x ∧ s.lowlink q ≤ s.idx y
  seen : ∀ x, s.index x ≠ none → ∀ y, Done adj K ptr x y → s.index y ≠ none ∨ y ∈ pending
  closed : ∀ x, s.index x ≠ none → x ∉ s.sccStack → ∀ y, Edge adj x y →
    s.index y ≠ none ∧ y ∉ s.sccStack
  reach_up : ∀ p ∈ K, ∀ x ∈ s.sccStack, s.idx p ≤ s.idx x → ReflTransGen (Edge adj) p x
  reach_down : ∀ x ∈ s.sccStack, x ∉ K → ∃ y ∈ s.sccStack, s.idx y < s.idx x ∧
    ReflTransGen (Edge adj) x y
  components : ∀ comp ∈ s.sccs, Component adj comp
  emitted : ∀ x, (∃ comp ∈ s.sccs, x ∈ comp) ↔ s.index x ≠ none ∧ x ∉ s.sccStack
  apart : s.sccs.Pairwise List.Disjoint

variable {adj : List (List ℕ)} {s : TarjanState} {K : List ℕ} {ptr : ℕ → ℕ} {pending : Option ℕ}
  {v w : ℕ}

/-- The call stack plays no part in the invariant. -/
theorem Inv.with_callStack (h : Inv adj s K ptr pending) (callStack : List (ℕ × ℕ)) :
    Inv adj { s with callStack := callStack } K ptr pending := { h with }

/-! ### Entering a node -/

theorem enter_idx_self : (enter w s).idx w = s.nextIndex := by
  simp [TarjanState.idx, enter]

theorem enter_idx {x : ℕ} (hx : x ≠ w) : (enter w s).idx x = s.idx x := by
  simp [TarjanState.idx, enter, Function.update_of_ne hx]

theorem enter_index_ne_none {x : ℕ} : (enter w s).index x ≠ none ↔ x = w ∨ s.index x ≠ none := by
  by_cases hx : x = w
  · simp [enter, hx]
  · simp [enter, hx]

theorem enter_lowlink {x : ℕ} (hx : x ≠ w) : (enter w s).lowlink x = s.lowlink x := by
  simp [enter, Function.update_of_ne hx]

theorem mem_enter {x : ℕ} : x ∈ (enter w s).sccStack ↔ x = w ∨ x ∈ s.sccStack := List.mem_cons

/-- What was followed before is what was followed now: the new node has no child followed yet. -/
theorem done_of_enter {x y : ℕ} (hxy : Done adj (w :: K) (Function.update ptr w 0) x y) : x ≠ w ∧ Done adj K ptr x y := by
  obtain ⟨hy, htake⟩ := hxy
  by_cases hx : x = w
  · subst hx
    have := htake List.mem_cons_self
    simp at this
  · refine ⟨hx, hy, fun hxK => ?_⟩
    have := htake (List.mem_cons_of_mem w hxK)
    rwa [Function.update_of_ne hx] at this

section Enter

variable (h : Inv adj s K ptr (some w))

include h

theorem ne_entered {x : ℕ} (hx : s.index x ≠ none) : x ≠ w := by
  rintro rfl
  exact hx (h.pending_new x rfl).1

theorem stack_ne_entered {x : ℕ} (hx : x ∈ s.sccStack) : x ≠ w := ne_entered h (h.stack_visited x hx)

theorem call_ne_entered {p : ℕ} (hp : p ∈ K) : p ≠ w := stack_ne_entered h (h.call_mem p hp)

/-- The new node is the last one in the order of discovery. -/
theorem enter_idx_lt {x : ℕ} (hx : s.index x ≠ none) : (enter w s).idx x < (enter w s).idx w := by
  rw [enter_idx_self, enter_idx (ne_entered h hx)]
  exact h.index_lt x hx

/-- The whole call stack reaches the new node, through the edge of its top. -/
theorem reaches_entered {p : ℕ} (hp : p ∈ K) : ReflTransGen (Edge adj) p w := by
  obtain ⟨-, -, hedge⟩ := h.pending_new w rfl
  cases hK : K with
  | nil =>
    rw [hK] at hp
    cases hp
  | cons q K' =>
    have hq : q ∈ K := by simp [hK]
    have hle : s.idx p ≤ s.idx q := by
      rw [hK] at hp
      rcases List.mem_cons.mp hp with rfl | hp
      · exact le_rfl
      · have hsorted := h.call_sorted
        rw [hK] at hsorted
        exact ((List.pairwise_cons.mp hsorted).1 p hp).le
    exact (h.reach_up p hp q (h.call_mem q hq) hle).tail (hedge q (by simp [hK]))

theorem enter_index_inj {v u : ℕ} (hv : (enter w s).index v ≠ none) (hu : (enter w s).index u ≠ none)
    (heq : (enter w s).idx v = (enter w s).idx u) : v = u := by
  rcases enter_index_ne_none.mp hv with rfl | hv'
  · rcases enter_index_ne_none.mp hu with rfl | hu'
    · rfl
    · have := enter_idx_lt h hu'
      omega
  · rcases enter_index_ne_none.mp hu with rfl | hu'
    · have := enter_idx_lt h hv'
      omega
    · rw [enter_idx (ne_entered h hv'), enter_idx (ne_entered h hu')] at heq
      exact h.index_inj v u hv' hu' heq

/-- The lowlink of the new node is its own position. -/
theorem enter_low_sound {p : ℕ} (hp : p ∈ w :: K) : ∃ z ∈ (enter w s).sccStack,
    (enter w s).idx z = (enter w s).lowlink p ∧ ReflTransGen (Edge adj) p z := by
  by_cases hpw : p = w
  · subst hpw
    refine ⟨p, mem_enter.mpr (.inl rfl), ?_, .refl⟩
    rw [enter_idx_self]
    simp [enter]
  · obtain ⟨z, hz, hidx, hreach⟩ := h.low_sound p ((List.mem_cons.mp hp).resolve_left hpw)
    refine ⟨z, mem_enter.mpr (.inr hz), ?_, hreach⟩
    rw [enter_idx (stack_ne_entered h hz), enter_lowlink hpw]
    exact hidx

theorem enter_low_complete {p x y : ℕ} (hp : p ∈ w :: K) (hx : x ∈ (enter w s).sccStack)
    (hpx : (enter w s).idx p ≤ (enter w s).idx x) (hy : y ∈ (enter w s).sccStack)
    (hxy : Done adj (w :: K) (Function.update ptr w 0) x y) :
    (enter w s).lowlink p ≤ (enter w s).idx y ∨
      ∃ q ∈ w :: K, (enter w s).idx p < (enter w s).idx q ∧ (enter w s).idx q ≤ (enter w s).idx x ∧
        (enter w s).lowlink q ≤ (enter w s).idx y := by
  obtain ⟨hxw, hxy⟩ := done_of_enter hxy
  have hxS := (mem_enter.mp hx).resolve_left hxw
  have hpw : p ≠ w := by
    rintro rfl
    have := enter_idx_lt h (h.stack_visited x hxS)
    omega
  have hpK := (List.mem_cons.mp hp).resolve_left hpw
  rcases mem_enter.mp hy with rfl | hyS
  · -- the edge leads to the new node, which lies above everything
    left
    rw [enter_lowlink hpw]
    have hlow := h.low_le p hpK
    have hlt := enter_idx_lt h (h.stack_visited p (h.call_mem p hpK))
    rw [enter_idx hpw] at hlt
    omega
  · -- an old edge: what it lowered before it has lowered now
    rw [enter_idx hpw, enter_idx hxw] at hpx
    rw [enter_lowlink hpw, enter_idx hpw, enter_idx hxw, enter_idx (stack_ne_entered h hyS)]
    rcases h.low_complete p hpK x hxS hpx y hyS hxy with hle | ⟨q, hq, hpq, hqx, hqy⟩
    · exact .inl hle
    · refine .inr ⟨q, List.mem_cons_of_mem w hq, ?_⟩
      rw [enter_idx (call_ne_entered h hq), enter_lowlink (call_ne_entered h hq)]
      exact ⟨hpq, hqx, hqy⟩

theorem enter_reach_up {p x : ℕ} (hp : p ∈ w :: K) (hx : x ∈ (enter w s).sccStack)
    (hle : (enter w s).idx p ≤ (enter w s).idx x) : ReflTransGen (Edge adj) p x := by
  rcases List.mem_cons.mp hp with rfl | hpK
  · rcases mem_enter.mp hx with rfl | hxS
    · exact .refl
    · have := enter_idx_lt h (h.stack_visited x hxS)
      omega
  · rcases mem_enter.mp hx with rfl | hxS
    · exact reaches_entered h hpK
    · rw [enter_idx (call_ne_entered h hpK), enter_idx (stack_ne_entered h hxS)] at hle
      exact h.reach_up p hpK x hxS hle

theorem enter_inv : Inv adj (enter w s) (w :: K) (Function.update ptr w 0) none := by
  constructor
  -- the order of discovery
  case visited_lt =>
    intro v hv
    rcases enter_index_ne_none.mp hv with rfl | hv
    · exact (h.pending_new v rfl).2.1
    · exact h.visited_lt v hv
  case index_lt =>
    intro v hv
    show _ < s.nextIndex + 1
    rcases enter_index_ne_none.mp hv with rfl | hv
    · rw [enter_idx_self]
      omega
    · rw [enter_idx (ne_entered h hv)]
      have := h.index_lt v hv
      omega
  case index_inj => exact fun v u hv hu heq => enter_index_inj h hv hu heq
  -- the two stacks, each with the new node on top
  case on_stack =>
    intro v
    rw [mem_enter]
    by_cases hv : v = w
    · simp [enter, hv]
    · simp [enter, hv, h.on_stack]
  case stack_visited =>
    intro x hx
    rcases mem_enter.mp hx with rfl | hx
    · exact enter_index_ne_none.mpr (.inl rfl)
    · exact enter_index_ne_none.mpr (.inr (h.stack_visited x hx))
  case stack_sorted =>
    refine List.pairwise_cons.mpr ⟨fun x hx => enter_idx_lt h (h.stack_visited x hx), ?_⟩
    refine h.stack_sorted.imp_of_mem fun {a b} ha hb hab => ?_
    rwa [enter_idx (stack_ne_entered h ha), enter_idx (stack_ne_entered h hb)]
  case call_mem =>
    intro p hp
    rcases List.mem_cons.mp hp with rfl | hp
    · exact mem_enter.mpr (.inl rfl)
    · exact mem_enter.mpr (.inr (h.call_mem p hp))
  case call_sorted =>
    refine List.pairwise_cons.mpr ⟨fun p hp => enter_idx_lt h (h.stack_visited p (h.call_mem p hp)), ?_⟩
    refine h.call_sorted.imp_of_mem fun {a b} ha hb hab => ?_
    rwa [enter_idx (call_ne_entered h ha), enter_idx (call_ne_entered h hb)]
  case ptr_le =>
    intro p hp
    by_cases hpw : p = w
    · simp [hpw]
    · rw [Function.update_of_ne hpw]
      exact h.ptr_le p ((List.mem_cons.mp hp).resolve_left hpw)
  case pending_new =>
    intro x hx
    cases hx
  case owner =>
    intro x hx
    rcases mem_enter.mp hx with rfl | hx
    · exact ⟨x, List.mem_cons_self, le_rfl⟩
    · obtain ⟨p, hp, hle⟩ := h.owner x hx
      refine ⟨p, List.mem_cons_of_mem w hp, ?_⟩
      rwa [enter_idx (call_ne_entered h hp), enter_idx (stack_ne_entered h hx)]
  -- the lowlinks
  case low_le =>
    intro p hp
    by_cases hpw : p = w
    · subst hpw
      rw [enter_idx_self]
      simp [enter]
    · rw [enter_idx hpw, enter_lowlink hpw]
      exact h.low_le p ((List.mem_cons.mp hp).resolve_left hpw)
  case low_sound => exact fun p hp => enter_low_sound h hp
  case low_complete => exact fun p hp x hx hpx y hy hxy => enter_low_complete h hp hx hpx hy hxy
  -- the edges that have been followed; the one to the new node is no longer pending
  case seen =>
    intro x hx y hxy
    obtain ⟨hxw, hxy⟩ := done_of_enter hxy
    left
    rw [enter_index_ne_none]
    rcases h.seen x ((enter_index_ne_none.mp hx).resolve_left hxw) y hxy with hy | hy
    · exact .inr hy
    · exact .inl (Option.some.inj hy).symm
  case closed =>
    intro x hx hxS y hxy
    rw [mem_enter, not_or] at hxS
    obtain ⟨hy, hyS⟩ := h.closed x ((enter_index_ne_none.mp hx).resolve_left hxS.1) hxS.2 y hxy
    refine ⟨enter_index_ne_none.mpr (.inr hy), ?_⟩
    rw [mem_enter, not_or]
    exact ⟨ne_entered h hy, hyS⟩
  case reach_up => exact fun p hp x hx hle => enter_reach_up h hp hx hle
  case reach_down =>
    intro x hx hxK
    rw [List.mem_cons, not_or] at hxK
    have hxS := (mem_enter.mp hx).resolve_left hxK.1
    obtain ⟨y, hy, hlt, hreach⟩ := h.reach_down x hxS hxK.2
    refine ⟨y, mem_enter.mpr (.inr hy), ?_, hreach⟩
    rwa [enter_idx (stack_ne_entered h hy), enter_idx hxK.1]
  -- no component comes out
  case components => exact h.components
  case emitted =>
    intro x
    rw [mem_enter, enter_index_ne_none]
    refine (h.emitted x).trans ?_
    constructor
    · rintro ⟨hx, hxS⟩
      exact ⟨.inr hx, not_or.mpr ⟨ne_entered h hx, hxS⟩⟩
    · rintro ⟨hx, hxS⟩
      rw [not_or] at hxS
      exact ⟨hx.resolve_left hxS.1, hxS.2⟩
  case apart => exact h.apart

end Enter

/-! ### Following an edge -/

/-- A node of the call stack may take the position of a node it reaches. -/
theorem lower_inv {u z low : ℕ} (h : Inv adj s K ptr pending) (hz : z ∈ s.sccStack)
    (hlow : s.idx z = low) (hreach : u ∈ K → ReflTransGen (Edge adj) u z) :
    Inv adj (lower u low s) K ptr pending := by
  have hle : ∀ p, (lower u low s).lowlink p ≤ s.lowlink p := by
    intro p
    by_cases hp : p = u
    · subst hp
      simp [lower]
    · simp [lower, Function.update_of_ne hp]
  refine { h with low_le := ?_, low_sound := ?_, low_complete := ?_ }
  · intro p hp
    exact (hle p).trans (h.low_le p hp)
  · intro p hp
    by_cases hpu : p = u
    · subst hpu
      have hself : (lower p low s).lowlink p = min (s.lowlink p) low := by simp [lower]
      rw [hself]
      rcases min_choice (s.lowlink p) low with heq | heq
      · rw [heq]
        exact h.low_sound p hp
      · rw [heq]
        exact ⟨z, hz, hlow, hreach hp⟩
    · have hother : (lower u low s).lowlink p = s.lowlink p := by
        simp [lower, Function.update_of_ne hpu]
      rw [hother]
      exact h.low_sound p hp
  · intro p hp x hx hpx y hy hxy
    rcases h.low_complete p hp x hx hpx y hy hxy with hpy | ⟨q, hq, hpq, hqx, hqy⟩
    · exact .inl ((hle p).trans hpy)
    · exact .inr ⟨q, hq, hpq, hqx, (hle q).trans hqy⟩

/-- The pointer of the top node moves over an edge whose end is visited or pending now. -/
theorem advance_inv (pending : Option ℕ) (h : Inv adj s (v :: K) ptr none) (hw : (succs adj v)[ptr v]? = some w)
    (hpending : ∀ x ∈ pending, s.index x = none ∧ x < adj.length ∧ Edge adj v x)
    (hseen : s.index w ≠ none ∨ w ∈ pending) (hlow : w ∈ s.sccStack → s.lowlink v ≤ s.idx w) :
    Inv adj s (v :: K) (Function.update ptr v (ptr v + 1)) pending := by
  obtain ⟨hlt, hget⟩ := List.getElem?_eq_some_iff.mp hw
  have hsorted := List.pairwise_cons.mp h.call_sorted
  -- one more edge is done, the one from `v` to `w`
  have hdone : ∀ x y, Done adj (v :: K) (Function.update ptr v (ptr v + 1)) x y →
      Done adj (v :: K) ptr x y ∨ x = v ∧ y = w := by
    rintro x y ⟨hy, htake⟩
    by_cases hx : x = v
    · subst hx
      have hmem := htake List.mem_cons_self
      rw [Function.update_self, List.take_add_one, hw, List.mem_append] at hmem
      rcases hmem with hmem | hmem
      · exact .inl ⟨hy, fun _ => hmem⟩
      · exact .inr ⟨rfl, by simpa using hmem⟩
    · refine .inl ⟨hy, fun hxK => ?_⟩
      have hmem := htake hxK
      rwa [Function.update_of_ne hx] at hmem
  refine { h with ptr_le := ?_, pending_new := ?_, low_complete := ?_, seen := ?_ }
  · intro p hp
    by_cases hpv : p = v
    · subst hpv
      rw [Function.update_self]
      exact hlt
    · rw [Function.update_of_ne hpv]
      exact h.ptr_le p hp
  · intro x hx
    obtain ⟨hnew, hxlt, hedge⟩ := hpending x hx
    refine ⟨hnew, hxlt, ?_⟩
    intro p hp
    obtain rfl : v = p := by simpa using hp
    exact hedge
  · -- the lowlink of `v` was lowered to what `w` asks, and the frames below `v` are before it
    intro p hp x hx hpx y hy hxy
    rcases hdone x y hxy with hold | ⟨rfl, rfl⟩
    · exact h.low_complete p hp x hx hpx y hy hold
    · rcases List.mem_cons.mp hp with rfl | hpK
      · exact .inl (hlow hy)
      · exact .inr ⟨x, List.mem_cons_self, hsorted.1 p hpK, le_rfl, hlow hy⟩
  · intro x hx y hxy
    rcases hdone x y hxy with hold | ⟨rfl, rfl⟩
    · rcases h.seen x hx y hold with hy | hy
      · exact .inl hy
      · cases hy
    · exact hseen

/-! ### Finishing a node -/

/-- The followed edges when the top node leaves the call stack with all its own followed. -/
theorem done_of_finished (hptr : ptr v = (succs adj v).length) {x y : ℕ}
    (hxy : Done adj K ptr x y) : Done adj (v :: K) ptr x y := by
  refine ⟨hxy.1, fun hxK => ?_⟩
  by_cases hxv : x = v
  · subst hxv
    rw [hptr, List.take_length]
    exact hxy.1
  · exact hxy.2 ((List.mem_cons.mp hxK).resolve_left hxv)

/-- A node that reaches below itself leaves the call stack only. -/
theorem pop_inv (h : Inv adj s (v :: K) ptr none) (hptr : ptr v = (succs adj v).length)
    (hparent : ∀ p ∈ K.head?, s.lowlink p ≤ s.lowlink v) (hlow : s.idx v ≠ s.lowlink v) :
    Inv adj s K ptr none := by
  have hsorted := List.pairwise_cons.mp h.call_sorted
  have hv : v ∈ v :: K := List.mem_cons_self
  have hvlt : s.lowlink v < s.idx v := lt_of_le_of_ne (h.low_le v hv) (Ne.symm hlow)
  have hsub : ∀ p ∈ K, p ∈ v :: K := fun p hp => List.mem_cons_of_mem v hp
  refine { h with
    call_mem := fun p hp => h.call_mem p (hsub p hp)
    call_sorted := hsorted.2
    ptr_le := fun p hp => h.ptr_le p (hsub p hp)
    low_le := fun p hp => h.low_le p (hsub p hp)
    low_sound := fun p hp => h.low_sound p (hsub p hp)
    reach_up := fun p hp => h.reach_up p (hsub p hp)
    seen := fun x hx y hxy => h.seen x hx y (done_of_finished hptr hxy)
    pending_new := ?_, owner := ?_, low_complete := ?_, reach_down := ?_ }
  · intro w hw
    cases hw
  · intro x hx
    obtain ⟨p, hp, hle⟩ := h.owner x hx
    rcases List.mem_cons.mp hp with rfl | hpK
    · -- Below the node there is one that it reaches, and that has an owner other than it.
      obtain ⟨z, hz, hidx, -⟩ := h.low_sound p hv
      obtain ⟨q, hq, hqz⟩ := h.owner z hz
      rcases List.mem_cons.mp hq with rfl | hqK
      · omega
      · exact ⟨q, hqK, by omega⟩
    · exact ⟨p, hpK, hle⟩
  · intro p hp x hx hpx y hy hxy
    rcases h.low_complete p (hsub p hp) x hx hpx y hy (done_of_finished hptr hxy) with
      hpy | ⟨q, hq, hpq, hqx, hqy⟩
    · exact .inl hpy
    · rcases List.mem_cons.mp hq with rfl | hqK
      · -- What the node held, its parent holds.
        cases hK : K with
        | nil =>
          rw [hK] at hp
          cases hp
        | cons r K' =>
          have hr : s.lowlink r ≤ s.idx y := (hparent r (by simp [hK])).trans hqy
          have hrK : r ∈ K := by simp [hK]
          have hrv := hsorted.1 r hrK
          rw [hK] at hp
          rcases List.mem_cons.mp hp with rfl | hpK'
          · exact .inl hr
          · have hpr : s.idx p < s.idx r := by
              have hKs := hsorted.2
              rw [hK] at hKs
              exact (List.pairwise_cons.mp hKs).1 p hpK'
            exact .inr ⟨r, by simp, hpr, by omega, hr⟩
      · exact .inr ⟨q, hqK, hpq, hqx, hqy⟩
  · intro x hx hxK
    by_cases hxv : x = v
    · subst hxv
      obtain ⟨z, hz, hidx, hreach⟩ := h.low_sound x hv
      exact ⟨z, hz, by omega, hreach⟩
    · exact h.reach_down x hx (by simp [hxv, hxK])

/-! ### The root of a component -/

theorem popComponent_eq {stack : List ℕ} (hv : v ∈ stack) :
    ∃ above rest, stack = above ++ v :: rest ∧ v ∉ above ∧
      popComponent v stack = some (above ++ [v], rest) := by
  induction stack with
  | nil => cases hv
  | cons w stack ih =>
    by_cases hw : w = v
    · subst hw
      exact ⟨[], stack, rfl, List.not_mem_nil, by simp [popComponent]⟩
    · obtain ⟨above, rest, rfl, hnot, hpop⟩ := ih ((List.mem_cons.mp hv).resolve_left (Ne.symm hw))
      refine ⟨w :: above, rest, rfl, ?_, ?_⟩
      · rw [List.mem_cons, not_or]
        exact ⟨Ne.symm hw, hnot⟩
      · simp [popComponent, hw, hpop]

section Root

variable {above rest : List ℕ}

/-- The component is what lies at the root or above it. -/
theorem mem_comp_iff (h : Inv adj s (v :: K) ptr none) (hstack : s.sccStack = above ++ v :: rest)
    (x : ℕ) : x ∈ above ++ [v] ↔ x ∈ s.sccStack ∧ s.idx v ≤ s.idx x := by
  have hsorted := h.stack_sorted
  rw [hstack, List.pairwise_append, List.pairwise_cons] at hsorted
  obtain ⟨-, ⟨hrest, -⟩, habove⟩ := hsorted
  rw [hstack]
  simp only [List.mem_append, List.mem_cons, List.not_mem_nil, or_false]
  constructor
  · rintro (hx | rfl)
    · exact ⟨.inl hx, (habove x hx v List.mem_cons_self).le⟩
    · exact ⟨.inr (.inl rfl), le_rfl⟩
  · rintro ⟨hx | rfl | hx, hle⟩
    · exact .inl hx
    · exact .inr rfl
    · have := hrest x hx
      omega

theorem mem_rest_iff (h : Inv adj s (v :: K) ptr none) (hstack : s.sccStack = above ++ v :: rest)
    (x : ℕ) : x ∈ rest ↔ x ∈ s.sccStack ∧ s.idx x < s.idx v := by
  have hsorted := h.stack_sorted
  rw [hstack, List.pairwise_append, List.pairwise_cons] at hsorted
  obtain ⟨-, ⟨hrest, -⟩, habove⟩ := hsorted
  rw [hstack]
  simp only [List.mem_append, List.mem_cons]
  constructor
  · intro hx
    exact ⟨.inr (.inr hx), hrest x hx⟩
  · rintro ⟨hx | rfl | hx, hlt⟩
    · have := habove x hx v List.mem_cons_self
      omega
    · omega
    · exact hx

/-- The edges of the component stay in it or lead to what is out. -/
theorem comp_closed (h : Inv adj s (v :: K) ptr none) (hptr : ptr v = (succs adj v).length)
    (hlow : s.idx v = s.lowlink v) (hstack : s.sccStack = above ++ v :: rest) {x y : ℕ}
    (hx : x ∈ above ++ [v]) (hxy : Edge adj x y) :
    y ∈ above ++ [v] ∨ s.index y ≠ none ∧ y ∉ s.sccStack := by
  have hsorted := List.pairwise_cons.mp h.call_sorted
  obtain ⟨hxS, hvx⟩ := (mem_comp_iff h hstack x).mp hx
  have hdone : Done adj (v :: K) ptr x y := by
    refine ⟨hxy, fun hxK => ?_⟩
    rcases List.mem_cons.mp hxK with rfl | hxK
    · rw [hptr, List.take_length]
      exact hxy
    · have := hsorted.1 x hxK
      omega
  have hy : s.index y ≠ none := by
    rcases h.seen x (h.stack_visited x hxS) y hdone with hy | hy
    · exact hy
    · cases hy
  by_cases hyS : y ∈ s.sccStack
  · left
    rw [mem_comp_iff h hstack]
    refine ⟨hyS, ?_⟩
    rcases h.low_complete v List.mem_cons_self x hxS hvx y hyS hdone with hle | ⟨q, hq, hvq, -, -⟩
    · omega
    · rcases List.mem_cons.mp hq with rfl | hqK
      · omega
      · have := hsorted.1 q hqK
        omega
  · exact .inr ⟨hy, hyS⟩

/-- What is out stays out. -/
theorem out_closed (h : Inv adj s K ptr pending) {x y : ℕ} (hx : s.index x ≠ none ∧ x ∉ s.sccStack)
    (hxy : ReflTransGen (Edge adj) x y) : s.index y ≠ none ∧ y ∉ s.sccStack := by
  induction hxy with
  | refl => exact hx
  | tail _ hedge ih => exact h.closed _ ih.1 ih.2 _ hedge

/-- **What lies above a root is its component.** -/
theorem component_of_root (h : Inv adj s (v :: K) ptr none) (hptr : ptr v = (succs adj v).length)
    (hlow : s.idx v = s.lowlink v) (hstack : s.sccStack = above ++ v :: rest) :
    Component adj (above ++ [v]) := by
  have hsorted := List.pairwise_cons.mp h.call_sorted
  have hreach : ∀ {x y : ℕ}, x ∈ above ++ [v] → ReflTransGen (Edge adj) x y →
      y ∈ above ++ [v] ∨ s.index y ≠ none ∧ y ∉ s.sccStack := by
    intro x y hx hxy
    induction hxy with
    | refl => exact .inl hx
    | tail _ hedge ih =>
      rcases ih with hin | hout
      · exact comp_closed h hptr hlow hstack hin hedge
      · exact .inr (h.closed _ hout.1 hout.2 _ hedge)
  -- By the position: a node that is not the root reaches a lower one, still in the component.
  have hdown : ∀ n x, s.idx x = n → x ∈ above ++ [v] → ReflTransGen (Edge adj) x v := by
    intro n
    induction n using Nat.strong_induction_on with
    | _ n ih =>
      intro x hn hx
      by_cases hxv : x = v
      · rw [hxv]
      · obtain ⟨hxS, hvx⟩ := (mem_comp_iff h hstack x).mp hx
        have hxK : x ∉ v :: K := by
          rw [List.mem_cons, not_or]
          refine ⟨hxv, fun hxK => ?_⟩
          have := hsorted.1 x hxK
          omega
        obtain ⟨y, hyS, hlt, hxy⟩ := h.reach_down x hxS hxK
        have hy : y ∈ above ++ [v] := (hreach hx hxy).resolve_right fun hout => hout.2 hyS
        exact hxy.trans (ih (s.idx y) (by omega) y rfl hy)
  have hup : ∀ x ∈ above ++ [v], ReflTransGen (Edge adj) v x := by
    intro x hx
    obtain ⟨hxS, hvx⟩ := (mem_comp_iff h hstack x).mp hx
    exact h.reach_up v List.mem_cons_self x hxS hvx
  refine ⟨by simp, ?_, fun a ha b => ⟨fun hb => ?_, ?_⟩⟩
  · have hnodup : s.sccStack.Nodup := h.stack_sorted.imp fun {a b} hab heq => by
      rw [heq] at hab
      omega
    rw [hstack, List.append_cons] at hnodup
    exact (List.nodup_append.mp hnodup).1
  · exact ⟨(hdown _ a rfl ha).trans (hup b hb), (hdown _ b rfl hb).trans (hup a ha)⟩
  · rintro ⟨hab, hba⟩
    rcases hreach ha hab with hb | hout
    · exact hb
    · exact absurd ((mem_comp_iff h hstack a).mp ha).1 (out_closed h hout hba).2

/-- The state after the component of `v` has been popped. -/
def emit (comp rest : List ℕ) (s : TarjanState) : TarjanState :=
  { s with
    sccStack := rest
    onStack := fun x => if x ∈ comp then false else s.onStack x
    sccs := s.sccs ++ [comp] }

/-- What is not left on the stack is in the component or was not on the stack before. -/
theorem not_mem_rest_iff (h : Inv adj s (v :: K) ptr none) (hstack : s.sccStack = above ++ v :: rest) (x : ℕ) :
    x ∉ rest ↔ x ∈ above ++ [v] ∨ x ∉ s.sccStack := by
  rw [mem_rest_iff h hstack, mem_comp_iff h hstack]
  by_cases hx : x ∈ s.sccStack
  · simp [hx]
  · simp [hx]

theorem emit_on_stack (h : Inv adj s (v :: K) ptr none) (hstack : s.sccStack = above ++ v :: rest) (x : ℕ) :
    (emit (above ++ [v]) rest s).onStack x = true ↔ x ∈ rest := by
  show (if x ∈ above ++ [v] then false else s.onStack x) = true ↔ x ∈ rest
  have hout := not_mem_rest_iff h hstack x
  by_cases hx : x ∈ above ++ [v]
  · have hnot : x ∉ rest := hout.mpr (.inl hx)
    simp only [hx, if_true, Bool.false_eq_true, hnot]
  · rw [if_neg hx, h.on_stack]
    have hiff := not_congr hout
    rw [not_not, not_or, not_not] at hiff
    exact ⟨fun hS => hiff.mpr ⟨hx, hS⟩, fun hr => (hiff.mp hr).2⟩

/-- The components that are out are what has left the stack. -/
theorem emit_emitted (h : Inv adj s (v :: K) ptr none) (hstack : s.sccStack = above ++ v :: rest) (x : ℕ) :
    (∃ comp ∈ s.sccs ++ [above ++ [v]], x ∈ comp) ↔ s.index x ≠ none ∧ x ∉ rest := by
  rw [not_mem_rest_iff h hstack]
  constructor
  · rintro ⟨comp, hc, hx⟩
    rcases List.mem_append.mp hc with hc | hc
    · obtain ⟨hvis, hxS⟩ := (h.emitted x).mp ⟨comp, hc, hx⟩
      exact ⟨hvis, .inr hxS⟩
    · rw [List.mem_singleton.mp hc] at hx
      exact ⟨h.stack_visited x ((mem_comp_iff h hstack x).mp hx).1, .inl hx⟩
  · rintro ⟨hvis, hx | hxS⟩
    · exact ⟨_, List.mem_append_right _ (List.mem_singleton.mpr rfl), hx⟩
    · obtain ⟨comp, hc, hx⟩ := (h.emitted x).mpr ⟨hvis, hxS⟩
      exact ⟨comp, List.mem_append_left _ hc, hx⟩

theorem emit_closed (h : Inv adj s (v :: K) ptr none) (hptr : ptr v = (succs adj v).length)
    (hlow : s.idx v = s.lowlink v) (hstack : s.sccStack = above ++ v :: rest) {x y : ℕ} (hx : s.index x ≠ none)
    (hxr : x ∉ rest) (hxy : Edge adj x y) : s.index y ≠ none ∧ y ∉ rest := by
  have hout := not_mem_rest_iff h hstack
  rcases (hout x).mp hxr with hxc | hxS
  · rcases comp_closed h hptr hlow hstack hxc hxy with hy | hy
    · exact ⟨h.stack_visited y ((mem_comp_iff h hstack y).mp hy).1, (hout y).mpr (.inl hy)⟩
    · exact ⟨hy.1, (hout y).mpr (.inr hy.2)⟩
  · obtain ⟨hy, hyS⟩ := h.closed x hx hxS y hxy
    exact ⟨hy, (hout y).mpr (.inr hyS)⟩

theorem emit_inv (h : Inv adj s (v :: K) ptr none) (hptr : ptr v = (succs adj v).length)
    (hlow : s.idx v = s.lowlink v) (hstack : s.sccStack = above ++ v :: rest) :
    Inv adj (emit (above ++ [v]) rest s) K ptr none := by
  have hsorted := List.pairwise_cons.mp h.call_sorted
  have hrest := mem_rest_iff h hstack
  have hsub : ∀ p ∈ K, p ∈ v :: K := fun p hp => List.mem_cons_of_mem v hp
  have hmem : ∀ x ∈ rest, x ∈ s.sccStack := fun x hx => ((hrest x).mp hx).1
  constructor
  case visited_lt => exact h.visited_lt
  case index_lt => exact h.index_lt
  case index_inj => exact h.index_inj
  -- the two stacks, from the root on
  case on_stack => exact emit_on_stack h hstack
  case stack_visited => exact fun x hx => h.stack_visited x (hmem x hx)
  case stack_sorted =>
    have hs := h.stack_sorted
    rw [hstack] at hs
    exact (List.pairwise_cons.mp (List.pairwise_append.mp hs).2.1).2
  case call_mem => exact fun p hp => (hrest p).mpr ⟨h.call_mem p (hsub p hp), hsorted.1 p hp⟩
  case call_sorted => exact hsorted.2
  case ptr_le => exact fun p hp => h.ptr_le p (hsub p hp)
  case pending_new =>
    intro w hw
    cases hw
  case owner =>
    intro x hx
    obtain ⟨hxS, hxv⟩ := (hrest x).mp hx
    obtain ⟨p, hp, hle⟩ := h.owner x hxS
    rcases List.mem_cons.mp hp with rfl | hpK
    · omega
    · exact ⟨p, hpK, hle⟩
  -- the lowlinks below the root, which none of the component had
  case low_le => exact fun p hp => h.low_le p (hsub p hp)
  case low_sound =>
    intro p hp
    obtain ⟨z, hz, hidx, hreach⟩ := h.low_sound p (hsub p hp)
    have hle := h.low_le p (hsub p hp)
    have hlt := hsorted.1 p hp
    exact ⟨z, (hrest z).mpr ⟨hz, by omega⟩, hidx, hreach⟩
  case low_complete =>
    intro p hp x hx hpx y hy hxy
    rcases h.low_complete p (hsub p hp) x (hmem x hx) hpx y (hmem y hy)
        (done_of_finished hptr hxy) with hpy | ⟨q, hq, hpq, hqx, hqy⟩
    · exact .inl hpy
    · rcases List.mem_cons.mp hq with rfl | hqK
      · have hxq : s.idx x < s.idx q := ((hrest x).mp hx).2
        have hqx' : s.idx q ≤ s.idx x := hqx
        omega
      · exact .inr ⟨q, hqK, hpq, hqx, hqy⟩
  case seen => exact fun x hx y hxy => h.seen x hx y (done_of_finished hptr hxy)
  case closed => exact fun x hx hxr y hxy => emit_closed h hptr hlow hstack hx hxr hxy
  case reach_up => exact fun p hp x hx => h.reach_up p (hsub p hp) x (hmem x hx)
  case reach_down =>
    intro x hx hxK
    obtain ⟨hxS, hxv⟩ := (hrest x).mp hx
    have hne : x ≠ v := by
      rintro rfl
      omega
    obtain ⟨y, hy, hlt, hreach⟩ := h.reach_down x hxS (by simp [hne, hxK])
    exact ⟨y, (hrest y).mpr ⟨hy, by omega⟩, hlt, hreach⟩
  -- one more component is out
  case components =>
    intro comp hc
    rcases List.mem_append.mp hc with hc | hc
    · exact h.components comp hc
    · rw [List.mem_singleton.mp hc]
      exact component_of_root h hptr hlow hstack
  case emitted => exact emit_emitted h hstack
  case apart =>
    refine List.pairwise_append.mpr ⟨h.apart, List.pairwise_singleton _ _, ?_⟩
    intro comp hc comp' hc' x hx hx'
    rw [List.mem_singleton.mp hc'] at hx'
    exact ((h.emitted x).mp ⟨comp, hc, hx⟩).2 ((mem_comp_iff h hstack x).mp hx').1

end Root

/-! ### One turn -/

/-- The call stack: the pending node, then the entered ones with their pointers. -/
def frames (K : List ℕ) (ptr : ℕ → ℕ) (pending : Option ℕ) : List (ℕ × ℕ) :=
  (pending.toList.map fun w => (w, 0)) ++ K.map fun p => (p, ptr p)

/-- The turns that are left: edges not followed and frames not popped. -/
def work (adj : List (List ℕ)) (s : TarjanState) (K : List ℕ) (ptr : ℕ → ℕ) : ℕ :=
  (K.map fun p => (succs adj p).length + 1 - ptr p).sum +
    ∑ v ∈ (Finset.range adj.length).filter (fun v => s.index v = none), ((succs adj v).length + 1)

/-- Where the loop is between two turns. -/
structure Turn (adj : List (List ℕ)) (s : TarjanState) (K : List ℕ) (ptr : ℕ → ℕ)
    (pending : Option ℕ) : Prop where
  inv : Inv adj s K ptr pending
  callStack : s.callStack = frames K ptr pending
  started : ∀ p ∈ K, ptr p ≠ 0

theorem not_mem_of_call (h : Inv adj s (v :: K) ptr pending) : v ∉ K := by
  intro hv
  have := (List.pairwise_cons.mp h.call_sorted).1 v hv
  omega

/-- Entering a node moves its work to the call stack. -/
theorem work_enter (h : Inv adj s K ptr (some w)) :
    work adj (enter w s) (w :: K) (Function.update ptr w 0) = work adj s K ptr := by
  obtain ⟨hnew, hwlt, -⟩ := h.pending_new w rfl
  have hwK : w ∉ K := not_mem_of_call (enter_inv h)
  have hmap : (K.map fun p => (succs adj p).length + 1 - Function.update ptr w 0 p) =
      K.map fun p => (succs adj p).length + 1 - ptr p := by
    refine List.map_congr_left fun p hp => ?_
    rw [Function.update_of_ne (by rintro rfl; exact hwK hp)]
  have hfilter : (Finset.range adj.length).filter (fun v => (enter w s).index v = none) =
      ((Finset.range adj.length).filter fun v => s.index v = none).erase w := by
    ext x
    have hx := @enter_index_ne_none s w x
    simp only [Finset.mem_filter, Finset.mem_erase, Finset.mem_range]
    grind
  have hmem : w ∈ (Finset.range adj.length).filter fun v => s.index v = none :=
    Finset.mem_filter.mpr ⟨Finset.mem_range.mpr hwlt, hnew⟩
  have hsum := Finset.add_sum_erase _ (fun v => (succs adj v).length + 1) hmem
  simp only [work, List.map_cons, List.sum_cons, Function.update_self, Nat.sub_zero, hmap, hfilter]
  omega

theorem work_advance (hlt : ptr v < (succs adj v).length) (hv : v ∉ K) :
    work adj s (v :: K) (Function.update ptr v (ptr v + 1)) + 1 = work adj s (v :: K) ptr := by
  have hmap : (K.map fun p => (succs adj p).length + 1 - Function.update ptr v (ptr v + 1) p) =
      K.map fun p => (succs adj p).length + 1 - ptr p := by
    refine List.map_congr_left fun p hp => ?_
    rw [Function.update_of_ne (by rintro rfl; exact hv hp)]
  simp only [work, List.map_cons, List.sum_cons, Function.update_self, hmap]
  omega

theorem work_pop (hptr : ptr v = (succs adj v).length) :
    work adj s K ptr + 1 = work adj s (v :: K) ptr := by
  simp only [work, List.map_cons, List.sum_cons, hptr]
  omega

theorem frames_update (hv : v ∉ K) (k : ℕ) :
    (K.map fun p => (p, Function.update ptr v k p)) = K.map fun p => (p, ptr p) := by
  refine List.map_congr_left fun p hp => ?_
  rw [Function.update_of_ne (by rintro rfl; exact hv hp)]

/-- The pointer of the top node moves on. -/
theorem turn_advance (s' : TarjanState) {pending : Option ℕ} (h : Inv adj s (v :: K) ptr none)
    (hstarted : ∀ p ∈ K, ptr p ≠ 0) (hw : (succs adj v)[ptr v]? = some w)
    (hinv : Inv adj s' (v :: K) (Function.update ptr v (ptr v + 1)) pending)
    (hindex : s'.index = s.index)
    (hcall : s'.callStack = (pending.toList.map fun w => (w, 0)) ++ (v, ptr v + 1) ::
      K.map fun p => (p, ptr p)) :
    Turn adj s' (v :: K) (Function.update ptr v (ptr v + 1)) pending ∧
      work adj s' (v :: K) (Function.update ptr v (ptr v + 1)) + 1 = work adj s (v :: K) ptr := by
  obtain ⟨hlt, -⟩ := List.getElem?_eq_some_iff.mp hw
  have hv := not_mem_of_call h
  refine ⟨⟨hinv, ?_, ?_⟩, ?_⟩
  · rw [hcall, frames, List.map_cons, frames_update hv, Function.update_self]
  · intro p hp
    by_cases hpv : p = v
    · rw [hpv, Function.update_self]
      omega
    · rw [Function.update_of_ne hpv]
      exact hstarted p ((List.mem_cons.mp hp).resolve_left hpv)
  · have hsame : ∀ K ptr, work adj s' K ptr = work adj s K ptr := by
      intro K ptr
      simp only [work, hindex]
    rw [hsame]
    exact work_advance hlt hv

/-- The parent takes over the lowlink. -/
theorem lowerParent_inv (h : Inv adj s (v :: K) ptr none) :
    let s₀ := lowerParent v (K.map fun p => (p, ptr p)) s
    Inv adj s₀ (v :: K) ptr none ∧ (∀ p ∈ K.head?, s₀.lowlink p ≤ s₀.lowlink v) ∧
      s₀.index = s.index := by
  cases K with
  | nil => exact ⟨h, by simp, rfl⟩
  | cons q K =>
    obtain ⟨z, hz, hidx, hreach⟩ := h.low_sound v List.mem_cons_self
    have hqv : s.idx q < s.idx v := (List.pairwise_cons.mp h.call_sorted).1 q List.mem_cons_self
    have hqreach : ReflTransGen (Edge adj) q z :=
      (h.reach_up q (by simp) v (h.call_mem v List.mem_cons_self) hqv.le).trans hreach
    refine ⟨lower_inv h hz hidx fun _ => hqreach, ?_, rfl⟩
    intro p hp
    obtain rfl : q = p := by simpa using hp
    have hvq : v ≠ q := by
      rintro rfl
      omega
    simp [lowerParent, lower, Function.update_of_ne hvq]

/-- The top node is finished. -/
theorem finish_turn (h : Inv adj s (v :: K) ptr none) (hstarted : ∀ p ∈ K, ptr p ≠ 0)
    (hptr : ptr v = (succs adj v).length) :
    ∃ s', finish v (K.map fun p => (p, ptr p)) s = .ok s' ∧ Turn adj s' K ptr none ∧
      s'.index = s.index := by
  obtain ⟨hinv, hparent, hindex⟩ := lowerParent_inv h
  unfold finish
  generalize lowerParent v (K.map fun p => (p, ptr p)) s = s₀ at hinv hparent hindex ⊢
  have hvS : v ∈ s₀.sccStack := hinv.call_mem v List.mem_cons_self
  have hroot : s₀.index v = some (s₀.lowlink v) ↔ s₀.idx v = s₀.lowlink v := by
    obtain ⟨i, hi⟩ := Option.ne_none_iff_exists'.mp (hinv.stack_visited v hvS)
    rw [TarjanState.idx, hi]
    simp
  dsimp only
  split_ifs with hlow
  · obtain ⟨above, rest, hstack, -, hpop⟩ := popComponent_eq hvS
    rw [hpop]
    have hemit := emit_inv hinv hptr (hroot.mp hlow) hstack
    exact ⟨_, rfl, ⟨hemit.with_callStack _, rfl, hstarted⟩, hindex⟩
  · have hpop := pop_inv hinv hptr hparent fun heq => hlow (hroot.mpr heq)
    exact ⟨_, rfl, ⟨hpop.with_callStack _, rfl, hstarted⟩, hindex⟩

/-- A turn with the top node entered: an edge is followed, or the node is finished. -/
theorem advance_turn (h : Inv adj s (v :: K) ptr none) (hstarted : ∀ p ∈ K, ptr p ≠ 0)
    (hbound : ∀ u, ∀ w ∈ succs adj u, w < adj.length) :
    ∃ s' K' ptr' pending', advance adj v (ptr v) (K.map fun p => (p, ptr p)) s = .ok s' ∧
      Turn adj s' K' ptr' pending' ∧ work adj s' K' ptr' + 1 = work adj s (v :: K) ptr ∧
      s'.index = s.index := by
  unfold advance
  cases hw : (succs adj v)[ptr v]? with
  | none =>
    -- no edge is left at `v`
    have hptr : ptr v = (succs adj v).length :=
      le_antisymm (h.ptr_le v List.mem_cons_self) (List.getElem?_eq_none_iff.mp hw)
    obtain ⟨s', hs', hturn, hindex⟩ := finish_turn h hstarted hptr
    refine ⟨s', K, ptr, none, hs', hturn, ?_, hindex⟩
    rw [← work_pop hptr]
    simp only [work, hindex]
  | some w =>
    have hedge : w ∈ succs adj v := List.mem_of_getElem? hw
    set callStack := (v, ptr v + 1) :: K.map fun p => (p, ptr p)
    cases hidx : s.index w with
    | none =>
      -- `w` is new: it is pushed and entered in the next turn
      have hwS : w ∉ s.sccStack := fun hwS => h.stack_visited w hwS hidx
      have hinv := advance_inv (some w) h hw
        (fun x hx => by
          obtain rfl : w = x := Option.some.inj hx
          exact ⟨hidx, hbound v w hedge, hedge⟩)
        (.inr rfl) (fun hmem => absurd hmem hwS)
      obtain ⟨hturn, hwork⟩ := turn_advance { s with callStack := (w, 0) :: callStack } h hstarted
        hw (hinv.with_callStack _) rfl rfl
      exact ⟨_, _, _, _, by simp only [hidx], hturn, hwork, rfl⟩
    | some i =>
      have hvis : s.index w ≠ none := by simp [hidx]
      by_cases hon : s.onStack w = true
      · -- `w` is on the stack: its number lowers the lowlink of `v`
        have hwS := (h.on_stack w).mp hon
        have hi : s.idx w = i := by simp [TarjanState.idx, hidx]
        have hlower := lower_inv h hwS hi fun _ => .single hedge
        have hinv := advance_inv none hlower hw (by simp) (.inl hvis) (by
          intro _
          show (lower v i s).lowlink v ≤ s.idx w
          simp [lower, hi])
        obtain ⟨hturn, hwork⟩ := turn_advance
          (lower v i { s with callStack := callStack }) h hstarted hw
          (hinv.with_callStack callStack) rfl rfl
        exact ⟨_, _, _, _, by simp only [hidx, hon, if_true], hturn, hwork, rfl⟩
      · -- `w` is in a component that is already out
        have hwS : w ∉ s.sccStack := fun hwS => hon ((h.on_stack w).mpr hwS)
        have hinv := advance_inv none h hw (by simp) (.inl hvis)
          (fun hmem => absurd hmem hwS)
        obtain ⟨hturn, hwork⟩ := turn_advance { s with callStack := callStack } h hstarted hw
          (hinv.with_callStack _) rfl rfl
        exact ⟨_, _, _, _, by simp only [hidx, hon]; rfl, hturn, hwork, rfl⟩

/-- **One turn** of the loop. -/
theorem step_turn (h : Turn adj s K ptr pending) (hbound : ∀ u, ∀ w ∈ succs adj u, w < adj.length)
    {ci : ℕ} {rest : List (ℕ × ℕ)} (hcall : s.callStack = (v, ci) :: rest) :
    ∃ s' K' ptr' pending', step adj v ci rest s = .ok s' ∧ Turn adj s' K' ptr' pending' ∧
      work adj s' K' ptr' + 1 = work adj s K ptr ∧
      ∀ x, s.index x ≠ none ∨ x ∈ pending → s'.index x ≠ none := by
  have hframes := h.callStack
  rw [hcall] at hframes
  unfold step
  cases pending with
  -- the frame on top is new: its node is entered before the turn
  | some w =>
    obtain ⟨⟨rfl, rfl⟩, rfl⟩ : (v = w ∧ ci = 0) ∧ rest = K.map fun p => (p, ptr p) := by
      simpa [frames] using hframes
    have henter := enter_inv h.inv
    have hv := not_mem_of_call henter
    obtain ⟨s', K', ptr', pending', hs', hturn, hwork, hindex⟩ := advance_turn henter
      (fun p hp => by
        rw [Function.update_of_ne (by rintro rfl; exact hv hp)]
        exact h.started p hp) hbound
    rw [Function.update_self, frames_update hv] at hs'
    refine ⟨s', K', ptr', pending', by simpa using hs', hturn, ?_, fun x hx => ?_⟩
    · rw [hwork, work_enter h.inv]
    · rw [hindex, enter_index_ne_none]
      rcases hx with hx | hx
      · exact .inr hx
      · exact .inl (Option.some.inj hx).symm
  -- the frame on top goes on where it stopped
  | none =>
    cases K with
    | nil => simp [frames] at hframes
    | cons u K =>
      obtain ⟨⟨rfl, rfl⟩, rfl⟩ : (v = u ∧ ci = ptr u) ∧ rest = K.map fun p => (p, ptr p) := by
        simpa [frames] using hframes
      obtain ⟨s', K', ptr', pending', hs', hturn, hwork, hindex⟩ := advance_turn h.inv
        (fun p hp => h.started p (List.mem_cons_of_mem v hp)) hbound
      have hne : ptr v ≠ 0 := h.started v List.mem_cons_self
      refine ⟨s', K', ptr', pending', by simpa [hne] using hs', hturn, hwork, fun x hx => ?_⟩
      rw [hindex]
      rcases hx with hx | hx
      · exact hx
      · cases hx

theorem Turn.eq_nil (h : Turn adj s K ptr pending) (hcall : s.callStack = []) :
    pending = none ∧ K = [] := by
  have hframes := h.callStack
  rw [hcall] at hframes
  cases pending with
  | some w => simp [frames] at hframes
  | none => exact ⟨rfl, by simpa [frames] using hframes⟩

/-- **The loop of a root** ends, with the call stack empty. -/
theorem dfs_inv (hbound : ∀ u, ∀ w ∈ succs adj u, w < adj.length) (fuel : ℕ)
    (h : Turn adj s K ptr pending) (hfuel : work adj s K ptr ≤ fuel) :
    ∃ s', dfs adj fuel s = .ok s' ∧ (∃ ptr', Inv adj s' [] ptr' none) ∧
      ∀ x, s.index x ≠ none ∨ x ∈ pending → s'.index x ≠ none := by
  induction fuel generalizing s K ptr pending with
  | zero =>
    cases hcall : s.callStack with
    | nil =>
      obtain ⟨rfl, rfl⟩ := h.eq_nil hcall
      exact ⟨s, by simp [dfs, hcall], ⟨ptr, h.inv⟩, fun x hx => by simpa using hx⟩
    | cons top rest =>
      obtain ⟨s', K', ptr', pending', -, -, hwork, -⟩ := step_turn h hbound hcall
      omega
  | succ fuel ih =>
    cases hcall : s.callStack with
    | nil =>
      obtain ⟨rfl, rfl⟩ := h.eq_nil hcall
      exact ⟨s, by simp [dfs, hcall], ⟨ptr, h.inv⟩, fun x hx => by simpa using hx⟩
    | cons top rest =>
      obtain ⟨s', K', ptr', pending', hstep, hturn, hwork, hvisited⟩ := step_turn h hbound hcall
      obtain ⟨s'', hdfs, hinv, hvisited'⟩ := ih hturn (by omega)
      refine ⟨s'', ?_, hinv, fun x hx => hvisited' x (.inl (hvisited x hx))⟩
      rw [dfs, hcall]
      simp only [hstep]
      exact hdfs

/-! ### All roots -/

theorem work_le_turns (s : TarjanState) (ptr : ℕ → ℕ) : work adj s [] ptr ≤ turns adj := by
  have hsum : turns adj = ∑ v ∈ Finset.range adj.length, ((succs adj v).length + 1) := rfl
  rw [work, hsum, List.map_nil, List.sum_nil, Nat.zero_add]
  exact Finset.sum_le_sum_of_subset (Finset.filter_subset _ _)

theorem roots_inv (hbound : ∀ u, ∀ w ∈ succs adj u, w < adj.length) (roots : List ℕ)
    (hroots : ∀ r ∈ roots, r < adj.length) (h : Inv adj s [] ptr none) :
    ∃ s', roots.foldlM (fun s root =>
        if (s.index root).isSome then Except.ok s
        else dfs adj (turns adj) { s with callStack := [(root, 0)] }) s = .ok s' ∧
      (∃ ptr', Inv adj s' [] ptr' none) ∧ ∀ x, s.index x ≠ none ∨ x ∈ roots → s'.index x ≠ none := by
  induction roots generalizing s ptr with
  | nil => exact ⟨s, rfl, ⟨ptr, h⟩, fun x hx => by simpa using hx⟩
  | cons root roots ih =>
    have hrest : ∀ r ∈ roots, r < adj.length := fun r hr => hroots r (List.mem_cons_of_mem root hr)
    rw [List.foldlM_cons]
    by_cases hvis : (s.index root).isSome
    · obtain ⟨s', hs', hinv, hvisited⟩ := ih hrest h
      refine ⟨s', by rw [if_pos hvis]; exact hs', hinv, fun x hx => hvisited x ?_⟩
      rcases hx with hx | hx
      · exact .inl hx
      · rcases List.mem_cons.mp hx with rfl | hx
        · exact .inl (Option.isSome_iff_ne_none.mp hvis)
        · exact .inr hx
    · have hnew : s.index root = none := by simpa using hvis
      -- A root of its own: nothing on the call stack leads to it.
      have hstart : Inv adj s [] ptr (some root) :=
        { h with
          pending_new := by
            intro w hw
            obtain rfl : root = w := Option.some.inj hw
            exact ⟨hnew, hroots root List.mem_cons_self, by simp⟩
          seen := fun x hx y hxy => (h.seen x hx y hxy).imp_right fun hy => nomatch hy }
      obtain ⟨s₁, hs₁, ⟨ptr₁, hinv₁⟩, hvisited₁⟩ := dfs_inv hbound (turns adj)
        (s := { s with callStack := [(root, 0)] }) ⟨hstart.with_callStack _, rfl, by simp⟩
        (work_le_turns _ ptr)
      obtain ⟨s', hs', hinv, hvisited⟩ := ih hrest hinv₁
      refine ⟨s', ?_, hinv, fun x hx => hvisited x ?_⟩
      · rw [if_neg hvis, hs₁]
        exact hs'
      · rcases hx with hx | hx
        · exact .inl (hvisited₁ x (.inl hx))
        · rcases List.mem_cons.mp hx with rfl | hx
          · exact .inl (hvisited₁ x (.inr rfl))
          · exact .inr hx

/-- Before the first root. -/
theorem inv_start :
    Inv adj ⟨fun _ => none, fun _ => 0, fun _ => false, [], [], 0, []⟩ [] (fun _ => 0) none := by
  constructor <;> simp

/-- **Tarjan's algorithm**: the run has no fault, and its result is the components, each once. -/
theorem tarjanScc_spec (hbound : ∀ u, ∀ w ∈ succs adj u, w < adj.length) :
    ∃ sccs, tarjanScc adj = .ok sccs ∧ (∀ comp ∈ sccs, Component adj comp) ∧
      sccs.Pairwise List.Disjoint ∧ ∀ v, (∃ comp ∈ sccs, v ∈ comp) ↔ v < adj.length := by
  obtain ⟨s, hs, ⟨ptr, hinv⟩, hvisited⟩ := roots_inv hbound (List.range adj.length)
    (fun r hr => List.mem_range.mp hr) inv_start
  have hempty : s.sccStack = [] := by
    apply List.eq_nil_iff_forall_not_mem.mpr
    intro x hx
    obtain ⟨p, hp, -⟩ := hinv.owner x hx
    cases hp
  refine ⟨s.sccs, ?_, hinv.components, hinv.apart, fun v => ?_⟩
  · rw [tarjanScc, hs]
    rfl
  · rw [hinv.emitted, hempty]
    constructor
    · rintro ⟨hv, -⟩
      exact hinv.visited_lt v hv
    · intro hv
      exact ⟨hvisited v (.inr (List.mem_range.mpr hv)), List.not_mem_nil⟩

end CodeGraph.Graph.Cycles
