import CodeGraph.Graph.ReadingOrder
import CodeGraph.Lib.Lists
import Mathlib.Data.Fintype.EquivFin
import Mathlib.Logic.Relation
import Mathlib.Order.WellFounded

/-!
# The reading order respects imports

`Sorted g s` says what the loop keeps: the indegrees count the prerequisites not listed yet, the heap holds the
modules that have none left, and a module that is not flagged stands behind all its prerequisites. One turn lists one
module more (`Sorted.step`), so the loop ends. Where imports make no cycle, some module is always free, and nothing is
cut.
-/

namespace CodeGraph.Graph.ReadingOrder

open CodeGraph.Lib Relation

variable {n : ℕ} {g : ImportGraph n} {s s' : SortState n} {i j p : Fin n} {ds : List (Fin n)}

/-- `dependents` is `prereqs` the other way round. -/
structure ImportGraph.Ok (g : ImportGraph n) : Prop where
  nodup : ∀ j, (g.dependents j).Nodup
  mem : ∀ i j, i ∈ g.dependents j ↔ j ∈ g.prereqs i

/-- What the loop keeps. -/
structure Sorted (g : ImportGraph n) (s : SortState n) : Prop where
  emitted : ∀ i, s.emitted i = true ↔ i ∈ s.emitOrder
  nodup : s.emitOrder.Nodup
  indeg : ∀ i, s.emitted i = false → s.indeg i = {p ∈ g.prereqs i | s.emitted p = false}.card
  heap : ∀ i, i ∈ s.heap ↔ s.emitted i = false ∧ s.indeg i = 0
  heapNodup : s.heap.Nodup
  flagged : ∀ i, s.inCycle i = true → s.emitted i = true
  order : ∀ a i b, s.emitOrder = a ++ i :: b → s.inCycle i = false → ∀ p ∈ g.prereqs i, p ∈ a

/-! ### One turn -/

/-- What the loop over the dependents does: the modules not listed yet lose a prerequisite each, and those that had
one left are free. -/
structure Released (ds : List (Fin n)) (s s' : SortState n) : Prop where
  emitted : s'.emitted = s.emitted
  inCycle : s'.inCycle = s.inCycle
  emitOrder : s'.emitOrder = s.emitOrder
  indeg : ∀ i, s'.indeg i = if i ∈ ds ∧ s.emitted i = false then s.indeg i - 1 else s.indeg i
  heap : ∀ i, i ∈ s'.heap ↔ i ∈ s.heap ∨ i ∈ ds ∧ s.emitted i = false ∧ s.indeg i = 1
  heapNodup : s'.heap.Nodup

theorem released_one (s : SortState n) (d : Fin n) (hheap : s.heap.Nodup) (hfree : ∀ i ∈ s.heap, s.indeg i = 0) :
    Released [d] s (release s d) := by
  unfold release
  -- only a file that is not written yet and still waits is counted down
  by_cases hrelease : s.emitted d = false ∧ 0 < s.indeg d
  · rw [if_pos hrelease]
    have hindeg : ∀ i, Function.update s.indeg d (s.indeg d - 1) i =
        if i ∈ [d] ∧ s.emitted i = false then s.indeg i - 1 else s.indeg i := by
      intro i
      by_cases hi : i = d
      · subst hi
        rw [Function.update_self, if_pos ⟨List.mem_singleton_self i, hrelease.1⟩]
      · rw [Function.update_of_ne hi, if_neg fun h => hi (List.mem_singleton.mp h.1)]
    -- a file that waits is not in the heap, so it enters it once
    have hd : d ∉ s.heap := fun hmem => by
      have := hfree d hmem
      omega
    refine ⟨rfl, rfl, rfl, hindeg, fun i => ?_, ?_⟩
    · dsimp only
      rw [List.mem_singleton]
      split_ifs with hzero
      · rw [List.mem_cons, or_comm]
        refine or_congr_right ⟨fun h => ?_, fun h => h.1⟩
        subst h
        exact ⟨rfl, hrelease.1, by omega⟩
      · refine (or_iff_left ?_).symm
        rintro ⟨rfl, -, hone⟩
        omega
    · dsimp only
      split_ifs with hzero
      · exact List.nodup_cons.mpr ⟨hd, hheap⟩
      · exact hheap
  · rw [if_neg hrelease]
    refine ⟨rfl, rfl, rfl, fun i => ?_, fun i => ?_, hheap⟩
    · split_ifs with h
      · obtain rfl := List.mem_singleton.mp h.1
        have : ¬0 < s.indeg i := fun hpos => hrelease ⟨h.2, hpos⟩
        omega
      · rfl
    · refine (or_iff_left ?_).symm
      rintro ⟨hi, hemitted, hone⟩
      obtain rfl := List.mem_singleton.mp hi
      exact hrelease ⟨hemitted, by omega⟩

theorem released_foldl (hds : ds.Nodup) (s : SortState n) (hheap : s.heap.Nodup)
    (hfree : ∀ i ∈ s.heap, s.indeg i = 0) : Released ds s (ds.foldl release s) := by
  induction ds generalizing s with
  | nil => exact ⟨rfl, rfl, rfl, fun i => by simp, fun i => by simp, hheap⟩
  | cons d ds ih =>
    obtain ⟨hd, hds⟩ := List.nodup_cons.mp hds
    have hone := released_one s d hheap hfree
    -- a file enters the heap when nothing is left to wait for
    have hfree' : ∀ i ∈ (release s d).heap, (release s d).indeg i = 0 := by
      intro i hi
      rw [hone.indeg]
      rcases (hone.heap i).mp hi with hi | ⟨hid, hemitted, hindeg⟩
      · have := hfree i hi
        split_ifs <;> omega
      · rw [if_pos ⟨hid, hemitted⟩]
        omega
    have hrest := ih hds (release s d) hone.heapNodup hfree'
    rw [List.foldl_cons]
    constructor
    case emitted => rw [hrest.emitted, hone.emitted]
    case inCycle => rw [hrest.inCycle, hone.inCycle]
    case emitOrder => rw [hrest.emitOrder, hone.emitOrder]
    case heapNodup => exact hrest.heapNodup
    case indeg =>
      intro i
      rw [hrest.indeg, hone.indeg, hone.emitted]
      by_cases hi : i = d
      · subst hi
        simp [hd]
      · simp [hi]
    case heap =>
      intro i
      rw [hrest.heap, hone.heap, hone.indeg, hone.emitted]
      by_cases hi : i = d
      · subst hi
        simp [hd]
      · simp [hi]

/-- Listing a module that the heap or a cut gave. -/
theorem Sorted.emit (h : Sorted g s) (hg : g.Ok) (hi : s.emitted i = false) (heap : List (Fin n))
    (inCycle : Fin n → Bool) (hheap : ∀ j, j ∈ heap ↔ j ∈ s.heap ∧ j ≠ i) (hnodup : heap.Nodup)
    (hcycle : ∀ j, j ≠ i → inCycle j = s.inCycle j)
    (hpicked : inCycle i = false → ∀ p ∈ g.prereqs i, s.emitted p = true) :
    ∃ s', emit g { s with heap := heap, inCycle := inCycle } i = s' ∧ Sorted g s' ∧
      s'.emitOrder = s.emitOrder ++ [i] ∧ s'.inCycle = inCycle := by
  -- `i` is new in the list.
  have hnew : i ∉ s.emitOrder := fun hmem => by
    rw [(h.emitted i).mpr hmem] at hi
    cases hi
  unfold ReadingOrder.emit
  dsimp only
  rw [hi, if_neg Bool.false_ne_true]
  refine ⟨_, rfl, ?_⟩
  have hfree : ∀ j ∈ heap, s.indeg j = 0 := fun j hj => ((h.heap j).mp ((hheap j).mp hj).1).2
  obtain ⟨hemitted, hsame, horder, hlower, hfreed, hnodup'⟩ := released_foldl (hg.nodup i)
    { s with heap := heap, inCycle := inCycle, emitted := Function.update s.emitted i true
             emitOrder := s.emitOrder ++ [i] } hnodup hfree
  generalize (g.dependents i).foldl release _ = s' at hemitted hsame horder hlower hfreed hnodup' ⊢
  dsimp only at hemitted hsame horder hlower hfreed
  -- What is left is what was left before, without `i`.
  have hleft : ∀ j, s'.emitted j = false ↔ s.emitted j = false ∧ j ≠ i := by
    intro j
    rw [hemitted]
    by_cases hj : j = i
    · subst hj
      simp
    · simp [hj]
  -- an indegree counts the prerequisites that are left, so it loses one just where the module imports `i`
  have hcount : ∀ j, s'.emitted j = false → s.indeg j = (if i ∈ g.prereqs j then 1 else 0) +
      {p ∈ g.prereqs j | s'.emitted p = false}.card := by
    intro j hj
    rw [h.indeg j ((hleft j).mp hj).1]
    have hfilter : {p ∈ g.prereqs j | s'.emitted p = false} = {p ∈ g.prereqs j | s.emitted p = false}.erase i := by
      ext p
      rw [Finset.mem_filter, Finset.mem_erase, Finset.mem_filter, hleft]
      tauto
    rw [hfilter]
    split_ifs with hmem
    · have hmem' : i ∈ {p ∈ g.prereqs j | s.emitted p = false} := Finset.mem_filter.mpr ⟨hmem, hi⟩
      rw [add_comm, Finset.card_erase_add_one hmem']
    · rw [Finset.erase_eq_of_notMem fun hmem' => hmem (Finset.mem_filter.mp hmem').1, zero_add]
  have hindeg : ∀ j, s'.emitted j = false → s'.indeg j = {p ∈ g.prereqs j | s'.emitted p = false}.card := by
    intro j hj
    have hj' := hcount j hj
    have hloses : (j ∈ g.dependents i ∧ Function.update s.emitted i true j = false) ↔ i ∈ g.prereqs j := by
      rw [hg.mem, ← hemitted, and_iff_left hj]
    rw [hlower j, if_congr hloses rfl rfl]
    split_ifs at hj' ⊢ with hmem
    · omega
    · omega
  -- The fields of the invariant, in the order the structure gives them.
  refine ⟨⟨fun j => ?_, ?_, hindeg, fun j => ?_, hnodup', fun j hj => ?_, ?_⟩, horder, hsame⟩
  · rw [horder, List.mem_append, List.mem_singleton, ← h.emitted, hemitted]
    by_cases hj : j = i
    · subst hj
      simp
    · simp [hj]
  · rw [horder]
    exact List.nodup_append.mpr ⟨h.nodup, List.nodup_singleton i, fun a ha b hb => by
      rw [List.mem_singleton.mp hb]
      exact fun heq => hnew (heq ▸ ha)⟩
  · -- the heap holds the free modules: those that were, without `i`, and those that lost their last prerequisite
    rw [hfreed j, hheap j, h.heap j, hg.mem, ← hemitted]
    constructor
    · rintro (⟨⟨hj, hzero⟩, hne⟩ | ⟨hmem, hj, hone⟩)
      · have hj' := (hleft j).mpr ⟨hj, hne⟩
        have := hcount j hj'
        exact ⟨hj', by rw [hindeg j hj']; omega⟩
      · have := hcount j hj
        rw [if_pos hmem] at this
        exact ⟨hj, by rw [hindeg j hj]; omega⟩
    · rintro ⟨hj, hzero⟩
      have hcard := hcount j hj
      rw [hindeg j hj] at hzero
      by_cases hmem : i ∈ g.prereqs j
      · rw [if_pos hmem] at hcard
        exact .inr ⟨hmem, hj, by omega⟩
      · rw [if_neg hmem] at hcard
        exact .inl ⟨⟨((hleft j).mp hj).1, by omega⟩, ((hleft j).mp hj).2⟩
  -- A module flagged as of a cycle stays listed.
  · by_contra hnot
    obtain ⟨hj', hne⟩ := (hleft j).mp (Bool.eq_false_iff.mpr hnot)
    rw [hsame, hcycle j hne] at hj
    rw [h.flagged j hj] at hj'
    cases hj'
  · intro a k b hsplit hk p hp
    rw [horder] at hsplit
    rw [hsame] at hk
    rcases concat_eq_append_cons hsplit with ⟨rfl, rfl⟩ | ⟨b', hrest⟩
    · -- the module that was just listed
      exact (h.emitted p).mp (hpicked hk p hp)
    · have hne : k ≠ i := by
        rintro rfl
        exact hnew (by rw [hrest]; simp)
      rw [hcycle k hne] at hk
      exact h.order a k b' hrest hk p hp

/-- The heap is empty and not everything is listed: some module is left to cut at. -/
theorem Sorted.exists_cut (h : Sorted g s) (hlt : s.emitOrder.length < n) : ∃ i, cut s = some i := by
  obtain ⟨i, hi⟩ : ∃ i, i ∉ s.emitOrder := by
    by_contra hall
    push Not at hall
    have hcard : Fintype.card (Fin n) ≤ s.emitOrder.toFinset.card := by
      rw [← Finset.card_univ]
      exact Finset.card_le_card fun i _ => List.mem_toFinset.mpr (hall i)
    rw [Fintype.card_fin, List.toFinset_card_of_nodup h.nodup] at hcard
    omega
  have hmem : i ∈ (List.finRange n).filter fun i => !s.emitted i := by
    refine List.mem_filter.mpr ⟨List.mem_finRange i, ?_⟩
    rw [Bool.not_eq_true', Bool.eq_false_iff, Ne, h.emitted]
    exact hi
  unfold cut
  cases hcut : List.argmin (fun i => toLex (s.indeg i, i)) ((List.finRange n).filter fun i => !s.emitted i) with
  | none =>
    rw [List.argmin_eq_none] at hcut
    rw [hcut] at hmem
    cases hmem
  | some c => exact ⟨c, rfl⟩

theorem cut_spec (h : cut s = some i) :
    s.emitted i = false ∧ ∀ j, s.emitted j = false → toLex (s.indeg i, i) ≤ toLex (s.indeg j, j) := by
  have hmem := List.argmin_mem h
  refine ⟨by simpa using (List.mem_filter.mp hmem).2, fun j hj => ?_⟩
  refine List.le_of_mem_argmin (f := fun i => toLex (s.indeg i, i)) (List.mem_filter.mpr ⟨List.mem_finRange j, ?_⟩) h
  rw [hj]
  rfl

/-- One turn lists one module more. It is free, or the heap is empty and it is the cut. -/
theorem Sorted.step (h : Sorted g s) (hg : g.Ok) (hlt : s.emitOrder.length < n) :
    ∃ i s', step g s = some s' ∧ Sorted g s' ∧ s'.emitOrder = s.emitOrder ++ [i] ∧
      (s'.inCycle = s.inCycle ∧ i ∈ s.heap ∨
        s.heap = [] ∧ cut s = some i ∧ s'.inCycle = Function.update s.inCycle i true) := by
  unfold ReadingOrder.step pick
  cases hmin : s.heap.min? with
  | some i =>
    have hi : i ∈ s.heap := List.min?_mem hmin
    obtain ⟨hemitted, hzero⟩ := (h.heap i).mp hi
    obtain ⟨s', hs', hsorted, horder, hcycle⟩ := h.emit hg hemitted (s.heap.erase i) s.inCycle
      (fun j => by rw [h.heapNodup.mem_erase_iff]; exact and_comm) (h.heapNodup.erase i) (fun _ _ => rfl)
      (fun _ p hp => by
        -- no prerequisite is left
        rw [h.indeg i hemitted, Finset.card_eq_zero, Finset.filter_eq_empty_iff] at hzero
        simpa using hzero hp)
    exact ⟨i, s', congrArg some hs', hsorted, horder, .inl ⟨hcycle, hi⟩⟩
  | none =>
    have hempty : s.heap = [] := List.min?_eq_none_iff.mp hmin
    obtain ⟨i, hcut⟩ := h.exists_cut hlt
    obtain ⟨s', hs', hsorted, horder, hcycle⟩ := h.emit hg (cut_spec hcut).1 s.heap
      (Function.update s.inCycle i true) (fun j => by rw [hempty]; simp) h.heapNodup
      (fun j hj => Function.update_of_ne hj _ _) (fun hfalse => by
        rw [Function.update_self] at hfalse
        cases hfalse)
    refine ⟨i, s', ?_, hsorted, horder, .inr ⟨hempty, hcut, hcycle⟩⟩
    dsimp only
    rw [hcut]
    exact congrArg some hs'

/-! ### The loop -/

/-- The turns of the loop from a state that is not done. -/
def Turn (g : ImportGraph n) (s s' : SortState n) : Prop := s.emitOrder.length < n ∧ step g s = some s'

theorem Sorted.turn_inv (h : Sorted g s) (hg : g.Ok) (hturn : Turn g s s') :
    Sorted g s' ∧ ∃ i, s'.emitOrder = s.emitOrder ++ [i] ∧
      (s'.inCycle = s.inCycle ∧ i ∈ s.heap ∨
        s.heap = [] ∧ cut s = some i ∧ s'.inCycle = Function.update s.inCycle i true) := by
  obtain ⟨i, s'', hs'', hsorted, horder, hcases⟩ := h.step hg hturn.1
  rw [hturn.2] at hs''
  obtain rfl := Option.some.inj hs''
  exact ⟨hsorted, i, horder, hcases⟩

theorem Sorted.turn (h : Sorted g s) (hg : g.Ok) (hturn : Turn g s s') : Sorted g s' := (h.turn_inv hg hturn).1

theorem Sorted.turns (h : Sorted g s) (hg : g.Ok) (hturns : ReflTransGen (Turn g) s s') : Sorted g s' := by
  induction hturns with
  | refl => exact h
  | tail _ hturn ih => exact ih.turn hg hturn

/-- The loop ends: every turn lists a module. -/
theorem Sorted.sortLoop (h : Sorted g s) (hg : g.Ok) : ∃ s', ReflTransGen (Turn g) s s' ∧ n ≤ s'.emitOrder.length ∧
    ∀ fuel, n ≤ s.emitOrder.length + fuel → ReadingOrder.sortLoop g fuel s = .ok s' := by
  induction hleft : n - s.emitOrder.length generalizing s with
  | zero =>
    refine ⟨s, .refl, by omega, fun fuel _ => ?_⟩
    have hdone : ¬s.emitOrder.length < n := by omega
    unfold ReadingOrder.sortLoop
    rw [if_neg hdone]
  | succ left ih =>
    have hlt : s.emitOrder.length < n := by omega
    obtain ⟨i, s₁, hstep, hsorted, horder, -⟩ := h.step hg hlt
    have hlength : s₁.emitOrder.length = s.emitOrder.length + 1 := by
      rw [horder, List.length_append, List.length_singleton]
    obtain ⟨s', hturns, hdone, hloop⟩ := ih hsorted (by omega)
    refine ⟨s', .head ⟨hlt, hstep⟩ hturns, hdone, fun fuel hfuel => ?_⟩
    cases fuel with
    | zero => omega
    | succ fuel =>
      unfold ReadingOrder.sortLoop
      rw [if_pos hlt, hstep]
      exact hloop fuel (by omega)

theorem sorted_sortStart (g : ImportGraph n) : Sorted g (sortStart g) := by
  constructor
  case emitted => exact fun i => by simp [sortStart]
  case nodup => exact List.nodup_nil
  case indeg => exact fun i _ => by simp [sortStart]
  case heap => exact fun i => by simp [sortStart]
  case heapNodup => exact (List.nodup_finRange n).filter _
  case flagged => exact fun i h => (nomatch h)
  case order =>
    intro a i b h
    simp [sortStart] at h

/-- All modules are listed, each once. -/
theorem Sorted.perm (h : Sorted g s) (hdone : n ≤ s.emitOrder.length) : s.emitOrder.Perm (List.finRange n) := by
  refine (List.perm_ext_iff_of_nodup h.nodup (List.nodup_finRange n)).mpr fun i => ?_
  refine iff_of_true ?_ (List.mem_finRange i)
  have hcard : s.emitOrder.toFinset = Finset.univ := by
    refine Finset.eq_univ_of_card _ (le_antisymm (Finset.card_le_univ _) ?_)
    rw [Fintype.card_fin, List.toFinset_card_of_nodup h.nodup]
    exact hdone
  exact List.mem_toFinset.mp (hcard ▸ Finset.mem_univ i)

/-- Where no module is free, all that are left import one that is left. -/
theorem Sorted.exists_prereq (h : Sorted g s) (hempty : s.heap = []) (hi : s.emitted i = false) :
    ∃ p ∈ g.prereqs i, s.emitted p = false := by
  have hpos : s.indeg i ≠ 0 := fun hzero => by
    have := (h.heap i).mpr ⟨hi, hzero⟩
    rw [hempty] at this
    cases this
  rw [h.indeg i hi, Finset.card_ne_zero] at hpos
  obtain ⟨p, hp⟩ := hpos
  exact ⟨p, Finset.mem_filter.mp hp⟩

/-- Where imports make no cycle, nothing is cut. -/
theorem Sorted.not_inCycle (h : Sorted g s) (hg : g.Ok) (hnone : ∀ i, s.inCycle i = false)
    (hacyclic : ∀ i, ¬TransGen (fun i p => p ∈ g.prereqs i) i i) (hturns : ReflTransGen (Turn g) s s') :
    ∀ i, s'.inCycle i = false := by
  induction hturns with
  | refl => exact hnone
  | @tail s₁ s₂ hturns hturn ih =>
    have hsorted := h.turns hg hturns
    obtain ⟨-, i, -, ⟨hcycle, -⟩ | ⟨hempty, hcut, -⟩⟩ := hsorted.turn_inv hg hturn
    · rw [hcycle]
      exact ih
    · -- a module left that comes first along imports imports nothing that is left
      have hwf : WellFounded (TransGen fun p i => p ∈ g.prereqs i) := by
        have : Std.Irrefl (TransGen fun p i => p ∈ g.prereqs i) := ⟨fun i hi => hacyclic i (transGen_swap.mp hi)⟩
        exact Finite.wellFounded_of_trans_of_irrefl _
      obtain ⟨m, hm, hleast⟩ := hwf.has_min {i | s₁.emitted i = false} ⟨i, (cut_spec hcut).1⟩
      obtain ⟨p, hp, hpleft⟩ := hsorted.exists_prereq hempty hm
      exact absurd (TransGen.single hp) (hleast p hpleft)

/-! ### The graph of the imports -/

section Index

variable {mods modules : List ModuleStats} {deps : List ModuleDep} {entryPoints : List EntryPoint}

theorem idx_eq_some_iff (hpaths : (mods.map ModuleStats.path).Nodup) {path : String} {i : Fin mods.length} :
    idx mods path = some i ↔ (mods.get i).path = path := by
  have honly : ∀ i j : Fin mods.length, (mods.get i).path = path → (mods.get j).path = path → i = j := by
    intro i j hi hj
    have hsame : mods.get i = mods.get j :=
      List.inj_on_of_nodup_map hpaths (List.get_mem mods i) (List.get_mem mods j) (hi.trans hj.symm)
    exact hpaths.of_map.get_inj_iff.mp hsame
  unfold idx
  rw [foldl_last_eq_some_iff honly]
  exact and_iff_right (List.mem_finRange i)

theorem mem_prereqs_addDep {g : ImportGraph mods.length} {d : ModuleDep} {i p : Fin mods.length} :
    p ∈ (addDep mods g d).prereqs i ↔
      p ∈ g.prereqs i ∨ i ≠ p ∧ idx mods d.fromPath = some i ∧ idx mods d.toPath = some p := by
  unfold addDep
  split
  case h_1 fi ti hfi hti =>
    rw [hfi, hti, Option.some_inj, Option.some_inj]
    split_ifs with hskip
    · refine (or_iff_left_of_imp ?_).symm
      rintro ⟨hne, rfl, rfl⟩
      exact hskip.resolve_left hne
    · push Not at hskip
      dsimp only
      by_cases hi : i = fi
      · subst hi
        rw [Function.update_self, Finset.mem_insert, or_comm]
        refine or_congr_right ⟨?_, fun h => h.2.2.symm⟩
        rintro rfl
        exact ⟨hskip.1, rfl, rfl⟩
      · rw [Function.update_of_ne hi]
        exact (or_iff_left fun h => hi h.2.1.symm).symm
  case h_2 hnone =>
    refine (or_iff_left ?_).symm
    rintro ⟨-, hi, hp⟩
    exact hnone _ _ hi hp

theorem addDep_ok {g : ImportGraph mods.length} (h : g.Ok) (d : ModuleDep) : (addDep mods g d).Ok := by
  unfold addDep
  split
  case h_1 fi ti _ _ =>
    split_ifs with hskip
    · exact h
    · push Not at hskip
      refine ⟨fun j => ?_, fun i j => ?_⟩
      · dsimp only
        by_cases hj : j = ti
        · subst hj
          rw [Function.update_self]
          have hnew : fi ∉ g.dependents j := fun hmem => hskip.2 ((h.mem fi j).mp hmem)
          exact List.nodup_append.mpr ⟨h.nodup j, List.nodup_singleton fi, fun a ha b hb => by
            rw [List.mem_singleton.mp hb]
            exact fun heq => hnew (heq ▸ ha)⟩
        · rw [Function.update_of_ne hj]
          exact h.nodup j
      · dsimp only
        have hold := h.mem i j
        by_cases hj : j = ti
        · by_cases hi : i = fi
          · simp [hi, hj]
          · subst hj
            simp [hi, hold]
        · by_cases hi : i = fi
          · subst hi
            simp [hj, hold]
          · simp [hi, hj, hold]
  case h_2 => exact h

theorem importGraph_ok (deps : List ModuleDep) : (importGraph mods deps).Ok := by
  induction deps using List.reverseRecOn with
  | nil => exact ⟨fun _ => List.nodup_nil, fun i j => by simp [importGraph]⟩
  | append_singleton deps d ih =>
    unfold importGraph at ih ⊢
    rw [List.foldl_concat]
    exact addDep_ok ih d

theorem mem_prereqs_importGraph {i p : Fin mods.length} : p ∈ (importGraph mods deps).prereqs i ↔
    i ≠ p ∧ ∃ d ∈ deps, idx mods d.fromPath = some i ∧ idx mods d.toPath = some p := by
  induction deps using List.reverseRecOn with
  | nil => simp [importGraph]
  | append_singleton deps d ih =>
    unfold importGraph at ih ⊢
    rw [List.foldl_concat, mem_prereqs_addDep, ih]
    simp only [List.mem_append, List.mem_singleton]
    constructor
    · rintro (⟨hne, d', hd', hidx⟩ | ⟨hne, hidx⟩)
      · exact ⟨hne, d', .inl hd', hidx⟩
      · exact ⟨hne, d, .inr rfl, hidx⟩
    · rintro ⟨hne, d', hd' | rfl, hidx⟩
      · exact .inl ⟨hne, d', hd', hidx⟩
      · exact .inr ⟨hne, hidx⟩

/-- The one module imports the other, both in scope. -/
def Imports (modules : List ModuleStats) (deps : List ModuleDep) (m p : String) : Prop :=
  m ≠ p ∧ m ∈ modules.map ModuleStats.path ∧ p ∈ modules.map ModuleStats.path ∧
    ∃ d ∈ deps, d.fromPath = m ∧ d.toPath = p

theorem sorted_perm (modules : List ModuleStats) : (sorted modules).Perm modules := sortByKey_perm _ modules

theorem nodup_sorted (hpaths : (modules.map ModuleStats.path).Nodup) :
    ((sorted modules).map ModuleStats.path).Nodup :=
  ((sorted_perm modules).map _).nodup_iff.mpr hpaths

theorem mem_map_path (i : Fin (sorted modules).length) : ((sorted modules).get i).path ∈ modules.map ModuleStats.path :=
  ((sorted_perm modules).map _).mem_iff.mp (List.mem_map_of_mem (List.get_mem _ i))

/-- The graph of the code is the import relation. -/
theorem mem_prereqs_iff (hpaths : (modules.map ModuleStats.path).Nodup) {i p : Fin (sorted modules).length} :
    p ∈ (importGraph (sorted modules) deps).prereqs i ↔
      Imports modules deps ((sorted modules).get i).path ((sorted modules).get p).path := by
  have hidx : ∀ path i, idx (sorted modules) path = some i ↔ ((sorted modules).get i).path = path :=
    fun _ _ => idx_eq_some_iff (nodup_sorted hpaths)
  have hne : i ≠ p ↔ ((sorted modules).get i).path ≠ ((sorted modules).get p).path := by
    refine not_congr ⟨fun h => h ▸ rfl, fun h => ?_⟩
    have hi := (hidx _ i).mpr rfl
    rw [h, (hidx _ p).mpr rfl] at hi
    exact (Option.some.inj hi).symm
  rw [mem_prereqs_importGraph, hne]
  simp only [hidx]
  refine and_congr_right fun _ => ?_
  rw [and_iff_right (mem_map_path i), and_iff_right (mem_map_path p)]
  simp only [eq_comm]

/-! ### The result -/

/-- The loop runs also over no modules, and lists nothing. -/
theorem computeReadingOrder_eq (fuel : ℕ) : computeReadingOrder fuel modules deps entryPoints =
    (sortLoop (importGraph (sorted modules) deps) fuel (sortStart (importGraph (sorted modules) deps))).map fun s =>
      s.emitOrder.map (entryOf (sorted modules) (importGraph (sorted modules) deps) entryPoints s) := by
  unfold computeReadingOrder
  split_ifs with hnil
  · subst hnil
    cases fuel <;> rfl
  · rfl

/-- The state the loop ends in, and the entries made of it. -/
theorem computeReadingOrder_spec (modules : List ModuleStats) (deps : List ModuleDep) (entryPoints : List EntryPoint) :
    ∃ s : SortState (sorted modules).length,
      ReflTransGen (Turn (importGraph (sorted modules) deps)) (sortStart (importGraph (sorted modules) deps)) s ∧
      (sorted modules).length ≤ s.emitOrder.length ∧
      ∀ fuel, modules.length ≤ fuel → computeReadingOrder fuel modules deps entryPoints =
        .ok (s.emitOrder.map (entryOf (sorted modules) (importGraph (sorted modules) deps) entryPoints s)) := by
  obtain ⟨s, hturns, hdone, hloop⟩ :=
    (sorted_sortStart (importGraph (sorted modules) deps)).sortLoop (importGraph_ok deps)
  refine ⟨s, hturns, hdone, fun fuel hfuel => ?_⟩
  have hlength : (sorted modules).length = modules.length := (sorted_perm modules).length_eq
  rw [computeReadingOrder_eq, hloop fuel (by omega)]
  rfl

/-- The paths that were listed. -/
theorem map_path_entryOf (g : ImportGraph mods.length) (s : SortState mods.length) (l : List (Fin mods.length)) :
    (l.map (entryOf mods g entryPoints s)).map ReadingOrderEntry.path = l.map fun i => (mods.get i).path := by
  rw [List.map_map]
  rfl

/-- The reading order: it is found, has every module once, has a module that is not flagged behind all it imports,
and flags none where imports make no cycle. -/
theorem readingOrder_respects_imports (modules : List ModuleStats) (deps : List ModuleDep)
    (entryPoints : List EntryPoint) (hpaths : (modules.map ModuleStats.path).Nodup) :
    ∃ entries, (∀ fuel, modules.length ≤ fuel → computeReadingOrder fuel modules deps entryPoints = .ok entries) ∧
      (entries.map ReadingOrderEntry.path).Perm (modules.map ModuleStats.path) ∧
      (∀ a e b, entries = a ++ e :: b → e.inCycle = false →
        ∀ p, Imports modules deps e.path p → p ∈ a.map ReadingOrderEntry.path) ∧
      ((∀ m, ¬TransGen (Imports modules deps) m m) → ∀ e ∈ entries, e.inCycle = false) := by
  obtain ⟨s, hturns, hdone, hcode⟩ := computeReadingOrder_spec modules deps entryPoints
  have hok : (importGraph (sorted modules) deps).Ok := importGraph_ok deps
  have hsorted := (sorted_sortStart _).turns hok hturns
  refine ⟨_, hcode, ?_, ?_, ?_⟩
  · -- every module once
    have hrange : (List.finRange (sorted modules).length).map (fun i => ((sorted modules).get i).path) =
        (sorted modules).map ModuleStats.path := by
      calc _ = ((List.finRange _).map (sorted modules).get).map ModuleStats.path := List.map_map.symm
        _ = _ := by rw [List.map_get_finRange]
    have hall := (hsorted.perm hdone).map fun i => ((sorted modules).get i).path
    rw [hrange] at hall
    rw [map_path_entryOf]
    exact hall.trans ((sorted_perm modules).map _)
  · -- behind its imports
    intro a e b hsplit he p hp
    obtain ⟨a', l, horder, rfl, hrest⟩ := List.map_eq_append_iff.mp hsplit
    obtain ⟨i, b', rfl, rfl, -⟩ := List.map_eq_cons_iff.mp hrest
    obtain ⟨m, hm, hpath⟩ := List.mem_map.mp ((sorted_perm modules).map _ |>.mem_iff.mpr hp.2.2.1)
    obtain ⟨j, rfl⟩ := List.get_of_mem hm
    subst hpath
    have hbefore := hsorted.order a' i b' horder he j ((mem_prereqs_iff hpaths).mpr hp)
    rw [map_path_entryOf]
    exact List.mem_map_of_mem hbefore
  · -- no cycle
    intro hacyclic e he
    obtain ⟨i, -, rfl⟩ := List.mem_map.mp he
    refine (sorted_sortStart _).not_inCycle hok (fun _ => rfl) (fun j hj => ?_) hturns i
    refine hacyclic ((sorted modules).get j).path ?_
    exact hj.lift (fun j => ((sorted modules).get j).path) fun _ _ h => (mem_prereqs_iff hpaths).mp h

theorem readingOrder_respects_imports_two :
    ∃ entries, (∀ fuel, 2 ≤ fuel →
        computeReadingOrder fuel [⟨"src", []⟩, ⟨"lib", []⟩] [⟨"src", "lib"⟩] [] = .ok entries) ∧
      (entries.map ReadingOrderEntry.path).Perm ["src", "lib"] := by
  obtain ⟨entries, hcode, hperm, -⟩ :=
    readingOrder_respects_imports [⟨"src", []⟩, ⟨"lib", []⟩] [⟨"src", "lib"⟩] [] (by decide)
  exact ⟨entries, hcode, hperm⟩

end Index

end CodeGraph.Graph.ReadingOrder
