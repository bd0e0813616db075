import CodeGraph.Graph.Correct.ReadingOrder
import CodeGraph.Lib.Follows
import Mathlib.Tactic.Tauto

/-!
# Where the reading order cuts

What is listed when no module is free is what follows from the last cut (`Cutting.stuck`), so the modules that are cut
at are just those of `AfterCut`. A module that is cut at stands before all of its imports that are left then. The order
respects the imports that lie on no cycle iff each of these leads back to it.
-/

namespace CodeGraph.Graph.ReadingOrder

open CodeGraph.Lib Relation

variable {n : ℕ} {g : ImportGraph n} {s s' : SortState n} {i j p c : Fin n} {B : Set (Fin n)}

def Needs (g : ImportGraph n) (i p : Fin n) : Prop := p ∈ g.prereqs i

def listed (s : SortState n) : Set (Fin n) := {i | i ∈ s.emitOrder}

theorem Sorted.notMem_listed (h : Sorted g s) : i ∉ listed s ↔ s.emitted i = false := by
  rw [Bool.eq_false_iff, Ne, h.emitted]
  rfl

theorem listed_concat (h : s'.emitOrder = s.emitOrder ++ [i]) : listed s' = insert i (listed s) := by
  ext j
  show j ∈ s'.emitOrder ↔ j = i ∨ j ∈ s.emitOrder
  rw [h, List.mem_append, List.mem_singleton]
  exact or_comm

/-- An indegree is the number of imports that are left. -/
theorem Sorted.needsLeft_eq (h : Sorted g s) (hi : i ∉ listed s) : needsLeft (Needs g) (listed s) i = s.indeg i := by
  have hset : {p | Needs g i p ∧ p ∉ listed s} = ↑({p ∈ g.prereqs i | s.emitted p = false} : Finset (Fin n)) := by
    ext p
    rw [Finset.mem_coe, Finset.mem_filter, ← h.notMem_listed]
    rfl
  rw [needsLeft, hset, Set.ncard_coe_finset, h.indeg i (h.notMem_listed.mp hi)]

/-- The code cuts where `IsCut` says. -/
theorem Sorted.isCut (h : Sorted g s) (hcut : cut s = some c) : IsCut (Needs g) (listed s) c := by
  obtain ⟨hc, hleast⟩ := cut_spec hcut
  have hc' := h.notMem_listed.mpr hc
  refine ⟨hc', fun i hi => ?_⟩
  rw [h.needsLeft_eq hc', h.needsLeft_eq hi]
  exact hleast i (h.notMem_listed.mp hi)

/-- Since the cut that `B` stands for the code has listed what follows from it, or a part. -/
structure Cutting (g : ImportGraph n) (s : SortState n) (B : Set (Fin n)) : Prop where
  after : AfterCut (Needs g) B
  base : B ⊆ listed s
  follows : listed s ⊆ follows (Needs g) B

theorem cutting_sortStart (g : ImportGraph n) : Cutting g (sortStart g) ∅ :=
  ⟨.start, Set.empty_subset _, fun _ h => (nomatch h)⟩

theorem Cutting.stuck (h : Cutting g s B) (hs : Sorted g s) (hempty : s.heap = []) :
    listed s = Lib.follows (Needs g) B := by
  refine eq_follows h.base h.follows fun i hi => ?_
  obtain ⟨p, hp, hpleft⟩ := hs.exists_prereq hempty (hs.notMem_listed.mp hi)
  exact ⟨p, hp, hs.notMem_listed.mpr hpleft⟩

/-- A module from the heap follows. -/
theorem Cutting.free (h : Cutting g s B) (hs : Sorted g s) (hi : i ∈ s.heap)
    (horder : s'.emitOrder = s.emitOrder ++ [i]) : Cutting g s' B := by
  have hlisted := listed_concat horder
  obtain ⟨hemitted, hzero⟩ := (hs.heap i).mp hi
  rw [hs.indeg i hemitted, Finset.card_eq_zero, Finset.filter_eq_empty_iff] at hzero
  have hfollows : Follows (Needs g) B i := .free fun p hp => h.follows ((hs.emitted p).mp (by simpa using hzero hp))
  refine ⟨h.after, ?_, ?_⟩
  · rw [hlisted]
    exact h.base.trans (Set.subset_insert i _)
  · rw [hlisted]
    exact Set.insert_subset hfollows h.follows

theorem Cutting.cut (h : Cutting g s B) (hs : Sorted g s) (hempty : s.heap = []) (hcut : cut s = some i)
    (horder : s'.emitOrder = s.emitOrder ++ [i]) : Cutting g s' (insert i (Lib.follows (Needs g) B)) := by
  have hlisted := listed_concat horder
  have hstuck := h.stuck hs hempty
  have hiscut := hs.isCut hcut
  rw [hstuck] at hiscut hlisted
  refine ⟨.cut h.after hiscut, ?_, ?_⟩
  · rw [hlisted]
  · rw [hlisted]
    exact subset_follows

/-- A flagged module was cut at, and what follows from the cut before is what stands before it. -/
def FlaggedAt (g : ImportGraph n) (s : SortState n) : Prop :=
  ∀ i, s.inCycle i = true → ∃ B a b, AfterCut (Needs g) B ∧ IsCut (Needs g) (follows (Needs g) B) i ∧
    s.emitOrder = a ++ i :: b ∧ ∀ j, j ∈ a ↔ j ∈ follows (Needs g) B

/-- A turn keeps all this. -/
theorem Cutting.turn (h : Cutting g s B) (hs : Sorted g s) (hg : g.Ok) (hflagged : FlaggedAt g s)
    (hturn : Turn g s s') : (∃ B', Cutting g s' B') ∧ FlaggedAt g s' := by
  obtain ⟨-, i, horder, ⟨hcycle, hi⟩ | ⟨hempty, hcut, hcycle⟩⟩ := hs.turn_inv hg hturn
  · refine ⟨⟨B, h.free hs hi horder⟩, fun j hj => ?_⟩
    rw [hcycle] at hj
    obtain ⟨B', a, b, hafter, hiscut, hsplit, hbefore⟩ := hflagged j hj
    exact ⟨B', a, b ++ [i], hafter, hiscut, by rw [horder, hsplit]; simp, hbefore⟩
  · refine ⟨⟨_, h.cut hs hempty hcut horder⟩, fun j hj => ?_⟩
    by_cases hji : j = i
    · -- the cut itself
      subst hji
      have hstuck := h.stuck hs hempty
      have hiscut := hs.isCut hcut
      rw [hstuck] at hiscut
      exact ⟨B, s.emitOrder, [], h.after, hiscut, horder, fun k => by rw [← hstuck]; rfl⟩
    · rw [hcycle, Function.update_of_ne hji] at hj
      obtain ⟨B', a, b, hafter, hiscut, hsplit, hbefore⟩ := hflagged j hj
      exact ⟨B', a, b ++ [i], hafter, hiscut, by rw [horder, hsplit]; simp, hbefore⟩

theorem Sorted.flaggedAt (hg : g.Ok) (hturns : ReflTransGen (Turn g) (sortStart g) s) : FlaggedAt g s := by
  have hrun : (∃ B, Cutting g s B) ∧ FlaggedAt g s := by
    induction hturns with
    | refl => exact ⟨⟨∅, cutting_sortStart g⟩, fun i h => (nomatch h)⟩
    | tail hturns hturn ih =>
      obtain ⟨⟨B, hcutting⟩, hflagged⟩ := ih
      exact hcutting.turn ((sorted_sortStart g).turns hg hturns) hg hflagged hturn
  exact hrun.2

/-! ### Every cut is met -/

theorem Sorted.exists_left (h : Sorted g s) (hi : i ∉ listed s) : s.emitOrder.length < n := by
  have hcard : s.emitOrder.toFinset.card < Fintype.card (Fin n) := by
    refine Finset.card_lt_univ_of_notMem (x := i) ?_
    rwa [List.mem_toFinset]
  rwa [Fintype.card_fin, List.toFinset_card_of_nodup h.nodup] at hcard

/-- The loop empties the heap. -/
theorem Cutting.drain (h : Cutting g s B) (hs : Sorted g s) (hg : g.Ok) :
    ∃ s', ReflTransGen (Turn g) s s' ∧ Sorted g s' ∧ s'.heap = [] ∧ listed s' = Lib.follows (Needs g) B := by
  induction hleft : n - s.emitOrder.length generalizing s with
  | zero =>
    have hempty : s.heap = [] := by
      refine List.eq_nil_iff_forall_not_mem.mpr fun i hi => ?_
      have := hs.exists_left (hs.notMem_listed.mpr ((hs.heap i).mp hi).1)
      omega
    exact ⟨s, .refl, hs, hempty, h.stuck hs hempty⟩
  | succ left ih =>
    by_cases hempty : s.heap = []
    · exact ⟨s, .refl, hs, hempty, h.stuck hs hempty⟩
    · obtain ⟨i, s₁, hstep, hs₁, horder, ⟨-, hi⟩ | ⟨hnil, -⟩⟩ := hs.step hg (by omega)
      · have hlength : s₁.emitOrder.length = s.emitOrder.length + 1 := by
          rw [horder, List.length_append, List.length_singleton]
        obtain ⟨s', hturns, hrest⟩ := ih (h.free hs hi horder) hs₁ (by omega)
        exact ⟨s', .head ⟨by omega, hstep⟩ hturns, hrest⟩
      · exact absurd hnil hempty

/-- From a state that stands at a cut, the next turn takes it. -/
theorem Sorted.take_cut (hs : Sorted g s) (hg : g.Ok) (hempty : s.heap = []) (hcut : IsCut (Needs g) (listed s) c) :
    ∃ s', Turn g s s' ∧ Sorted g s' ∧ ReadingOrder.cut s = some c ∧ s'.emitOrder = s.emitOrder ++ [c] := by
  have hlt := hs.exists_left hcut.1
  obtain ⟨i, s', hstep, hs', horder, ⟨-, hi⟩ | ⟨-, hcut', -⟩⟩ := hs.step hg hlt
  · rw [hempty] at hi
    cases hi
  · obtain rfl := (hs.isCut hcut').unique hcut
    exact ⟨s', ⟨hlt, hstep⟩, hs', hcut', horder⟩

/-- The loop comes to every cut. -/
theorem reached_of_afterCut (h : AfterCut (Needs g) B) (hg : g.Ok) : ∃ s, ReflTransGen (Turn g) (sortStart g) s ∧
    Sorted g s ∧ s.heap = [] ∧ listed s = follows (Needs g) B := by
  induction h with
  | start => exact (cutting_sortStart g).drain (sorted_sortStart g) hg
  | @cut E d hafter hcut ih =>
    obtain ⟨s, hturns, hs, hempty, hlisted⟩ := ih
    rw [← hlisted] at hcut
    obtain ⟨s₁, hturn, hs₁, hcode, horder⟩ := hs.take_cut hg hempty hcut
    have hcutting : Cutting g s E := ⟨hafter, hlisted ▸ subset_follows, hlisted.subset⟩
    obtain ⟨s', hturns', hrest⟩ := (hcutting.cut hs hempty hcode horder).drain hs₁ hg
    exact ⟨s', (hturns.tail hturn).trans hturns', hrest⟩

/-- What is listed stays listed, in its order. -/
theorem Sorted.isPrefix (hs : Sorted g s) (hg : g.Ok) (hturns : ReflTransGen (Turn g) s s') :
    s.emitOrder <+: s'.emitOrder := by
  induction hturns with
  | refl => exact List.prefix_rfl
  | tail hturns hturn ih =>
    obtain ⟨-, i, horder, -⟩ := (hs.turns hg hturns).turn_inv hg hturn
    rw [horder]
    exact ih.trans (List.prefix_append _ _)

/-- The order at the end goes through every state of the loop. -/
theorem Sorted.isPrefix_end (hg : g.Ok) (hturns : ReflTransGen (Turn g) (sortStart g) s)
    (hend : ReflTransGen (Turn g) (sortStart g) s') (hdone : n ≤ s'.emitOrder.length) :
    s.emitOrder <+: s'.emitOrder := by
  have hs := (sorted_sortStart g).turns hg hturns
  have hs' := (sorted_sortStart g).turns hg hend
  have hunique : Relator.RightUnique (Turn g) := fun _ _ _ h h' => Option.some.inj (h.2.symm.trans h'.2)
  rcases hturns.total_of_right_unique hunique hend with hrest | hback
  · exact hs.isPrefix hg hrest
  · have hle : s.emitOrder.length ≤ n := by
      have := hs.nodup.length_le_card
      rwa [Fintype.card_fin] at this
    have heq := (hs'.isPrefix hg hback).eq_of_length_le (by omega)
    rw [heq]

/-! ### What the cuts do to the order -/

/-- A flagged module needs itself, where cuts stay in cycles. -/
theorem FlaggedAt.on_cycle (h : FlaggedAt g s) (hcuts : CutsInCycles (Needs g)) (hi : s.inCycle i = true) :
    TransGen (Needs g) i i := by
  obtain ⟨B, _, _, hafter, hcut, -⟩ := h i hi
  obtain ⟨p, hp, hpleft⟩ : ∃ p, Needs g i p ∧ p ∉ follows (Needs g) B := by
    by_contra! hfollows
    exact hcut.1 (.free hfollows)
  exact .head' hp (hcuts B i hafter hcut p hp hpleft)

/-- The order respects the imports on no cycle iff cuts stay in cycles. -/
theorem cutsInCycles_iff (hg : g.Ok) (hturns : ReflTransGen (Turn g) (sortStart g) s) (hdone : n ≤ s.emitOrder.length) :
    CutsInCycles (Needs g) ↔
      ∀ a i b, s.emitOrder = a ++ i :: b → ∀ p, Needs g i p → ¬ReflTransGen (Needs g) p i → p ∈ a := by
  have hs := (sorted_sortStart g).turns hg hturns
  constructor
  · intro hcuts a i b hsplit p hp hoff
    cases hflag : s.inCycle i with
    | false => exact hs.order a i b hsplit hflag p hp
    | true =>
      obtain ⟨B, a', b', hafter, hcut, hsplit', hbefore⟩ := Sorted.flaggedAt hg hturns i hflag
      have heq : a = a' := by
        have hnodup := hs.nodup
        rw [hsplit] at hnodup hsplit'
        have hnew := (List.nodup_middle.mp hnodup).notMem
        rw [List.mem_append, not_or] at hnew
        exact ((List.append_cons_inj_of_notMem hnew.1 hnew.2).mp hsplit').1
      rw [heq, hbefore]
      by_contra hleft
      exact hoff (hcuts B i hafter hcut p hp hleft)
  · intro horder B c hafter hcut p hp hleft
    obtain ⟨s₁, hturns₁, hs₁, hempty, hlisted⟩ := reached_of_afterCut hafter hg
    rw [← hlisted] at hcut hleft
    obtain ⟨s₂, hturn, -, -, horder₂⟩ := hs₁.take_cut hg hempty hcut
    obtain ⟨b, hsplit⟩ := Sorted.isPrefix_end hg (hturns₁.tail hturn) hturns hdone
    rw [horder₂, List.append_assoc, List.singleton_append] at hsplit
    by_contra hoff
    exact hleft (horder s₁.emitOrder c b hsplit.symm p hp hoff)

section Index

variable {modules : List ModuleStats} {deps : List ModuleDep} {entryPoints : List EntryPoint}
  {entries : List ReadingOrderEntry}

/-- An import that does not lead back comes first, and a flagged module is on a cycle. -/
def CutsInside (modules : List ModuleStats) (deps : List ModuleDep) (entries : List ReadingOrderEntry) : Prop :=
  (∀ a e b, entries = a ++ e :: b → ∀ p, Imports modules deps e.path p →
      ¬ReflTransGen (Imports modules deps) p e.path → p ∈ a.map ReadingOrderEntry.path) ∧
    ∀ e ∈ entries, e.inCycle = true → TransGen (Imports modules deps) e.path e.path

/-- The import relation on the positions of the modules in the order of paths. -/
def ImportsAt (modules : List ModuleStats) (deps : List ModuleDep) (i p : Fin (sorted modules).length) : Prop :=
  Imports modules deps ((sorted modules).get i).path ((sorted modules).get p).path

theorem needs_importGraph (hpaths : (modules.map ModuleStats.path).Nodup) :
    Needs (importGraph (sorted modules) deps) = ImportsAt modules deps := by
  funext i p
  exact propext (mem_prereqs_iff hpaths)

theorem exists_position {p : String} (hp : p ∈ modules.map ModuleStats.path) :
    ∃ i : Fin (sorted modules).length, ((sorted modules).get i).path = p := by
  obtain ⟨m, hm, rfl⟩ := List.mem_map.mp (((sorted_perm modules).map _).mem_iff.mpr hp)
  obtain ⟨i, rfl⟩ := List.get_of_mem hm
  exact ⟨i, rfl⟩

theorem position_inj (hpaths : (modules.map ModuleStats.path).Nodup) {i j : Fin (sorted modules).length}
    (h : ((sorted modules).get i).path = ((sorted modules).get j).path) : i = j := by
  have hi := (idx_eq_some_iff (nodup_sorted hpaths)).mpr h
  rw [(idx_eq_some_iff (nodup_sorted hpaths)).mpr rfl] at hi
  exact (Option.some.inj hi).symm

/-- Imports lead from module to module. -/
theorem reaches_iff (hpaths : (modules.map ModuleStats.path).Nodup) {i j : Fin (sorted modules).length} :
    ReflTransGen (Imports modules deps) ((sorted modules).get i).path ((sorted modules).get j).path ↔
      ReflTransGen (ImportsAt modules deps) i j := by
  refine ⟨fun h => ?_, fun h => h.lift (fun i => ((sorted modules).get i).path) fun _ _ hstep => hstep⟩
  have hpositions : ∀ m, ReflTransGen (Imports modules deps) ((sorted modules).get i).path m →
      ∃ k : Fin (sorted modules).length, ((sorted modules).get k).path = m ∧
        ReflTransGen (ImportsAt modules deps) i k := by
    intro m hm
    induction hm with
    | refl => exact ⟨i, rfl, .refl⟩
    | tail _ hstep ih =>
      obtain ⟨k, rfl, hk⟩ := ih
      obtain ⟨l, rfl⟩ := exists_position hstep.2.2.1
      exact ⟨l, rfl, hk.tail hstep⟩
  obtain ⟨k, hpath, hk⟩ := hpositions _ h
  rwa [position_inj hpaths hpath] at hk

/-- Cuts stay inside the cycles iff every module that is cut at can be reached from each of its imports that is left. -/
theorem readingOrder_cuts_iff (modules : List ModuleStats) (deps : List ModuleDep) (entryPoints : List EntryPoint)
    (hpaths : (modules.map ModuleStats.path).Nodup) :
    ∃ entries, (∀ fuel, modules.length ≤ fuel → computeReadingOrder fuel modules deps entryPoints = .ok entries) ∧
      (CutsInside modules deps entries ↔ CutsInCycles (ImportsAt modules deps)) := by
  obtain ⟨s, hturns, hdone, hcode⟩ := computeReadingOrder_spec modules deps entryPoints
  have hok : (importGraph (sorted modules) deps).Ok := importGraph_ok deps
  refine ⟨_, hcode, ?_⟩
  have hiff := cutsInCycles_iff hok hturns hdone
  have hflagged := Sorted.flaggedAt hok hturns
  have hneeds : Needs (importGraph (sorted modules) deps) = ImportsAt modules deps := needs_importGraph hpaths
  constructor
  · rintro ⟨hbefore, -⟩
    -- a file that stands behind one that needs it is cut there
    rw [← hneeds, hiff]
    intro a i b hsplit p hp hoff
    rw [hneeds] at hp hoff
    have hmem := hbefore (a.map (entryOf _ _ entryPoints s)) (entryOf _ _ entryPoints s i)
      (b.map (entryOf _ _ entryPoints s)) (by rw [hsplit, List.map_append, List.map_cons]) _ hp
        fun hback => hoff ((reaches_iff hpaths).mp hback)
    rw [map_path_entryOf] at hmem
    obtain ⟨j, hj, hpath⟩ := List.mem_map.mp hmem
    rwa [← position_inj hpaths hpath]
  · intro hcuts
    rw [← hneeds] at hcuts
    refine ⟨?_, ?_⟩
    · intro a e b hsplit p hp hoff
      obtain ⟨a', l, horder, rfl, hrest⟩ := List.map_eq_append_iff.mp hsplit
      obtain ⟨i, b', rfl, rfl, -⟩ := List.map_eq_cons_iff.mp hrest
      obtain ⟨j, rfl⟩ := exists_position hp.2.2.1
      have hmem := hiff.mp hcuts a' i b' horder j (by rw [hneeds]; exact hp) fun hback => by
        rw [hneeds] at hback
        exact hoff ((reaches_iff hpaths).mpr hback)
      rw [map_path_entryOf]
      exact List.mem_map_of_mem hmem
    · intro e he hcycle
      obtain ⟨i, -, rfl⟩ := List.mem_map.mp he
      -- an entry that is flagged is on a cycle of the graph
      have hloop := hflagged.on_cycle hcuts hcycle
      rw [hneeds] at hloop
      exact hloop.lift (fun i => ((sorted modules).get i).path) fun _ _ hstep => hstep

/-- `b` and `c` import each other, and `a` imports both: the cut is `b`. -/
theorem readingOrder_cuts_iff_cycle :
    let modules := [⟨"a", []⟩, ⟨"b", []⟩, ⟨"c", []⟩]
    let deps := [⟨"a", "b"⟩, ⟨"a", "c"⟩, ⟨"b", "c"⟩, ⟨"c", "b"⟩]
    ∃ entries, (∀ fuel, 3 ≤ fuel → computeReadingOrder fuel modules deps [] = .ok entries) ∧
      (CutsInside modules deps entries ↔ CutsInCycles (ImportsAt modules deps)) :=
  readingOrder_cuts_iff [⟨"a", []⟩, ⟨"b", []⟩, ⟨"c", []⟩] [⟨"a", "b"⟩, ⟨"a", "c"⟩, ⟨"b", "c"⟩, ⟨"c", "b"⟩] [] (by decide)

/-- Of `a`, which imports `b`, and of `b` and `c`, which import each other, each has one import left: the cut is `a`. -/
theorem readingOrder_cuts_outside : ¬∀ modules deps entryPoints, (modules.map ModuleStats.path).Nodup →
    ∃ entries, (∀ fuel, modules.length ≤ fuel → computeReadingOrder fuel modules deps entryPoints = .ok entries) ∧
      CutsInside modules deps entries := by
  intro hall
  obtain ⟨entries, hcode, -, hcycle⟩ :=
    hall [⟨"a", []⟩, ⟨"b", []⟩, ⟨"c", []⟩] [⟨"a", "b"⟩, ⟨"b", "c"⟩, ⟨"c", "b"⟩] [] (by decide)
  have hrun : computeReadingOrder 3 [⟨"a", []⟩, ⟨"b", []⟩, ⟨"c", []⟩] [⟨"a", "b"⟩, ⟨"b", "c"⟩, ⟨"c", "b"⟩] [] =
      .ok [⟨"a", .mid, 0, ["b"], [], true⟩, ⟨"b", .mid, 2, ["c"], [], true⟩, ⟨"c", .mid, 1, ["b"], [], false⟩] := by
    decide +kernel
  rw [hcode 3 (by decide)] at hrun
  obtain rfl := Except.ok.inj hrun
  have hloop := hcycle _ List.mem_cons_self rfl
  -- nothing imports `a`
  obtain ⟨m, -, -, -, -, d, hd, -, hto⟩ := TransGen.tail'_iff.mp hloop
  simp only [List.mem_cons, List.not_mem_nil, or_false] at hd
  rcases hd with rfl | rfl | rfl <;> revert hto <;> decide

end Index

end CodeGraph.Graph.ReadingOrder
