import CodeGraph.Graph.Correct.Tarjan
import Mathlib.Data.List.GetD

/-!
# Circular imports are the components of the import graph

`shortestCycle_ok` says that the search for a representative cycle ends, `reach_iff` that the graph over
positions is the import graph over names; with `tarjanScc_spec` they give `find_cycles_exact`.
-/

namespace CodeGraph.Graph.Cycles

open CodeGraph.Lib Relation

/-! ### The representative cycle -/

section Cycle

variable {adj : List (List ℕ)} {inScc : List ℕ} {start : ℕ}

/-- Every node of the search but the start has a parent one step nearer. -/
structure Searched (start : ℕ) (s : CycleSearch) : Prop where
  start_mem : start ∈ s.dist
  queue : ∀ u ∈ s.queue, u ∈ s.dist
  parent : ∀ w d, s.dist.lookup w = some d → w ≠ start →
    ∃ u du, s.parent.lookup w = some u ∧ s.dist.lookup u = some du ∧ d = du + 1

/-- Nodes to take from the queue, now or later. -/
def toVisit (inScc : List ℕ) (s : CycleSearch) : ℕ :=
  s.queue.length + (inScc.toFinset.filter fun w => w ∉ s.dist).card

theorem discover_searched {s : CycleSearch} {u du w : ℕ} (h : Searched start s)
    (hu : s.dist.lookup u = some du) :
    let s' := discover inScc start u du s w
    Searched start s' ∧ s'.dist.lookup u = some du ∧ toVisit inScc s' = toVisit inScc s := by
  intro s'
  by_cases hskip : w = start ∨ w ∉ inScc ∨ w ∈ s.dist
  · have hs' : s' = s := if_pos hskip
    rw [hs']
    exact ⟨h, hu, rfl⟩
  · have hs' : s' = ⟨s.dist.insert w (du + 1), s.parent.insert w u, s.queue ++ [w]⟩ := if_neg hskip
    rw [hs']
    push Not at hskip
    obtain ⟨-, hscc, hnew⟩ := hskip
    -- `w` is new, so every entry that was read before reads the same
    have hne : ∀ x d, s.dist.lookup x = some d → x ≠ w := by
      rintro x d hx rfl
      exact hnew (AList.lookup_isSome.mp (Option.isSome_of_mem hx))
    refine ⟨⟨?_, ?_, ?_⟩, ?_, ?_⟩
    · exact (AList.mem_insert _).mpr (.inr h.start_mem)
    · intro x hx
      rcases List.mem_append.mp hx with hx | hx
      · exact (AList.mem_insert _).mpr (.inr (h.queue x hx))
      · exact (AList.mem_insert _).mpr (.inl (List.mem_singleton.mp hx))
    · intro x d hx hxs
      have hu' : (s.dist.insert w (du + 1)).lookup u = some du := by
        rw [AList.lookup_insert_ne (hne u du hu)]
        exact hu
      by_cases hxw : x = w
      · subst hxw
        rw [AList.lookup_insert, Option.some.injEq] at hx
        exact ⟨u, du, AList.lookup_insert _, hu', hx.symm⟩
      · rw [AList.lookup_insert_ne hxw] at hx
        obtain ⟨p, dp, hp, hdp, heq⟩ := h.parent x d hx hxs
        refine ⟨p, dp, ?_, ?_, heq⟩
        · rw [AList.lookup_insert_ne hxw]
          exact hp
        · rw [AList.lookup_insert_ne (hne p dp hdp)]
          exact hdp
    · rw [AList.lookup_insert_ne (hne u du hu)]
      exact hu
    · -- one node fewer is to be visited, and one more is queued
      have hfilter : (inScc.toFinset.filter fun x => x ∉ s.dist.insert w (du + 1)) =
          (inScc.toFinset.filter fun x => x ∉ s.dist).erase w := by
        ext x
        simp only [Finset.mem_filter, Finset.mem_erase, AList.mem_insert]
        tauto
      have hmem : w ∈ inScc.toFinset.filter fun x => x ∉ s.dist :=
        Finset.mem_filter.mpr ⟨List.mem_toFinset.mpr hscc, hnew⟩
      have hpos := Finset.card_pos.mpr ⟨w, hmem⟩
      simp only [toVisit, hfilter, Finset.card_erase_of_mem hmem, List.length_append,
        List.length_singleton]
      omega

theorem foldl_discover_searched (inScc : List ℕ) {u du : ℕ} (ws : List ℕ) {s : CycleSearch}
    (h : Searched start s) (hu : s.dist.lookup u = some du) :
    let s' := ws.foldl (discover inScc start u du) s
    Searched start s' ∧ toVisit inScc s' = toVisit inScc s := by
  induction ws generalizing s with
  | nil => exact ⟨h, rfl⟩
  | cons w ws ih =>
    obtain ⟨h', hu', hvisit⟩ := discover_searched (w := w) h hu
    obtain ⟨h'', hvisit'⟩ := ih h' hu'
    exact ⟨h'', hvisit'.trans hvisit⟩

/-- The search ends. -/
theorem cycleLoop_ok (adj : List (List ℕ)) (fuel : ℕ) {s : CycleSearch} (h : Searched start s)
    (hfuel : toVisit inScc s ≤ fuel) :
    ∃ s', cycleLoop adj inScc start fuel s = .ok s' ∧ Searched start s' := by
  induction fuel generalizing s with
  | zero =>
    have hnil : s.queue = [] := by
      unfold toVisit at hfuel
      exact List.eq_nil_of_length_eq_zero (by omega)
    exact ⟨s, by simp [cycleLoop, hnil], h⟩
  | succ fuel ih =>
    cases hqueue : s.queue with
    | nil => exact ⟨s, by simp [cycleLoop, hqueue], h⟩
    | cons u queue =>
      have humem : u ∈ s.dist := h.queue u (by simp [hqueue])
      obtain ⟨du, hu⟩ := Option.isSome_iff_exists.mp (AList.lookup_isSome.mpr humem)
      have hpop : Searched start { s with queue := queue } :=
        { h with queue := fun x hx => h.queue x (by simp [hqueue, hx]) }
      obtain ⟨h', hvisit⟩ := foldl_discover_searched inScc (succs adj u) hpop hu
      have hless : toVisit inScc { s with queue := queue } + 1 = toVisit inScc s := by
        simp only [toVisit, hqueue, List.length_cons]
        omega
      obtain ⟨s', hs', hsearched⟩ := ih h' (by omega)
      refine ⟨s', ?_, hsearched⟩
      rw [cycleLoop, hqueue]
      simp only [hu]
      exact hs'

/-- The parents of a node lead to the start. -/
theorem parentPath_ok {s : CycleSearch} (h : Searched start s) (d : ℕ) {u : ℕ}
    (hu : s.dist.lookup u = some d) (path : List ℕ) : ∃ path', parentPath start s.parent d u path = .ok path' := by
  induction d generalizing u path with
  | zero =>
    by_cases hus : u = start
    · exact ⟨path, by simp [parentPath, hus]⟩
    · obtain ⟨p, dp, -, -, heq⟩ := h.parent u 0 hu hus
      omega
  | succ d ih =>
    by_cases hus : u = start
    · exact ⟨path, by simp [parentPath, hus]⟩
    · obtain ⟨p, dp, hp, hdp, heq⟩ := h.parent u (d + 1) hu hus
      obtain rfl : d = dp := by omega
      obtain ⟨path', hpath'⟩ := ih hdp (p :: path)
      refine ⟨path', ?_⟩
      rw [parentPath]
      simp only [hus, if_false, hp]
      exact hpath'

/-- The node to close the cycle with is one of the search, with its distance. -/
theorem bestBack_mem {dist : AList fun _ : ℕ => ℕ} {d u : ℕ} (h : bestBack adj start dist = some (d, u)) :
    dist.lookup u = some d := by
  have hbest : ∀ b ∈ bestBack adj start dist, (⟨b.2, b.1⟩ : Sigma fun _ : ℕ => ℕ) ∈ dist.entries := by
    refine List.foldlRecOn
      (motive := fun best : Option (ℕ × ℕ) =>
        ∀ b ∈ best, (⟨b.2, b.1⟩ : Sigma fun _ : ℕ => ℕ) ∈ dist.entries) _ _
      (by simp) fun best hbest entry hentry b hb => ?_
    unfold nearer at hb
    split_ifs at hb with hback
    · cases best with
      | none =>
        obtain rfl : (entry.2, entry.1) = b := Option.some.inj hb
        exact hentry
      | some b' =>
        simp only at hb
        split_ifs at hb
        · exact hbest b hb
        · obtain rfl : (entry.2, entry.1) = b := Option.some.inj hb
          exact hentry
    · exact hbest b hb
  exact AList.mem_lookup_iff.mpr (hbest (d, u) h)

/-- **The search for a representative cycle** has no fault, for any component and start. -/
theorem shortestCycle_ok (adj : List (List ℕ)) (inScc : List ℕ) (start : ℕ) :
    ∃ path, shortestCycle adj inScc start = .ok path := by
  have hstart : Searched start ⟨(∅ : AList fun _ : ℕ => ℕ).insert start 0, ∅, [start]⟩ := by
    refine ⟨(AList.mem_insert _).mpr (.inl rfl), ?_, ?_⟩
    · intro u hu
      exact (AList.mem_insert _).mpr (.inl (List.mem_singleton.mp hu))
    · intro w d hw hws
      rw [AList.lookup_insert_ne hws, AList.lookup_empty] at hw
      cases hw
  have hfuel : toVisit inScc ⟨(∅ : AList fun _ : ℕ => ℕ).insert start 0, ∅, [start]⟩ ≤
      inScc.length + 1 := by
    have hcard := (Finset.card_filter_le inScc.toFinset
      fun w => w ∉ (∅ : AList fun _ : ℕ => ℕ).insert start 0).trans (List.toFinset_card_le inScc)
    simp only [toVisit, List.length_singleton]
    omega
  obtain ⟨s, hs, hsearched⟩ := cycleLoop_ok adj (inScc.length + 1) hstart hfuel
  unfold shortestCycle
  rw [hs]
  cases hbest : bestBack adj start s.dist with
  | none => exact ⟨[], by simp [Bind.bind, Except.bind, hbest]; rfl⟩
  | some b =>
    obtain ⟨d, u⟩ := b
    obtain ⟨path, hpath⟩ := parentPath_ok hsearched d (bestBack_mem hbest) [u]
    exact ⟨path ++ [start], by simp [Bind.bind, Except.bind, hbest, hpath]; rfl⟩

end Cycle

/-! ### Names and positions -/

section Names

variable {edges : List (String × String)}

/-- The import graph: an edge that is neither a self-edge nor between two Rust files. -/
def Imports (edges : List (String × String)) (a b : String) : Prop :=
  (a, b) ∈ edges ∧ a ≠ b ∧ ¬ (".rs".toList <:+ a.toList ∧ ".rs".toList <:+ b.toList)

theorem mem_filter_kept (a b : String) : (a, b) ∈ edges.filter kept ↔ Imports edges a b := by
  rw [List.mem_filter]
  simp only [kept, isRustIntraCrateEdge, Imports, bne_iff_ne, Bool.and_eq_true, Bool.not_eq_true',
    Bool.and_eq_false_iff, decide_eq_false_iff_not, ne_eq]
  tauto

theorem mem_fileNames (a : String) :
    a ∈ fileNames edges ↔ ∃ b, Imports edges a b ∨ Imports edges b a := by
  simp only [fileNames, mem_inOrder, List.mem_toFinset, List.mem_flatMap, List.mem_cons,
    List.not_mem_nil, or_false]
  constructor
  · rintro ⟨⟨x, y⟩, hmem, rfl | rfl⟩
    · exact ⟨y, .inl ((mem_filter_kept _ _).mp hmem)⟩
    · exact ⟨x, .inr ((mem_filter_kept _ _).mp hmem)⟩
  · rintro ⟨b, h | h⟩
    · exact ⟨(a, b), (mem_filter_kept _ _).mpr h, .inl rfl⟩
    · exact ⟨(b, a), (mem_filter_kept _ _).mpr h, .inr rfl⟩

theorem fileNames_sorted : (fileNames edges).Pairwise (· < ·) := inOrder_strict _

theorem fileNames_nodup : (fileNames edges).Nodup :=
  fileNames_sorted.imp fun {_ _} hab => ne_of_lt hab

/-- The name at a position. -/
def nameAt (edges : List (String × String)) (i : ℕ) : String := (fileNames edges).getD i ""

theorem nameAt_idxOf {a : String} (ha : a ∈ fileNames edges) :
    nameAt edges ((fileNames edges).idxOf a) = a := by
  rw [nameAt, List.getD_eq_getElem _ _ (List.idxOf_lt_length_iff.mpr ha)]
  exact List.getElem_idxOf _

theorem idxOf_nameAt {i : ℕ} (hi : i < (fileNames edges).length) :
    (fileNames edges).idxOf (nameAt edges i) = i := by
  rw [nameAt, List.getD_eq_getElem _ _ hi]
  exact fileNames_nodup.idxOf_getElem i hi

theorem nameAt_mem {i : ℕ} (hi : i < (fileNames edges).length) : nameAt edges i ∈ fileNames edges := by
  rw [nameAt, List.getD_eq_getElem _ _ hi]
  exact List.getElem_mem hi

theorem nameAt_lt {i j : ℕ} (hij : i < j) (hj : j < (fileNames edges).length) :
    nameAt edges i < nameAt edges j := by
  rw [nameAt, nameAt, List.getD_eq_getElem _ _ (hij.trans hj), List.getD_eq_getElem _ _ hj]
  exact List.pairwise_iff_getElem.mp fileNames_sorted i j (hij.trans hj) hj hij

theorem mem_dedupAdjacent {l : List ℕ} {x : ℕ} : x ∈ dedupAdjacent l ↔ x ∈ l := by
  fun_induction dedupAdjacent l with
  | case1 a l ih =>
    rw [ih]
    simp
  | case2 a b l hab ih =>
    rw [List.mem_cons, ih]
    simp
  | case3 l => rfl

theorem adjacency_length : (adjacency edges).length = (fileNames edges).length := by
  simp [adjacency]

theorem edge_adjacency (i j : ℕ) :
    Edge (adjacency edges) i j ↔ i < (fileNames edges).length ∧ ∃ a b, Imports edges a b ∧
      (fileNames edges).idxOf a = i ∧ (fileNames edges).idxOf b = j := by
  unfold Edge succs
  by_cases hi : i < (fileNames edges).length
  · rw [List.getD_eq_getElem _ _ (by rwa [adjacency_length])]
    simp only [adjacency, List.getElem_map, List.getElem_range, mem_dedupAdjacent, mem_sortByKey,
      List.mem_map, List.mem_filter, hi, true_and]
    constructor
    · rintro ⟨⟨a, b⟩, ⟨hmem, hia⟩, hjb⟩
      exact ⟨a, b, (mem_filter_kept a b).mp (List.mem_filter.mpr hmem), by simpa using hia, hjb⟩
    · rintro ⟨a, b, himp, hia, hjb⟩
      exact ⟨(a, b), ⟨List.mem_filter.mp ((mem_filter_kept a b).mpr himp), by simpa using hia⟩, hjb⟩
  · rw [List.getD_eq_default _ _ (by rw [adjacency_length]; omega)]
    simp [hi]

theorem imports_mem {a b : String} (h : Imports edges a b) :
    a ∈ fileNames edges ∧ b ∈ fileNames edges :=
  ⟨(mem_fileNames a).mpr ⟨b, .inl h⟩, (mem_fileNames b).mpr ⟨a, .inr h⟩⟩

theorem edge_lt {i j : ℕ} (h : Edge (adjacency edges) i j) : j < (adjacency edges).length := by
  obtain ⟨-, a, b, himp, -, rfl⟩ := (edge_adjacency i j).mp h
  rw [adjacency_length]
  exact List.idxOf_lt_length_iff.mpr (imports_mem himp).2

/-- Names are connected when their positions are. -/
theorem reach_iff {a b : String} (ha : a ∈ fileNames edges) (hb : b ∈ fileNames edges) :
    ReflTransGen (Edge (adjacency edges)) ((fileNames edges).idxOf a) ((fileNames edges).idxOf b) ↔
      ReflTransGen (Imports edges) a b := by
  constructor
  · intro h
    have hstep : ∀ i j, Edge (adjacency edges) i j → Imports edges (nameAt edges i) (nameAt edges j) := by
      intro i j hij
      obtain ⟨-, x, y, himp, rfl, rfl⟩ := (edge_adjacency i j).mp hij
      rw [nameAt_idxOf (imports_mem himp).1, nameAt_idxOf (imports_mem himp).2]
      exact himp
    have hlift : ReflTransGen (Imports edges) (nameAt edges _) (nameAt edges _) :=
      ReflTransGen.lift (nameAt edges) hstep _ _ h
    rwa [nameAt_idxOf ha, nameAt_idxOf hb] at hlift
  · refine ReflTransGen.lift (fun x => (fileNames edges).idxOf x) (fun x y himp => ?_) a b
    exact (edge_adjacency _ _).mpr
      ⟨List.idxOf_lt_length_iff.mpr (imports_mem himp).1, x, y, himp, rfl, rfl⟩

/-- The files of a component of positions. -/
def filesOf (edges : List (String × String)) (comp : List ℕ) : List String :=
  (sortByKey id comp).map (nameAt edges)

section Files

variable {comp : List ℕ}

theorem mem_filesOf (hlt : ∀ i ∈ comp, i < (fileNames edges).length) (a : String) :
    a ∈ filesOf edges comp ↔ a ∈ fileNames edges ∧ (fileNames edges).idxOf a ∈ comp := by
  simp only [filesOf, List.mem_map, mem_sortByKey]
  constructor
  · rintro ⟨i, hi, rfl⟩
    refine ⟨nameAt_mem (hlt i hi), ?_⟩
    rwa [idxOf_nameAt (hlt i hi)]
  · rintro ⟨ha, hi⟩
    exact ⟨_, hi, nameAt_idxOf ha⟩

/-- The files of a component are a component of the import graph, in order. -/
theorem filesOf_component (hcomp : Component (adjacency edges) comp)
    (hlt : ∀ i ∈ comp, i < (fileNames edges).length) :
    (filesOf edges comp).Pairwise (· < ·) ∧ ∀ a ∈ filesOf edges comp, ∀ b,
      b ∈ filesOf edges comp ↔
        ReflTransGen (Imports edges) a b ∧ ReflTransGen (Imports edges) b a := by
  constructor
  · rw [filesOf, List.pairwise_map]
    refine (sortByKey_id_strict hcomp.nodup).imp_of_mem fun {i j} _ hj hij => ?_
    exact nameAt_lt hij (hlt j (mem_sortByKey.mp hj))
  · intro a ha b
    obtain ⟨hname, hi⟩ := (mem_filesOf hlt a).mp ha
    rw [mem_filesOf hlt, hcomp.mem_iff _ hi]
    constructor
    · rintro ⟨hb, hab, hba⟩
      exact ⟨(reach_iff hname hb).mp hab, (reach_iff hb hname).mp hba⟩
    · rintro ⟨hab, hba⟩
      have hb : b ∈ fileNames edges := by
        rcases ReflTransGen.cases_tail_iff _ _ _ |>.mp hab with rfl | ⟨c, -, hcb⟩
        · exact hname
        · exact (imports_mem hcb).2
      exact ⟨hb, (reach_iff hname hb).mpr hab, (reach_iff hb hname).mpr hba⟩

end Files

theorem cycleOf_ok (comp : List ℕ) :
    ∃ c, cycleOf (fileNames edges) (adjacency edges) comp = .ok c ∧
      (c.files, c.size) = (filesOf edges comp, comp.length) := by
  obtain ⟨path, hpath⟩ := shortestCycle_ok (adjacency edges) (sortByKey id comp)
    ((sortByKey id comp).headD 0)
  refine ⟨_, by simp only [cycleOf, hpath]; rfl, ?_⟩
  exact Prod.ext rfl (sortByKey_perm id comp).length_eq

theorem mapM_ok {α β γ : Type} {f : α → Except Fault β} {g : β → γ} {k : α → γ} (l : List α)
    (h : ∀ x, ∃ y, f x = .ok y ∧ g y = k x) : ∃ ys, l.mapM f = .ok ys ∧ ys.map g = l.map k := by
  induction l with
  | nil => exact ⟨[], rfl, rfl⟩
  | cons x l ih =>
    obtain ⟨y, hy, hgy⟩ := h x
    obtain ⟨ys, hys, hmap⟩ := ih
    refine ⟨y :: ys, ?_, by rw [List.map_cons, List.map_cons, hgy, hmap]⟩
    rw [List.mapM_cons, hy, hys]
    rfl

/-- The test for an empty graph only saves work. -/
theorem findCycles_eq (sccs : List (List ℕ)) (hsccs : tarjanScc (adjacency edges) = .ok sccs)
    (cycles : List DependencyCycle)
    (hcycles : (sccs.filter fun comp => 2 ≤ comp.length).mapM
      (cycleOf (fileNames edges) (adjacency edges)) = .ok cycles) :
    findCycles edges = .ok (sortByKey DependencyCycle.order cycles) := by
  by_cases hnil : fileNames edges = []
  · have hadj : adjacency edges = [] := by simp [adjacency, hnil]
    rw [hadj] at hsccs
    obtain rfl : [] = sccs := Except.ok.inj hsccs
    obtain rfl : [] = cycles := Except.ok.inj hcycles
    simp only [findCycles, hnil, if_true]
    rfl
  · simp only [findCycles, hnil, if_false, hsccs]
    show Except.bind (Except.ok sccs) _ = _
    simp only [Except.bind]
    show Except.bind ((sccs.filter fun comp => 2 ≤ comp.length).mapM _) _ = _
    rw [hcycles]
    rfl

end Names

/-! ### The result -/

theorem dedupAdjacent_strict {l : List ℕ} (h : l.Pairwise (· ≤ ·)) :
    (dedupAdjacent l).Pairwise (· < ·) := by
  fun_induction dedupAdjacent l with
  | case1 a l ih => exact ih (List.pairwise_cons.mp h).2
  | case2 a b l hab ih =>
    obtain ⟨ha, htail⟩ := List.pairwise_cons.mp h
    refine List.pairwise_cons.mpr ⟨fun x hx => ?_, ih htail⟩
    have halt : a < b := lt_of_le_of_ne (ha b List.mem_cons_self) hab
    rcases List.mem_cons.mp (mem_dedupAdjacent.mp hx) with rfl | hx
    · exact halt
    · exact halt.trans_le ((List.pairwise_cons.mp htail).1 x hx)
  | case3 l hl =>
    cases l with
    | nil => exact List.Pairwise.nil
    | cons a l =>
      cases l with
      | nil => exact List.pairwise_singleton _ _
      | cons b l => exact absurd rfl (hl a b l)

/-- Order and multiplicity of the edges make no difference. -/
theorem findCycles_congr {edges edges' : List (String × String)} (h : ∀ e, e ∈ edges ↔ e ∈ edges') :
    findCycles edges = findCycles edges' := by
  have hkept : ∀ e, e ∈ edges.filter kept ↔ e ∈ edges'.filter kept := by
    intro e
    rw [List.mem_filter, List.mem_filter, h]
  have hnames : fileNames edges = fileNames edges' := by
    unfold fileNames
    congr 1
    ext a
    simp only [List.mem_toFinset, List.mem_flatMap, hkept]
  have hadj : adjacency edges = adjacency edges' := by
    unfold adjacency
    simp only [hnames]
    refine List.map_congr_left fun i _ => ?_
    apply eq_of_strict (k := id)
    · exact dedupAdjacent_strict (sortByKey_sorted id _)
    · exact dedupAdjacent_strict (sortByKey_sorted id _)
    · intro j
      have hrow : ∀ e, (e ∈ (edges.filter kept).filter fun e => (fileNames edges').idxOf e.1 = i) ↔
          e ∈ (edges'.filter kept).filter fun e => (fileNames edges').idxOf e.1 = i := by
        intro e
        simp only [List.mem_filter, h]
      simp only [mem_dedupAdjacent, mem_sortByKey, List.mem_map, hrow]
  unfold findCycles
  rw [hnames, hadj]

/-- What the cycles of a run are made of: the components of the positions, each once, and for each of two
nodes or more its files. -/
structure Made (edges : List (String × String)) (sccs : List (List ℕ)) (cycles : List DependencyCycle) :
    Prop where
  component : ∀ comp ∈ sccs, Component (adjacency edges) comp
  apart : sccs.Pairwise List.Disjoint
  mem : ∀ v, (∃ comp ∈ sccs, v ∈ comp) ↔ v < (fileNames edges).length
  files : cycles.map (fun c => (c.files, c.size)) =
    (sccs.filter fun comp => 2 ≤ comp.length).map fun comp => (filesOf edges comp, comp.length)

section Made

variable {edges : List (String × String)} {sccs : List (List ℕ)} {cycles : List DependencyCycle}

theorem length_filesOf (comp : List ℕ) : (filesOf edges comp).length = comp.length := by
  rw [filesOf, List.length_map, (sortByKey_perm id comp).length_eq]

theorem Made.lt (h : Made edges sccs cycles) {comp : List ℕ} (hc : comp ∈ sccs) :
    ∀ i ∈ comp, i < (fileNames edges).length :=
  fun i hi => (h.mem i).mp ⟨comp, hc, hi⟩

/-- A cycle is the cycle of a component of two or more. -/
theorem Made.source (h : Made edges sccs cycles) {c : DependencyCycle} (hc : c ∈ cycles) :
    ∃ comp ∈ sccs, 2 ≤ comp.length ∧ c.files = filesOf edges comp ∧ c.size = comp.length := by
  have himage : (c.files, c.size) ∈ cycles.map fun c => (c.files, c.size) := List.mem_map_of_mem hc
  rw [h.files, List.mem_map] at himage
  obtain ⟨comp, hcmem, heq⟩ := himage
  obtain ⟨hfiles, hsize⟩ := Prod.mk.inj heq
  obtain ⟨hmem, hlen⟩ := List.mem_filter.mp hcmem
  exact ⟨comp, hmem, by simpa using hlen, hfiles.symm, hsize.symm⟩

/-- Two files that reach each other are in a cycle. -/
theorem Made.exists_cycle (h : Made edges sccs cycles) {a b : String} (hne : a ≠ b)
    (hab : ReflTransGen (Imports edges) a b) (hba : ReflTransGen (Imports edges) b a) :
    ∃ c ∈ cycles, a ∈ c.files ∧ b ∈ c.files := by
  have ha : a ∈ fileNames edges := by
    rcases ReflTransGen.cases_head hab with rfl | ⟨c, hac, -⟩
    · exact absurd rfl hne
    · exact (imports_mem hac).1
  obtain ⟨comp, hcmem, hi⟩ :=
    (h.mem ((fileNames edges).idxOf a)).mpr (List.idxOf_lt_length_iff.mpr ha)
  have hafile : a ∈ filesOf edges comp := (mem_filesOf (h.lt hcmem) a).mpr ⟨ha, hi⟩
  have hbfile : b ∈ filesOf edges comp :=
    ((filesOf_component (h.component comp hcmem) (h.lt hcmem)).2 a hafile b).mpr ⟨hab, hba⟩
  -- Two files, so the component is kept.
  have hlen : 2 ≤ comp.length := by
    rw [← @length_filesOf edges]
    by_contra hlt
    have hpos := List.length_pos_of_mem hafile
    obtain ⟨x, hx⟩ := List.length_eq_one_iff.mp (show (filesOf edges comp).length = 1 by omega)
    rw [hx, List.mem_singleton] at hafile hbfile
    exact hne (hafile.trans hbfile.symm)
  have himage : (filesOf edges comp, comp.length) ∈ cycles.map fun c => (c.files, c.size) := by
    rw [h.files]
    exact List.mem_map_of_mem (List.mem_filter.mpr ⟨hcmem, by simpa using hlen⟩)
  obtain ⟨c, hc, heq⟩ := List.mem_map.mp himage
  obtain ⟨hfiles, -⟩ := Prod.mk.inj heq
  exact ⟨c, hc, by rwa [hfiles], by rwa [hfiles]⟩

theorem Made.head_mem (h : Made edges sccs cycles) {comp : List ℕ} (hc : comp ∈ sccs) :
    (fileNames edges).idxOf ((filesOf edges comp).headD "") ∈ comp := by
  have hfirst : (filesOf edges comp).headD "" ∈ filesOf edges comp := by
    cases hfiles : filesOf edges comp with
    | nil =>
      have hzero : comp.length = 0 := by rw [← length_filesOf, hfiles, List.length_nil]
      exact absurd (List.eq_nil_of_length_eq_zero hzero) (h.component comp hc).ne_nil
    | cons a files => simp
  exact ((mem_filesOf (h.lt hc) _).mp hfirst).2

/-- Components are apart, so no two cycles have one first file. -/
theorem Made.order_nodup (h : Made edges sccs cycles) :
    (cycles.map DependencyCycle.order).Nodup := by
  have hkey : cycles.map DependencyCycle.order = (sccs.filter fun comp => 2 ≤ comp.length).map
      fun comp => toLex (OrderDual.toDual comp.length, (filesOf edges comp).headD "") := by
    have hmap := congrArg (List.map fun p : List String × ℕ =>
      (toLex (OrderDual.toDual p.2, p.1.headD "") : ℕᵒᵈ ×ₗ String)) h.files
    rwa [List.map_map, List.map_map] at hmap
  rw [hkey, List.Nodup, List.pairwise_map]
  refine (h.apart.filter _).imp_of_mem fun {comp comp'} hc hc' hdisj heq => ?_
  have hhead : (filesOf edges comp).headD "" = (filesOf edges comp').headD "" :=
    congrArg (fun key => (ofLex key).2) heq
  have hin := h.head_mem (List.mem_filter.mp hc).1
  have hin' := h.head_mem (List.mem_filter.mp hc').1
  rw [← hhead] at hin'
  exact hdisj hin hin'

end Made

/-- **`find_cycles` is exact.** It returns without a fault, for every list of edges. Its cycles are the
strongly connected components of the import graph that have two files or more, each once, with their files in
order and counted, the largest first and then by first file; a list with the same edges gives the same
cycles. -/
theorem find_cycles_exact (edges : List (String × String)) :
    ∃ cycles, findCycles edges = .ok cycles ∧
      (∀ c ∈ cycles, 2 ≤ c.files.length ∧ c.size = c.files.length ∧ c.files.Pairwise (· < ·) ∧
        ∀ a ∈ c.files, ∀ b, b ∈ c.files ↔
          ReflTransGen (Imports edges) a b ∧ ReflTransGen (Imports edges) b a) ∧
      (∀ a b, a ≠ b → ReflTransGen (Imports edges) a b → ReflTransGen (Imports edges) b a →
        ∃ c ∈ cycles, a ∈ c.files ∧ b ∈ c.files) ∧
      cycles.Pairwise (fun c d => c.order < d.order) ∧
      ∀ edges', (∀ e, e ∈ edges ↔ e ∈ edges') → findCycles edges' = .ok cycles := by
  have hbound : ∀ u, ∀ w ∈ succs (adjacency edges) u, w < (adjacency edges).length :=
    fun u w hw => edge_lt hw
  obtain ⟨sccs, hsccs, hcomp, hapart, hmem⟩ := tarjanScc_spec hbound
  rw [adjacency_length] at hmem
  obtain ⟨cycles, hcycles, hmap⟩ :=
    mapM_ok (sccs.filter fun comp => 2 ≤ comp.length) (@cycleOf_ok edges)
  have hmade : Made edges sccs cycles := ⟨hcomp, hapart, hmem, hmap⟩
  have hfind := findCycles_eq sccs hsccs cycles hcycles
  refine ⟨_, hfind, ?_, ?_, sortByKey_strict hmade.order_nodup, ?_⟩
  · intro c hc
    obtain ⟨comp, hcmem, hlen, hfiles, hsize⟩ := hmade.source (mem_sortByKey.mp hc)
    obtain ⟨hsorted, hscc⟩ := filesOf_component (hcomp comp hcmem) (hmade.lt hcmem)
    rw [hsize, hfiles, length_filesOf]
    exact ⟨hlen, rfl, hsorted, hscc⟩
  · intro a b hne hab hba
    obtain ⟨c, hc, hfiles⟩ := hmade.exists_cycle hne hab hba
    exact ⟨c, mem_sortByKey.mpr hc, hfiles⟩
  · intro edges' h
    rw [← findCycles_congr h, hfind]

end CodeGraph.Graph.Cycles
