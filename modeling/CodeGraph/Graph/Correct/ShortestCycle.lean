import CodeGraph.Graph.Correct.Cycles
import CodeGraph.Lib.Paths

/-!
# The representative cycle is a shortest one

The search of `shortest_cycle` visits by distance: `Bfs` is its invariant, and when the queue is empty the map
holds a distance for every node that a walk inside the component reaches (`Bfs.le_of_walk`). The node with an edge
back that is nearest closes a shortest cycle. `find_cycles_path` says so of the files.
-/

namespace CodeGraph.Graph.Cycles

open CodeGraph.Lib Relation

variable {adj : List (List ℕ)} {inScc : List ℕ} {start : ℕ}

/-! ### The order of the map -/

/-- The entry of a node with an edge back to the start. -/
def Back (adj : List (List ℕ)) (start : ℕ) (entry : Sigma fun _ : ℕ => ℕ) : Prop :=
  entry.1 ≠ start ∧ start ∈ succs adj entry.1

/-- `best` is the least of the entries with an edge back, by distance and then by node. -/
def IsNearest (adj : List (List ℕ)) (start : ℕ) (entries : List (Sigma fun _ : ℕ => ℕ)) : Option (ℕ × ℕ) → Prop
  | none => ∀ entry ∈ entries, ¬Back adj start entry
  | some b => (∃ entry ∈ entries, Back adj start entry ∧ (entry.2, entry.1) = b) ∧
      ∀ entry ∈ entries, Back adj start entry → toLex b ≤ toLex (entry.2, entry.1)

theorem foldl_nearer (entries : List (Sigma fun _ : ℕ => ℕ)) :
    IsNearest adj start entries (entries.foldl (nearer adj start) none) := by
  -- the induction is on the entries from the end, as the fold reads them
  induction entries using List.reverseRecOn with
  | nil => simp [IsNearest]
  | append_singleton entries e ih =>
    rw [List.foldl_concat]
    generalize entries.foldl (nearer adj start) none = best at ih ⊢
    unfold nearer
    by_cases hback : Back adj start e
    · -- the new entry closes a cycle, and takes the place of a best one that is not nearer
      rw [if_pos (show e.1 ≠ start ∧ start ∈ succs adj e.1 from hback)]
      cases best with
      | none =>
        refine ⟨⟨e, by simp, hback, rfl⟩, ?_⟩
        intro e' he' hback'
        rcases List.mem_append.mp he' with he' | he'
        · exact absurd hback' (ih e' he')
        · rw [List.mem_singleton.mp he']
      | some b =>
        obtain ⟨⟨e₀, he₀, hback₀, hkey⟩, hmin⟩ := ih
        dsimp only
        split_ifs with hle
        · refine ⟨⟨e₀, List.mem_append_left _ he₀, hback₀, hkey⟩, ?_⟩
          intro e' he' hback'
          rcases List.mem_append.mp he' with he' | he'
          · exact hmin e' he' hback'
          · rw [List.mem_singleton.mp he']
            exact hle
        · refine ⟨⟨e, by simp, hback, rfl⟩, ?_⟩
          intro e' he' hback'
          rcases List.mem_append.mp he' with he' | he'
          · exact (not_le.mp hle).le.trans (hmin e' he' hback')
          · rw [List.mem_singleton.mp he']
    · -- the new entry closes none
      rw [if_neg (show ¬(e.1 ≠ start ∧ start ∈ succs adj e.1) from hback)]
      cases best with
      | none =>
        intro e' he'
        rcases List.mem_append.mp he' with he' | he'
        · exact ih e' he'
        · rwa [List.mem_singleton.mp he']
      | some b =>
        obtain ⟨⟨e₀, he₀, hback₀, hkey⟩, hmin⟩ := ih
        refine ⟨⟨e₀, List.mem_append_left _ he₀, hback₀, hkey⟩, ?_⟩
        intro e' he' hback'
        rcases List.mem_append.mp he' with he' | he'
        · exact hmin e' he' hback'
        · exact absurd (List.mem_singleton.mp he' ▸ hback') hback

/-- Entries that are the same in another order have one least entry. -/
theorem IsNearest.unique {entries entries' : List (Sigma fun _ : ℕ => ℕ)} {best best' : Option (ℕ × ℕ)}
    (h : IsNearest adj start entries best) (h' : IsNearest adj start entries' best')
    (hmem : ∀ e, e ∈ entries ↔ e ∈ entries') : best = best' := by
  cases best with
  | none =>
    cases best' with
    | none => rfl
    | some b' =>
      obtain ⟨⟨e, he, hback, -⟩, -⟩ := h'
      exact absurd hback (h e ((hmem e).mpr he))
  | some b =>
    obtain ⟨⟨e, he, hback, rfl⟩, hmin⟩ := h
    cases best' with
    | none => exact absurd hback (h' e ((hmem e).mp he))
    | some b' =>
      obtain ⟨⟨e', he', hback', rfl⟩, hmin'⟩ := h'
      have hle := hmin e' ((hmem e').mpr he') hback'
      have hge := hmin' e ((hmem e).mp he) hback
      rw [toLex.injective (le_antisymm hle hge)]

theorem shortestCycleBy_eq (order : ReadOrder) : shortestCycleBy adj order inScc start = shortestCycle adj inScc start := by
  have hbest : ∀ entries : List (Sigma fun _ : ℕ => ℕ), (order.read start entries).foldl (nearer adj start) none =
      entries.foldl (nearer adj start) none := by
    intro entries
    refine (foldl_nearer _).unique (foldl_nearer _) fun e => ?_
    exact (order.perm start entries).mem_iff
  unfold shortestCycleBy shortestCycle bestBack
  simp only [hbest]

theorem findCyclesBy_eq (order : ReadOrder) (edges : List (String × String)) :
    findCyclesBy order edges = findCycles edges := by
  have hcycle : cycleOfBy (adjacency edges) order (fileNames edges) =
      cycleOf (fileNames edges) (adjacency edges) := by
    funext comp
    unfold cycleOfBy cycleOf
    simp only [shortestCycleBy_eq]
  unfold findCyclesBy findCycles
  simp only [hcycle]

/-! ### Search by distance -/

/-- An edge of the search: it stays in the component and does not come back to the start. -/
def Inside (adj : List (List ℕ)) (inScc : List ℕ) (start a b : ℕ) : Prop :=
  Edge adj a b ∧ b ∈ inScc ∧ b ≠ start

/-- The invariant of the search with distances up to `d + 1` found. `Pending` are the edges to be followed yet. -/
structure Bfs (adj : List (List ℕ)) (inScc : List ℕ) (start d : ℕ) (Pending : ℕ → ℕ → Prop) (s : CycleSearch) :
    Prop where
  searched : Searched start s
  root : s.dist.lookup start = some 0
  inside : ∀ w u, s.parent.lookup w = some u → Inside adj inScc start u w
  near : ∀ w dw, s.dist.lookup w = some dw → dw ≤ d + 1
  sorted : s.queue.Pairwise fun a b => ∀ da db, s.dist.lookup a = some da → s.dist.lookup b = some db → da ≤ db
  waiting : ∀ w ∈ s.queue, ∀ dw, s.dist.lookup w = some dw → d ≤ dw
  followed : ∀ u du w, s.dist.lookup u = some du → Inside adj inScc start u w →
    Pending u w ∨ ∃ dw ≤ du + 1, s.dist.lookup w = some dw

variable {d u w : ℕ} {Pending Pending' : ℕ → ℕ → Prop} {s : CycleSearch}

theorem lookup_insert_of_some {m : AList fun _ : ℕ => ℕ} {x y dx : ℕ} (hnew : w ∉ m) (h : m.lookup x = some dx) :
    (m.insert w y).lookup x = some dx := by
  have hne : x ≠ w := by
    rintro rfl
    exact hnew (AList.lookup_isSome.mp (Option.isSome_of_mem h))
  rwa [AList.lookup_insert_ne hne]

/-- One successor of the node at distance `d`. -/
theorem Bfs.discover (h : Bfs adj inScc start d Pending s) (hu : s.dist.lookup u = some d) (hw : Edge adj u w)
    (hpending : ∀ x y, Pending x y → Pending' x y ∨ x = u ∧ y = w)
    (hqueue : ¬(w = start ∨ w ∉ inScc ∨ w ∈ s.dist) → ∀ y, Pending' w y) :
    Bfs adj inScc start d Pending' (discover inScc start u d s w) := by
  have hsearched : Searched start (Cycles.discover inScc start u d s w) := (discover_searched h.searched hu).1
  by_cases hskip : w = start ∨ w ∉ inScc ∨ w ∈ s.dist
  · have hsame : Cycles.discover inScc start u d s w = s := if_pos hskip
    rw [hsame]
    refine { h with followed := fun x dx y hx hy => ?_ }
    rcases h.followed x dx y hx hy with hpend | hdone
    · rcases hpending x y hpend with hpend | ⟨rfl, rfl⟩
      · exact .inl hpend
      · have hmem : y ∈ s.dist := by
          rcases hskip with hstart | hout | hmem
          · exact absurd hstart hy.2.2
          · exact absurd hy.2.1 hout
          · exact hmem
        obtain ⟨dy, hdy⟩ := Option.isSome_iff_exists.mp (AList.lookup_isSome.mpr hmem)
        obtain rfl : d = dx := Option.some.inj (hu.symm.trans hx)
        exact .inr ⟨dy, h.near y dy hdy, hdy⟩
    · exact .inr hdone
  · have hnew : Cycles.discover inScc start u d s w =
        ⟨s.dist.insert w (d + 1), s.parent.insert w u, s.queue ++ [w]⟩ := if_neg hskip
    rw [hnew] at hsearched ⊢
    have hpend := hqueue hskip
    push Not at hskip
    obtain ⟨hstart, hscc, hfresh⟩ := hskip
    have hself : (s.dist.insert w (d + 1)).lookup w = some (d + 1) := AList.lookup_insert _
    -- the queue holds no node that is new
    have hold : ∀ x ∈ s.queue, ∀ dx, (s.dist.insert w (d + 1)).lookup x = some dx → s.dist.lookup x = some dx := by
      intro x hx dx hdx
      have hne : x ≠ w := fun heq => hfresh (heq ▸ h.searched.queue x hx)
      rwa [AList.lookup_insert_ne hne] at hdx
    refine ⟨hsearched, lookup_insert_of_some hfresh h.root, ?_, ?_, ?_, ?_, ?_⟩
    · intro x y hxy
      by_cases hxw : x = w
      · subst hxw
        rw [AList.lookup_insert] at hxy
        obtain rfl := Option.some.inj hxy
        exact ⟨hw, hscc, hstart⟩
      · rw [AList.lookup_insert_ne hxw] at hxy
        exact h.inside x y hxy
    · intro x dx hdx
      by_cases hxw : x = w
      · subst hxw
        exact (Option.some.inj (hself.symm.trans hdx)).ge
      · rw [AList.lookup_insert_ne hxw] at hdx
        exact h.near x dx hdx
    · refine List.pairwise_append.mpr ⟨?_, List.pairwise_singleton _ _, ?_⟩
      · refine h.sorted.imp_of_mem fun {a b} ha hb hle da db hda hdb => ?_
        exact hle da db (hold a ha da hda) (hold b hb db hdb)
      · intro a ha b hb da db hda hdb
        rw [List.mem_singleton.mp hb] at hdb
        obtain rfl := Option.some.inj (hself.symm.trans hdb)
        exact h.near a da (hold a ha da hda)
    · intro x hx dx hdx
      rcases List.mem_append.mp hx with hx | hx
      · exact h.waiting x hx dx (hold x hx dx hdx)
      · rw [List.mem_singleton.mp hx] at hdx
        have hd := Option.some.inj (hself.symm.trans hdx)
        omega
    · intro x dx y hdx hxy
      by_cases hxw : x = w
      · subst hxw
        exact .inl (hpend y)
      · rw [AList.lookup_insert_ne hxw] at hdx
        rcases h.followed x dx y hdx hxy with hpend | ⟨dy, hle, hdy⟩
        · rcases hpending x y hpend with hpend | ⟨rfl, rfl⟩
          · exact .inl hpend
          · obtain rfl : d = dx := Option.some.inj (hu.symm.trans hdx)
            exact .inr ⟨d + 1, le_rfl, hself⟩
        · exact .inr ⟨dy, hle, lookup_insert_of_some hfresh hdy⟩

/-- What is pending while the successors `ws` of `u` are to be followed. -/
def Rest (s : CycleSearch) (u : ℕ) (ws : List ℕ) (x y : ℕ) : Prop := x ∈ s.queue ∨ x = u ∧ y ∈ ws

theorem Bfs.discover_rest {ws : List ℕ} (h : Bfs adj inScc start d (Rest s u (w :: ws)) s)
    (hu : s.dist.lookup u = some d) (hw : Edge adj u w) :
    Bfs adj inScc start d (Rest (Cycles.discover inScc start u d s w) u ws) (Cycles.discover inScc start u d s w) ∧
      (Cycles.discover inScc start u d s w).dist.lookup u = some d := by
  refine ⟨?_, (discover_searched h.searched hu).2.1⟩
  have hqueue : ∀ x ∈ s.queue, x ∈ (Cycles.discover inScc start u d s w).queue := by
    intro x hx
    unfold Cycles.discover
    split_ifs
    · exact hx
    · exact List.mem_append_left _ hx
  apply h.discover hu hw
  · rintro x y (hx | ⟨rfl, hy⟩)
    · exact .inl (.inl (hqueue x hx))
    · rcases List.mem_cons.mp hy with rfl | hy
      · exact .inr ⟨rfl, rfl⟩
      · exact .inl (.inr ⟨rfl, hy⟩)
  · intro hskip y
    refine .inl ?_
    rw [show Cycles.discover inScc start u d s w = _ from if_neg hskip]
    simp

theorem Bfs.foldl_discover {ws : List ℕ} (h : Bfs adj inScc start d (Rest s u ws) s)
    (hu : s.dist.lookup u = some d) (hws : ∀ w ∈ ws, Edge adj u w) :
    let s' := ws.foldl (Cycles.discover inScc start u d) s
    Bfs adj inScc start d (fun x _ => x ∈ s'.queue) s' := by
  induction ws generalizing s with
  | nil =>
    refine { h with followed := fun x dx y hx hy => ?_ }
    rcases h.followed x dx y hx hy with (hqueue | ⟨-, hnil⟩) | hdone
    · exact .inl hqueue
    · cases hnil
    · exact .inr hdone
  | cons w ws ih =>
    obtain ⟨h', hu'⟩ := h.discover_rest hu (hws w List.mem_cons_self)
    exact ih h' hu' fun w' hw' => hws w' (List.mem_cons_of_mem w hw')

/-- Taking a node from the queue raises the distance to its own. -/
theorem Bfs.pop {queue : List ℕ} {du : ℕ} (h : Bfs adj inScc start d (fun x _ => x ∈ s.queue) s)
    (hqueue : s.queue = u :: queue) (hu : s.dist.lookup u = some du) :
    Bfs adj inScc start du (Rest { s with queue := queue } u (succs adj u)) { s with queue := queue } := by
  have hd : d ≤ du := h.waiting u (by simp [hqueue]) du hu
  have hsorted := h.sorted
  rw [hqueue, List.pairwise_cons] at hsorted
  refine ⟨?_, h.root, h.inside, ?_, hsorted.2, ?_, ?_⟩
  · exact { h.searched with queue := fun x hx => h.searched.queue x (by simp [hqueue, hx]) }
  · intro x dx hx
    have := h.near x dx hx
    omega
  · exact fun x hx dx hdx => hsorted.1 x hx du dx hu hdx
  · intro x dx y hx hy
    rcases h.followed x dx y hx hy with hpend | hdone
    · rw [hqueue] at hpend
      rcases List.mem_cons.mp hpend with rfl | hpend
      · exact .inl (.inr ⟨rfl, hy.1⟩)
      · exact .inl (.inl hpend)
    · exact .inr hdone

theorem cycleLoop_bfs {fuel : ℕ} {s' : CycleSearch} (h : Bfs adj inScc start d (fun x _ => x ∈ s.queue) s)
    (hrun : cycleLoop adj inScc start fuel s = .ok s') :
    ∃ d', Bfs adj inScc start d' (fun _ _ => False) s' := by
  induction fuel generalizing s d with
  | zero =>
    rw [cycleLoop] at hrun
    split at hrun
    · next hnil =>
      obtain rfl := Except.ok.inj hrun
      refine ⟨d, { h with followed := fun x dx y hx hy => ?_ }⟩
      exact (h.followed x dx y hx hy).imp_left fun hmem => by simp [hnil] at hmem
    · cases hrun
  | succ fuel ih =>
    rw [cycleLoop] at hrun
    split at hrun
    · next hnil =>
      obtain rfl := Except.ok.inj hrun
      refine ⟨d, { h with followed := fun x dx y hx hy => ?_ }⟩
      exact (h.followed x dx y hx hy).imp_left fun hmem => by simp [hnil] at hmem
    · next u queue hqueue =>
      dsimp only at hrun
      split at hrun
      · cases hrun
      · next du hu => exact ih ((h.pop hqueue hu).foldl_discover hu fun w hw => hw) hrun

/-- The search has found what a walk reaches, no farther than the walk. -/
theorem Bfs.le_of_walk (h : Bfs adj inScc start d (fun _ _ => False) s) {n : ℕ}
    (hw : Walk (Inside adj inScc start) n start w) : ∃ dw ≤ n, s.dist.lookup w = some dw := by
  induction n generalizing w with
  | zero =>
    obtain rfl : start = w := hw
    exact ⟨0, le_rfl, h.root⟩
  | succ n ih =>
    obtain ⟨c, hc, hcw⟩ := hw
    obtain ⟨dc, hle, hdc⟩ := ih hc
    obtain ⟨dw, hdw, hlookup⟩ := (h.followed c dc w hdc hcw).resolve_left id
    exact ⟨dw, by omega, hlookup⟩

/-- Following the parents gives a path from the start, nearer with each step. -/
theorem Bfs.parentPath_eq (h : Bfs adj inScc start d Pending s) {du : ℕ} (hu : s.dist.lookup u = some du)
    {path path' : List ℕ} (hrun : parentPath start s.parent du u path = .ok path') :
    ∃ l, path' = l ++ path ∧ IsPath (Inside adj inScc start) start u (l ++ [u]) ∧ l.length = du ∧ (l ++ [u]).Nodup ∧
      ∀ x ∈ l, ∃ dx < du, s.dist.lookup x = some dx := by
  -- the induction is on the distance, which each parent lowers by one
  induction du generalizing u path with
  | zero =>
    have hstart : u = start := by
      by_contra hne
      obtain ⟨p, dp, -, -, heq⟩ := h.searched.parent u 0 hu hne
      omega
    rw [parentPath, if_pos hstart] at hrun
    refine ⟨[], (Except.ok.inj hrun).symm, ?_, rfl, List.nodup_singleton _, by simp⟩
    rw [hstart]
    exact .nil
  | succ du ih =>
    have hne : u ≠ start := by
      rintro rfl
      cases h.root.symm.trans hu
    obtain ⟨p, dp, hp, hdp, heq⟩ := h.searched.parent u (du + 1) hu hne
    obtain rfl : du = dp := by omega
    rw [parentPath, if_neg hne] at hrun
    simp only [hp] at hrun
    obtain ⟨l, rfl, hpath, hlen, hnodup, hnear⟩ := ih hdp hrun
    -- the nodes on the way are nearer than `u`, so `u` is not among them
    have hnearer : ∀ x ∈ l ++ [p], ∃ dx < du + 1, s.dist.lookup x = some dx := by
      intro x hx
      rcases List.mem_append.mp hx with hx | hx
      · obtain ⟨dx, hlt, hdx⟩ := hnear x hx
        exact ⟨dx, by omega, hdx⟩
      · rw [List.mem_singleton.mp hx]
        exact ⟨du, by omega, hdp⟩
    refine ⟨l ++ [p], by simp, .snoc hpath (h.inside u p hp), by simp [hlen], ?_, hnearer⟩
    refine List.nodup_append.mpr ⟨hnodup, List.nodup_singleton _, ?_⟩
    rintro x hx y hy rfl
    obtain ⟨dx, hlt, hdx⟩ := hnearer x hx
    rw [List.mem_singleton.mp hy, hu] at hdx
    have := Option.some.inj hdx
    omega

/-! ### The cycle of a component -/

/-- A walk from the start to another node of the component need not come back to the start. -/
theorem exists_inside (hcomp : Component adj inScc) (hstart : start ∈ inScc) {n : ℕ}
    (hwalk : Walk (Edge adj) n start w) (hw : w ∈ inScc) (hne : w ≠ start) :
    ∃ k ≤ n, Walk (Inside adj inScc start) k start w := by
  induction n generalizing w with
  | zero => exact absurd (show start = w from hwalk).symm hne
  | succ n ih =>
    obtain ⟨c, hc, hcw⟩ := hwalk
    by_cases hcs : c = start
    · subst hcs
      exact ⟨1, by omega, c, rfl, hcw, hw, hne⟩
    · have hreach : ReflTransGen (Edge adj) start c := by
        obtain ⟨dist, -, hdist⟩ := exists_atDist (Set.mem_singleton start) hc
        exact reflTransGen_iff_atDist.mpr ⟨dist, hdist⟩
      have hback : ReflTransGen (Edge adj) c start := ((hcomp.mem_iff start hstart w).mp hw).2.head hcw
      obtain ⟨k, hk, hwalk'⟩ := ih hc ((hcomp.mem_iff start hstart c).mpr ⟨hreach, hback⟩) hcs
      exact ⟨k + 1, by omega, c, hwalk', hcw, hw, hne⟩

/-- What `shortest_cycle` starts from satisfies the invariant. -/
theorem bfs_start : Bfs adj inScc start 0 (fun x _ => x ∈ [start])
    ⟨(∅ : AList fun _ : ℕ => ℕ).insert start 0, ∅, [start]⟩ := by
  have hlookup : ∀ w dw, ((∅ : AList fun _ : ℕ => ℕ).insert start 0).lookup w = some dw → w = start ∧ dw = 0 := by
    intro w dw hw
    by_cases hws : w = start
    · rw [hws, AList.lookup_insert] at hw
      exact ⟨hws, (Option.some.inj hw).symm⟩
    · rw [AList.lookup_insert_ne hws, AList.lookup_empty] at hw
      cases hw
  refine ⟨⟨(AList.mem_insert _).mpr (.inl rfl), ?_, ?_⟩, AList.lookup_insert _, ?_, ?_, List.pairwise_singleton _ _, ?_,
    ?_⟩
  · exact fun u hu => (AList.mem_insert _).mpr (.inl (List.mem_singleton.mp hu))
  · exact fun w d hw hne => absurd (hlookup w d hw).1 hne
  · intro w u hw
    rw [AList.lookup_empty] at hw
    cases hw
  · intro w dw hw
    rw [(hlookup w dw hw).2]
    exact Nat.zero_le _
  · exact fun w _ dw _ => Nat.zero_le dw
  · exact fun u du w hu _ => .inl (List.mem_singleton.mpr (hlookup u du hu).1)

/-- A closed walk through the start ends with an edge back from a node that the search finds as near. -/
theorem Bfs.exists_back (h : Bfs adj inScc start d (fun _ _ => False) s) (hcomp : Component adj inScc)
    (hstart : start ∈ inScc) (hloop : ¬Edge adj start start) {n : ℕ} (hn : 0 < n)
    (hwalk : Walk (Edge adj) n start start) :
    ∃ entry ∈ s.dist.entries, Back adj start entry ∧ entry.2 < n := by
  cases n with
  | zero => omega
  | succ n =>
    obtain ⟨c, hc, hback⟩ := hwalk
    have hne : c ≠ start := by
      rintro rfl
      exact hloop hback
    have hreach : ReflTransGen (Edge adj) start c := by
      obtain ⟨dist, -, hdist⟩ := exists_atDist (Set.mem_singleton start) hc
      exact reflTransGen_iff_atDist.mpr ⟨dist, hdist⟩
    have hscc : c ∈ inScc := (hcomp.mem_iff start hstart c).mpr ⟨hreach, .single hback⟩
    obtain ⟨k, hk, hinside⟩ := exists_inside hcomp hstart hc hscc hne
    obtain ⟨dc, hdc, hlookup⟩ := h.le_of_walk hinside
    refine ⟨⟨c, dc⟩, AList.mem_lookup_iff.mp hlookup, ⟨hne, hback⟩, ?_⟩
    show dc < n + 1
    omega

/-- A component of two nodes has a closed walk through each. -/
theorem exists_closed_walk (hcomp : Component adj inScc) (hstart : start ∈ inScc) (hlen : 2 ≤ inScc.length) :
    ∃ n, 0 < n ∧ Walk (Edge adj) n start start := by
  have hother : ∃ b ∈ inScc, b ≠ start := by
    by_contra hall
    push Not at hall
    have hsub : inScc.toFinset ⊆ {start} := by
      intro b hb
      exact Finset.mem_singleton.mpr (hall b (List.mem_toFinset.mp hb))
    have hcard := Finset.card_le_card hsub
    rw [List.toFinset_card_of_nodup hcomp.nodup, Finset.card_singleton] at hcard
    omega
  obtain ⟨b, hb, hne⟩ := hother
  obtain ⟨hto, hback⟩ := (hcomp.mem_iff start hstart b).mp hb
  obtain ⟨k, hk⟩ := reflTransGen_iff_atDist.mp hto
  obtain ⟨m, hm⟩ := reflTransGen_iff_atDist.mp hback
  refine ⟨k + m, ?_, hk.walk.append hm.walk⟩
  have hpos : k ≠ 0 := by
    rintro rfl
    exact hne (show start = b from hk.walk).symm
  omega

/-- **The representative cycle of a component** of two nodes or more, without self-edges. -/
theorem shortestCycle_spec (hcomp : Component adj inScc) (hstart : start ∈ inScc) (hlen : 2 ≤ inScc.length)
    (hloop : ¬Edge adj start start) {path : List ℕ} (hrun : shortestCycle adj inScc start = .ok path) :
    ∃ l, path = start :: l ++ [start] ∧ (start :: l).Nodup ∧ (∀ x ∈ path, x ∈ inScc) ∧ path.IsChain (Edge adj) ∧
      ∀ n, 0 < n → Walk (Edge adj) n start start → path.length ≤ n + 1 := by
  unfold shortestCycle at hrun
  cases hsearch : cycleLoop adj inScc start (inScc.length + 1)
      ⟨(∅ : AList fun _ : ℕ => ℕ).insert start 0, ∅, [start]⟩ with
  | error e =>
    rw [hsearch] at hrun
    cases hrun
  | ok s =>
    rw [hsearch] at hrun
    obtain ⟨d, hbfs⟩ := cycleLoop_bfs bfs_start hsearch
    -- the search has seen the component, and the best entry is the nearest with an edge back
    have hnearest : IsNearest adj start s.dist.entries (bestBack adj start s.dist) := foldl_nearer _
    have hback := fun n hn => hbfs.exists_back hcomp hstart hloop (n := n) hn
    cases hbest : bestBack adj start s.dist with
    | none =>
      rw [hbest] at hnearest
      -- a component of two nodes has a walk back to the start, so an entry closes it
      obtain ⟨n, hn, hwalk⟩ := exists_closed_walk hcomp hstart hlen
      obtain ⟨entry, hentry, hedge, -⟩ := hback n hn hwalk
      exact absurd hedge (hnearest entry hentry)
    | some b =>
      obtain ⟨du, u⟩ := b
      rw [hbest] at hnearest
      obtain ⟨⟨entry, hentry, ⟨hne, hedge⟩, hkey⟩, hmin⟩ := hnearest
      obtain ⟨rfl, rfl⟩ := Prod.mk.inj hkey
      have hlookup : s.dist.lookup entry.1 = some entry.2 := AList.mem_lookup_iff.mpr hentry
      simp only [Bind.bind, Except.bind, hbest] at hrun
      cases hparents : parentPath start s.parent entry.2 entry.1 [entry.1] with
      | error e =>
        rw [hparents] at hrun
        cases hrun
      | ok path' =>
        rw [hparents] at hrun
        obtain rfl := Except.ok.inj hrun
        obtain ⟨l, rfl, hpath, hlength, hnodup, -⟩ := hbfs.parentPath_eq hlookup hparents
        -- the parents from the entry back to the start, and the closing edge
        have hclosed : IsPath (Edge adj) start start (l ++ [entry.1] ++ [start]) :=
          (hpath.mono fun a b hab => hab.1).snoc hedge
        have hhead : ∃ l', l ++ [entry.1] = start :: l' := by
          have hfirst := hpath.head?
          cases hl : l ++ [entry.1] with
          | nil => simp at hl
          | cons x l' =>
            rw [hl, List.head?_cons] at hfirst
            exact ⟨l', by rw [Option.some.inj hfirst]⟩
        obtain ⟨l', hl'⟩ := hhead
        refine ⟨l', by rw [hl'], hl' ▸ hnodup, ?_, hclosed.isChain, ?_⟩
        · intro x hx
          rcases List.mem_append.mp hx with hx | hx
          · rcases hpath.eq_or_step hx with rfl | ⟨c, hc⟩
            · exact hstart
            · exact hc.2.1
          · rwa [List.mem_singleton.mp hx]
        · intro n hn hwalk
          -- a closed walk ends in an entry, which is no nearer than the best
          obtain ⟨entry', hentry', hedge', hlt⟩ := hback n hn hwalk
          have hle : entry.2 ≤ entry'.2 := by
            rcases Prod.Lex.toLex_le_toLex.mp (hmin entry' hentry' hedge') with h | h
            · exact h.le
            · exact h.1.le
          simp only [List.length_append, List.length_singleton]
          omega

/-! ### Paths of files -/

variable {edges : List (String × String)} {comp : List ℕ}

theorem Component.sorted (h : Component adj comp) : Component adj (sortByKey id comp) := by
  have hperm := sortByKey_perm id comp
  constructor
  case ne_nil =>
    intro hnil
    rw [hnil] at hperm
    exact h.ne_nil hperm.symm.eq_nil
  case nodup => exact hperm.nodup_iff.mpr h.nodup
  case mem_iff =>
    intro a ha b
    rw [mem_sortByKey] at ha ⊢
    exact h.mem_iff a ha b

theorem exists_of_mapM {α β : Type} {f : α → Except Fault β} {l : List α} {ys : List β} (h : l.mapM f = .ok ys) :
    ∀ y ∈ ys, ∃ x ∈ l, f x = .ok y := by
  induction l generalizing ys with
  | nil =>
    obtain rfl := Except.ok.inj (show Except.ok [] = Except.ok ys from h)
    simp
  | cons x l ih =>
    rw [List.mapM_cons] at h
    cases hx : f x with
    | error e =>
      rw [hx] at h
      cases h
    | ok y =>
      rw [hx] at h
      cases hl : l.mapM f with
      | error e =>
        rw [hl] at h
        cases h
      | ok ys' =>
        rw [hl] at h
        obtain rfl := Except.ok.inj (show Except.ok (y :: ys') = Except.ok ys from h)
        intro y' hy'
        rcases List.mem_cons.mp hy' with rfl | hy'
        · exact ⟨x, List.mem_cons_self, hx⟩
        · obtain ⟨x', hx', hfx⟩ := ih hl y' hy'
          exact ⟨x', List.mem_cons_of_mem x hx', hfx⟩

/-- A walk along imports is a walk of the positions. -/
theorem walk_positions {n : ℕ} {a b : String} (h : Walk (Imports edges) n a b) :
    Walk (Edge (adjacency edges)) n ((fileNames edges).idxOf a) ((fileNames edges).idxOf b) := by
  induction n generalizing b with
  | zero =>
    obtain rfl : a = b := h
    rfl
  | succ n ih =>
    obtain ⟨c, hc, hcb⟩ := h
    refine ⟨(fileNames edges).idxOf c, ih hc, (edge_adjacency _ _).mpr ⟨?_, c, b, hcb, rfl, rfl⟩⟩
    exact List.idxOf_lt_length_iff.mpr (imports_mem hcb).1

theorem imports_of_edge {i j : ℕ} (h : Edge (adjacency edges) i j) :
    Imports edges (nameAt edges i) (nameAt edges j) := by
  obtain ⟨-, a, b, himp, rfl, rfl⟩ := (edge_adjacency i j).mp h
  rwa [nameAt_idxOf (imports_mem himp).1, nameAt_idxOf (imports_mem himp).2]

/-- What is said of the path of a cycle: closed through its least file, simple, along imports and inside the
component, and no longer than any closed walk through that file. -/
structure Representative (edges : List (String × String)) (c : DependencyCycle) (a : String) (l : List String) :
    Prop where
  path : c.path = a :: l ++ [a]
  mem : a ∈ c.files
  least : ∀ b ∈ c.files, a ≤ b
  simple : (a :: l).Nodup
  files : ∀ b ∈ c.path, b ∈ c.files
  imports : c.path.IsChain (Imports edges)
  shortest : ∀ n, 0 < n → Walk (Imports edges) n a a → c.path.length ≤ n + 1

theorem cycleOf_representative (hcomp : Component (adjacency edges) comp) (hlen : 2 ≤ comp.length)
    (hlt : ∀ i ∈ comp, i < (fileNames edges).length) {c : DependencyCycle}
    (hc : cycleOf (fileNames edges) (adjacency edges) comp = .ok c) : ∃ a l, Representative edges c a l := by
  have hsorted := hcomp.sorted
  have hstrict := sortByKey_id_strict hcomp.nodup
  have hlt' : ∀ i ∈ sortByKey id comp, i < (fileNames edges).length := fun i hi => hlt i (mem_sortByKey.mp hi)
  rw [← (sortByKey_perm id comp).length_eq] at hlen
  unfold cycleOf at hc
  dsimp only at hc
  generalize sortByKey id comp = comp' at hc hsorted hstrict hlt' hlen
  cases comp' with
  | nil => exact absurd rfl hsorted.ne_nil
  | cons start rest =>
    rw [List.headD_cons] at hc
    cases hrun : shortestCycle (adjacency edges) (start :: rest) start with
    | error e =>
      rw [hrun] at hc
      cases hc
    | ok path =>
      rw [hrun] at hc
      obtain rfl := Except.ok.inj hc
      have hloop : ¬Edge (adjacency edges) start start := fun h => (imports_of_edge h).2.1 rfl
      obtain ⟨l, rfl, hnodup, hmem, hchain, hshort⟩ :=
        shortestCycle_spec hsorted List.mem_cons_self hlen hloop hrun
      have hstart : start < (fileNames edges).length := hlt' start List.mem_cons_self
      refine ⟨nameAt edges start, l.map (nameAt edges), ?_, ?_, ?_, ?_, ?_, ?_, ?_⟩
      · show (start :: l ++ [start]).map (nameAt edges) = _
        simp
      · exact List.mem_map_of_mem List.mem_cons_self
      · intro b hb
        obtain ⟨i, hi, rfl⟩ := List.mem_map.mp hb
        rcases List.mem_cons.mp hi with rfl | hrest
        · exact le_rfl
        · exact (nameAt_lt ((List.pairwise_cons.mp hstrict).1 i hrest) (hlt' i hi)).le
      · rw [← List.map_cons]
        refine hnodup.map_on fun i hi j hj hij => ?_
        -- the names are distinct because the numbers are
        have hpos : ∀ x ∈ start :: l, x < (fileNames edges).length :=
          fun x hx => hlt' x (hmem x (List.mem_append_left _ hx))
        rw [← idxOf_nameAt (hpos i hi), hij, idxOf_nameAt (hpos j hj)]
      · intro b hb
        obtain ⟨i, hi, rfl⟩ := List.mem_map.mp hb
        exact List.mem_map_of_mem (hmem i hi)
      · exact (List.isChain_map _).mpr (hchain.imp fun i j hij => imports_of_edge hij)
      · intro n hn hwalk
        -- a walk over the names is a walk over the numbers
        have hpositions := walk_positions hwalk
        rw [idxOf_nameAt hstart] at hpositions
        rw [show (List.map _ (start :: l ++ [start])).length = _ from List.length_map _]
        exact hshort n hn hpositions

/-- **Every cycle has a representative.** Whatever order the maps are read in, the cycles are those of
`find_cycles`, and the path of each is a shortest closed path through the least file of its component. -/
theorem find_cycles_path (order : ReadOrder) (edges : List (String × String)) :
    ∃ cycles, findCyclesBy order edges = .ok cycles ∧ findCycles edges = .ok cycles ∧
      ∀ c ∈ cycles, ∃ a l, Representative edges c a l := by
  have hbound : ∀ u, ∀ w ∈ succs (adjacency edges) u, w < (adjacency edges).length :=
    fun u w hw => edge_lt hw
  obtain ⟨sccs, hsccs, hcomp, -, hmem⟩ := tarjanScc_spec hbound
  rw [adjacency_length] at hmem
  obtain ⟨cycles, hcycles, -⟩ := mapM_ok (sccs.filter fun comp => 2 ≤ comp.length) (@cycleOf_ok edges)
  have hfind := findCycles_eq sccs hsccs cycles hcycles
  refine ⟨_, (findCyclesBy_eq order edges).trans hfind, hfind, fun c hc => ?_⟩
  obtain ⟨comp, hkept, hcycle⟩ := exists_of_mapM hcycles c (mem_sortByKey.mp hc)
  obtain ⟨hscc, hlen⟩ := List.mem_filter.mp hkept
  exact cycleOf_representative (hcomp comp hscc) (of_decide_eq_true hlen) (fun i hi => (hmem i).mp ⟨comp, hscc, hi⟩)
    hcycle

end CodeGraph.Graph.Cycles
