import CodeGraph.Lib.Run
import CodeGraph.Server.Backfill

/-!
# What the backfill floor hides

The loop drains only when more nodes are without a vector than its floor says. That finds every node that can be
embedded as long as the floor is made up of others, `stuck`: nodes that cannot be embedded, and nodes that three
stalls without progress have given up on. A floor is never lowered when such nodes go away, so the loop keeps that up
just as long as they stay (`Careful`, `no_stranding`).
-/

namespace CodeGraph.Server.Backfill

open CodeGraph.Lib

/-- The driver, how many of its last drains were stalls without progress, and the nodes that were in the index when
three such stalls in a row pinned the floor. -/
structure State where
  driver : Driver
  row : ℕ
  pinned : Finset ℕ
  deriving DecidableEq

inductive Action
  /-- Other processes insert, delete and embed nodes. -/
  | others (index : Index)
  | tick (t : Tick)

/-- The tick pins the floor, and its drain is the third in a row to stall without progress. -/
def State.pins (s : State) (t : Tick) : Bool :=
  (s.driver.tick t).2 == some (.stalled false) && decide (maxBackfillStallRetries ≤ s.driver.stallRetries + 1) &&
    decide (maxBackfillStallRetries ≤ s.row + 1) && t.recounted

def State.step (s : State) : Action → Option State
  | .others index =>
    -- a node that comes back is a new one
    some { s with driver := { s.driver with index := index }, pinned := s.pinned ∩ index.nodes }
  | .tick t =>
    let (driver, outcome) := s.driver.tick t
    some {
      driver := driver
      row := match outcome with
        | none => s.row
        | some outcome => if outcome = .stalled false then s.row + 1 else 0
      pinned := if s.pins t then s.pinned ∪ driver.index.nodes else s.pinned }

/-- A new loop over any index. -/
def State.start (index : Index) : State := ⟨⟨index, 0, 0⟩, 0, ∅⟩

variable (embeddable : ℕ → Prop) [DecidablePred embeddable]

/-- The nodes without a vector that no drain is owed for. -/
def stuck (pinned : Finset ℕ) (i : Index) : Finset ℕ := i.unembedded.filter fun n => ¬embeddable n ∨ n ∈ pinned

/-- At least as many nodes as the floor says are stuck. -/
def Keeps (floor : ℤ) (pinned : Finset ℕ) (i : Index) : Prop := floor ≤ (stuck embeddable pinned i).card

/-- A drain that embeds some node and is not interrupted embeds all that can be: its model is there and works. -/
def Works (p : Pass) (i : Index) : Prop :=
  p.ending = .finished → i.embeds p ≠ ∅ → ∀ n ∈ (i.embed p).unembedded, ¬embeddable n

/-- What is asked of a step. Other processes, and a drain whose end leaves the floor as it is, do not take away stuck
nodes that the floor stands for; and stalls that are counted together with drains between them pin the floor only
when no node that can be embedded is left. -/
def Careful (s : State) : Action → Prop
  | .others index => Keeps embeddable s.driver.floor (s.pinned ∩ index.nodes) index
  | .tick t =>
    (t.pass.ending = .yielded ∨ t.pass.ending = .failed ∨ t.recounted = false →
      Keeps embeddable s.driver.floor s.pinned (s.driver.index.embed t.pass)) ∧
    (maxBackfillStallRetries ≤ s.driver.stallRetries + 1 → s.row + 1 < maxBackfillStallRetries →
      ∀ n ∈ (s.driver.index.embed t.pass).unembedded, ¬embeddable n)

/-- A tick that finds the flag free and can count the index drains it, if it holds a node without a vector that can be
embedded and was not there when three stalls in a row pinned the floor. -/
def State.Drains (s : State) : Prop :=
  ∀ t : Tick, t.opened = true → t.counted = true → t.free = true →
    (∃ n ∈ s.driver.index.unembedded, embeddable n ∧ n ∉ s.pinned) → (s.driver.tick t).2.isSome

/-- The drains of a step are as they should be. -/
def WorksIn (s : State) : Action → Prop
  | .others _ => True
  | .tick t => Works embeddable t.pass s.driver.index

variable {embeddable} {floor : ℤ} {pinned pinned' : Finset ℕ} {i i' : Index} {s s' : State} {t : Tick} {p : Pass}

/-! ### Stuck nodes -/

theorem stuck_mono (hpinned : pinned ⊆ pinned') (hi : i.unembedded ⊆ i'.unembedded) :
    stuck embeddable pinned i ⊆ stuck embeddable pinned' i' := by
  intro n hn
  obtain ⟨hmem, hstuck⟩ := Finset.mem_filter.mp hn
  exact Finset.mem_filter.mpr ⟨hi hmem, hstuck.imp_right fun h => hpinned h⟩

theorem Keeps.mono (h : Keeps embeddable floor pinned i) (hpinned : pinned ⊆ pinned')
    (hi : i.unembedded ⊆ i'.unembedded) : Keeps embeddable floor pinned' i' := by
  have hstuck : stuck embeddable pinned i ⊆ stuck embeddable pinned' i' := stuck_mono hpinned hi
  have hcard := Finset.card_le_card hstuck
  unfold Keeps at *
  omega

theorem keeps_zero : Keeps embeddable 0 pinned i := Int.natCast_nonneg _

/-- A floor that is the whole count stands for stuck nodes, if all are. -/
theorem keeps_count (h : ∀ n ∈ i.unembedded, ¬embeddable n ∨ n ∈ pinned) : Keeps embeddable i.count pinned i := by
  have hall : stuck embeddable pinned i = i.unembedded := Finset.filter_true_of_mem h
  rw [Keeps, hall]
  exact le_rfl

theorem mem_nodes_of_unembedded {n : ℕ} (h : n ∈ i.unembedded) : n ∈ i.nodes := (Finset.mem_sdiff.mp h).1

/-- A drain that embeds nothing leaves at least the nodes it found. -/
theorem unembedded_embed_of_none (h : i.embeds p = ∅) : i.unembedded ⊆ (i.embed p).unembedded := by
  intro n hn
  obtain ⟨hnode, hvector⟩ := Finset.mem_sdiff.mp hn
  refine Finset.mem_sdiff.mpr ⟨hnode, ?_⟩
  rw [Index.embed, h, Finset.union_empty]
  unfold Index.cleared
  dsimp only
  split_ifs with hstale
  · exact Finset.notMem_empty n
  · exact hvector

/-! ### Ticks -/

/-- What the driver's variables are after a drain. -/
def Driver.measured (d : Driver) (t : Tick) : ℤ × ℕ :=
  applyBackfillOutcome d.floor d.stallRetries (runUnembeddedBackfill t.pass d.index).2
    (if t.recounted then (runUnembeddedBackfill t.pass d.index).1.count else d.floor)

/-- A tick does nothing, or drains the index. -/
theorem tick_cases (d : Driver) (t : Tick) : d.tick t = (d, none) ∨
    d.tick t = (⟨(runUnembeddedBackfill t.pass d.index).1, (d.measured t).1, (d.measured t).2⟩,
      some (runUnembeddedBackfill t.pass d.index).2) := by
  unfold Driver.tick
  by_cases hopened : t.opened = false
  · exact .inl (if_pos hopened)
  · rw [if_neg hopened]
    dsimp only
    by_cases hfloor : (if t.counted = true then d.index.count else d.floor) ≤ d.floor
    · exact .inl (if_pos hfloor)
    · rw [if_neg hfloor]
      by_cases hfree : t.free = false
      · exact .inl (if_pos hfree)
      · rw [if_neg hfree]
        exact .inr rfl

theorem tick_isSome {d : Driver} (hopened : t.opened = true) (hcounted : t.counted = true) (hfree : t.free = true)
    (h : d.floor < d.index.count) : (d.tick t).2.isSome := by
  unfold Driver.tick
  rw [hopened, hcounted, hfree]
  dsimp only
  rw [if_neg (by decide), if_neg (by simpa using h), if_neg (by decide)]
  rfl

/-- The floor after a drain stands for stuck nodes. -/
theorem keeps_measured {d : Driver} (row : ℕ) (hkeeps : Keeps embeddable d.floor pinned d.index)
    (hworks : Works embeddable t.pass d.index)
    (hinterrupted : t.pass.ending = .yielded ∨ t.pass.ending = .failed ∨ t.recounted = false →
      Keeps embeddable d.floor pinned (d.index.embed t.pass))
    (hcounted : maxBackfillStallRetries ≤ d.stallRetries + 1 → row + 1 < maxBackfillStallRetries →
      ∀ n ∈ (d.index.embed t.pass).unembedded, ¬embeddable n)
    (hpinned : pinned ⊆ pinned')
    (hrow : (runUnembeddedBackfill t.pass d.index).2 = .stalled false →
      maxBackfillStallRetries ≤ d.stallRetries + 1 → maxBackfillStallRetries ≤ row + 1 → t.recounted = true →
      (d.index.embed t.pass).nodes ⊆ pinned') :
    Keeps embeddable (d.measured t).1 pinned' (runUnembeddedBackfill t.pass d.index).1 := by
  -- a stall without progress pins the floor to what it left, or leaves it
  have hstall : runUnembeddedBackfill t.pass d.index = (d.index.embed t.pass, .stalled false) →
      (t.recounted = false ∨ d.stallRetries + 1 < maxBackfillStallRetries →
        Keeps embeddable d.floor pinned (d.index.embed t.pass)) →
      Keeps embeddable (d.measured t).1 pinned' (runUnembeddedBackfill t.pass d.index).1 := by
    intro hrun hleft
    unfold Driver.measured
    rw [hrun] at hrow ⊢
    dsimp only [applyBackfillOutcome]
    by_cases hretries : maxBackfillStallRetries ≤ d.stallRetries + 1
    · rw [if_pos hretries]
      cases hrecounted : t.recounted with
      | false =>
        rw [if_neg Bool.false_ne_true]
        exact (hleft (.inl hrecounted)).mono hpinned (Finset.Subset.refl _)
      | true =>
        rw [if_pos rfl]
        refine keeps_count fun n hn => ?_
        by_cases hthird : maxBackfillStallRetries ≤ row + 1
        · exact .inr (hrow rfl hretries hthird hrecounted (mem_nodes_of_unembedded hn))
        · exact .inl (hcounted hretries (Nat.lt_of_not_le hthird) n hn)
    · rw [if_neg hretries]
      exact (hleft (.inr (Nat.lt_of_not_le hretries))).mono hpinned (Finset.Subset.refl _)
  cases hending : t.pass.ending with
  | noModel =>
    unfold Driver.measured runUnembeddedBackfill
    rw [hending]
    exact hkeeps.mono hpinned (Finset.Subset.refl _)
  | noVectors =>
    unfold Driver.measured runUnembeddedBackfill
    rw [hending]
    exact keeps_zero
  | yielded =>
    unfold Driver.measured runUnembeddedBackfill
    rw [hending]
    exact (hinterrupted (.inl hending)).mono hpinned (Finset.Subset.refl _)
  -- A failed pass counts as a stall without progress.
  | failed =>
    refine hstall ?_ fun _ => hinterrupted (.inr (.inl hending))
    unfold runUnembeddedBackfill
    rw [hending]
  | finished =>
    have hrun : runUnembeddedBackfill t.pass d.index = (d.index.embed t.pass,
        if (d.index.embed t.pass).unembedded = ∅ then .drained
        else .stalled (decide (d.index.embeds t.pass ≠ ∅))) := by
      unfold runUnembeddedBackfill
      rw [hending]
    -- With nothing left the floor is zero.
    by_cases hdrained : (d.index.embed t.pass).unembedded = ∅
    · rw [if_pos hdrained] at hrun
      unfold Driver.measured
      rw [hrun]
      exact keeps_zero
    · rw [if_neg hdrained] at hrun
      by_cases hprogress : d.index.embeds t.pass = ∅
      · rw [decide_eq_false (not_not_intro hprogress)] at hrun
        exact hstall hrun fun _ => hkeeps.mono (Finset.Subset.refl _) (unembedded_embed_of_none hprogress)
      · -- the model works, so what is left cannot be embedded
        rw [decide_eq_true hprogress] at hrun
        unfold Driver.measured
        rw [hrun]
        dsimp only [applyBackfillOutcome]
        cases hrecounted : t.recounted with
        | false =>
          rw [if_neg Bool.false_ne_true]
          exact (hinterrupted (.inr (.inr hrecounted))).mono hpinned (Finset.Subset.refl _)
        | true =>
          rw [if_pos rfl]
          exact keeps_count fun n hn => .inl (hworks hending hprogress n hn)

/-! ### Runs -/

/-- The floor stands for stuck nodes. -/
def State.Sound (embeddable : ℕ → Prop) [DecidablePred embeddable] (s : State) : Prop :=
  Keeps embeddable s.driver.floor s.pinned s.driver.index

theorem State.Sound.step {a : Action} (h : s.Sound embeddable) (hworks : WorksIn embeddable s a)
    (hcareful : Careful embeddable s a) (hstep : s.step a = some s') : s'.Sound embeddable := by
  cases a with
  | others index =>
    obtain rfl := Option.some.inj hstep
    exact hcareful
  | tick t =>
    unfold State.step at hstep
    dsimp only at hstep
    obtain rfl := Option.some.inj hstep
    -- a tick that runs no pass changes nothing
    rcases tick_cases s.driver t with htick | htick
    · have hpins : s.pins t = false := by
        unfold State.pins
        rw [htick]
        rfl
      unfold State.Sound
      rw [htick, hpins]
      exact h
    · unfold State.Sound
      dsimp only
      rw [htick]
      dsimp only
      refine keeps_measured s.row h hworks hcareful.1 hcareful.2 ?_ ?_
      · split_ifs with hpins
        · exact Finset.subset_union_left
        · exact Finset.Subset.refl _
      · intro houtcome hretries hthird hrecounted
        have hpins : s.pins t = true := by
          unfold State.pins
          rw [htick, houtcome, decide_eq_true hretries, decide_eq_true hthird, hrecounted]
          rfl
        rw [if_pos hpins]
        have hnodes : (runUnembeddedBackfill t.pass s.driver.index).1.nodes = s.driver.index.nodes := by
          unfold runUnembeddedBackfill
          cases t.pass.ending with
          | _ => rfl
        rw [hnodes]
        exact Finset.subset_union_right

/-- A sound driver drains. -/
theorem State.Sound.drains (h : s.Sound embeddable) : s.Drains embeddable := by
  rintro t hopened hcounted hfree ⟨n, hn, hembeddable, hpinned⟩
  refine tick_isSome hopened hcounted hfree ?_
  -- the node is without a vector, and not stuck
  have hlt : (stuck embeddable s.pinned s.driver.index).card < s.driver.index.unembedded.card := by
    refine Finset.card_lt_card ⟨Finset.filter_subset _ _, fun hsub => ?_⟩
    rcases (Finset.mem_filter.mp (hsub hn)).2 with hnot | hmem
    · exact hnot hembeddable
    · exact hpinned hmem
  unfold State.Sound Keeps at h
  unfold Index.count
  omega

/-- In every run whose steps are careful, a tick that can drains the index whenever it holds a node to embed. -/
theorem no_stranding (embeddable : ℕ → Prop) [DecidablePred embeddable] (index : Index) (as : List Action) (s : State)
    (hrun : run State.step (.start index) as = some s)
    (hworks : AllSteps State.step (WorksIn embeddable) (.start index) as)
    (hcareful : AllSteps State.step (Careful embeddable) (.start index) as) : s.Drains embeddable := by
  have hboth : AllSteps State.step (fun s a => WorksIn embeddable s a ∧ Careful embeddable s a) (.start index) as :=
    hworks.and hcareful
  have hstart : (State.start index).Sound embeddable := keeps_zero
  have hsound : s.Sound embeddable := hboth.invariant (fun h hstep => h.step hstep.1 hstep.2) hstart hrun
  exact hsound.drains

/-- A drain of two nodes, of which the first cannot be embedded. -/
def firstDrain : Tick := ⟨true, true, true, ⟨false, {2}, .finished⟩, true⟩

theorem works_firstDrain : WorksIn (2 ≤ ·) (.start ⟨{1, 2}, ∅⟩) (.tick firstDrain) := by
  unfold WorksIn Works
  decide

/-- Then a third node is added. -/
theorem no_stranding_added : ∃ s, run State.step (.start ⟨{1, 2}, ∅⟩) [.tick firstDrain, .others ⟨{1, 2, 3}, {2}⟩] =
    some s ∧ s.Drains (2 ≤ ·) := by
  refine ⟨_, rfl, no_stranding (2 ≤ ·) ⟨{1, 2}, ∅⟩ [.tick firstDrain, .others ⟨{1, 2, 3}, {2}⟩] _ rfl ?_ ?_⟩
  · exact .cons works_firstDrain rfl (.cons trivial rfl trivial)
  · refine .cons ?_ rfl (.cons ?_ rfl trivial)
    · refine ⟨?_, by decide⟩
      rintro (h | h | h)
      · cases h
      · cases h
      · cases h
    · unfold Careful Keeps
      decide

/-- The third node is added when the first has been deleted: it is not more than the floor. -/
theorem stranded_of_deleted :
    ¬∀ (embeddable : ℕ → Prop) [DecidablePred embeddable] (index : Index) (as : List Action) (s : State),
      run State.step (.start index) as = some s → AllSteps State.step (WorksIn embeddable) (.start index) as →
      s.Drains embeddable := by
  intro h
  have hdrains := h (2 ≤ ·) ⟨{1, 2}, ∅⟩ [.tick firstDrain, .others ⟨{2, 3}, {2}⟩] _ rfl
    (.cons works_firstDrain rfl (.cons trivial rfl trivial))
  have hsome := hdrains firstDrain rfl rfl rfl ⟨3, by decide, by decide, by decide⟩
  revert hsome
  decide

end CodeGraph.Server.Backfill
