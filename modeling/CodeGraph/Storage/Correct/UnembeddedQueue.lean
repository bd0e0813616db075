import CodeGraph.Lib.Run
import CodeGraph.Storage.UnembeddedQueue
import Mathlib.Data.Finset.Dedup

/-!
# What the queue hands out

What a queue has still to hand out are the ids behind its position that are not excluded, `todo`. As long as nothing
but the caller writes, all of them wait for a vector and no other node does (`Ready`), so a call hands out the first
of them and keeps the rest (`nextChunk_ready`): over a whole run the chunks are the beginning of the first snapshot,
one after another. That a call ends does not depend on who writes in between (`nextChunk_ends`): of a snapshot just
taken `fetch` drops nothing, so the loop takes at most one.
-/

namespace CodeGraph.Storage.UnembeddedQueue

open CodeGraph.Lib CodeGraph.Storage.Vectors

variable {Key Vec : Type} {targets : List ℕ} {R : Ranking targets} {t : Tables Key Vec} {exclude : Finset ℕ}
  {limit fuel id : ℕ} {ids l : List ℕ} {q q' : Queue} {rows : List (ℕ × String)}

/-! ### The window -/

/-- The ids that are not excluded. -/
def allowed (exclude : Finset ℕ) (ids : List ℕ) : List ℕ := ids.filter fun id => id ∉ exclude

theorem window_ids (exclude : Finset ℕ) (limit : ℕ) (l : List ℕ) :
    (window exclude limit l).2 = (allowed exclude l).take limit := by
  unfold allowed
  induction l generalizing limit with
  | nil => cases limit <;> rfl
  | cons id l ih =>
    cases limit with
    | zero => rfl
    | succ limit =>
      rw [window]
      by_cases hid : id ∈ exclude
      · rw [if_pos hid, List.filter_cons_of_neg (by simpa using hid)]
        exact ih (limit + 1)
      · rw [if_neg hid, List.filter_cons_of_pos (by simpa using hid), List.take_succ_cons]
        exact congrArg (id :: ·) (ih limit)

theorem window_rest (exclude : Finset ℕ) (limit : ℕ) (l : List ℕ) :
    allowed exclude (l.drop (window exclude limit l).1) = (allowed exclude l).drop limit := by
  unfold allowed
  induction l generalizing limit with
  | nil => cases limit <;> simp [window]
  | cons id l ih =>
    cases limit with
    | zero => rfl
    | succ limit =>
      rw [window]
      by_cases hid : id ∈ exclude
      · rw [if_pos hid, List.filter_cons_of_neg (by simpa using hid), List.drop_succ_cons]
        exact ih (limit + 1)
      · rw [if_neg hid, List.filter_cons_of_pos (by simpa using hid), List.drop_succ_cons, List.drop_succ_cons]
        exact ih limit

theorem window_pos (exclude : Finset ℕ) (hlimit : 0 < limit) (hl : l ≠ []) : 0 < (window exclude limit l).1 := by
  obtain ⟨limit, rfl⟩ := Nat.exists_eq_succ_of_ne_zero hlimit.ne'
  cases l with
  | nil => exact absurd rfl hl
  | cons id l =>
    rw [window]
    split_ifs with hid
    · exact Nat.succ_pos _
    · exact Nat.succ_pos _

/-! ### Rows -/

theorem fetch_eq_nil_iff : fetch t ids = [] ↔ ∀ id ∈ ids, pending t id = none := by
  unfold fetch
  rw [List.filterMap_eq_nil_iff]
  simp

theorem map_fst_fetch (h : ∀ id ∈ ids, pending t id ≠ none) : (fetch t ids).map Prod.fst = ids := by
  unfold fetch
  induction ids with
  | nil => rfl
  | cons id ids ih =>
    obtain ⟨context, hcontext⟩ := Option.ne_none_iff_exists'.mp (h id List.mem_cons_self)
    rw [List.filterMap_cons_some (by rw [hcontext]; rfl), List.map_cons, ih fun i hi => h i (List.mem_cons_of_mem _ hi)]

theorem mem_fetch {row : ℕ × String} : row ∈ fetch t ids ↔ row.1 ∈ ids ∧ pending t row.1 = some row.2 := by
  unfold fetch
  rw [List.mem_filterMap]
  constructor
  · rintro ⟨id, hid, hrow⟩
    obtain ⟨context, hcontext, rfl⟩ := Option.map_eq_some_iff.mp hrow
    exact ⟨hid, hcontext⟩
  · rintro ⟨hid, hcontext⟩
    exact ⟨row.1, hid, by rw [hcontext]; rfl⟩

/-! ### The snapshot -/

theorem mem_unembedded : id ∈ unembedded t ↔ pending t id ≠ none := by
  unfold unembedded
  rw [List.mem_filter, Option.isSome_iff_ne_none]
  refine ⟨fun h => h.2, fun h => ⟨?_, h⟩⟩
  unfold pending at h
  split_ifs at h with hvector
  · exact absurd rfl h
  · by_contra hmem
    rw [← AList.mem_keys] at hmem
    rw [AList.lookup_eq_none.mpr hmem] at h
    exact h rfl

theorem mem_rebuild : id ∈ (rebuild R t).ranked ↔ pending t id ≠ none := by
  rw [rebuild, (R.perm _).mem_iff, mem_unembedded]

theorem nodup_rebuild : (rebuild R t).ranked.Nodup := by
  rw [rebuild, (R.perm _).nodup_iff]
  exact t.nodes.keys_nodup.filter _

/-- What is left of a snapshot. -/
def left (q : Queue) : List ℕ := q.ranked.drop q.pos

/-! ### A call ends -/

/-- Nothing that is left of the snapshot has been embedded. -/
def Fresh (t : Tables Key Vec) (q : Queue) : Prop := ∀ id ∈ left q, pending t id ≠ none

/-- Where a turn that serves gets to. -/
def served (exclude : Finset ℕ) (limit : ℕ) (q : Queue) : Queue :=
  ⟨q.ranked, q.pos + (window exclude limit (left q)).1,
    if (window exclude limit (left q)).2 = [] then q.offeredCandidates else true⟩

theorem serve_fst : (serve t exclude limit q).1 = served exclude limit q := by
  unfold serve served left
  dsimp only
  split_ifs with hids hrows
  · rfl
  · rfl
  · rfl

/-- The rows of a turn are those of its candidates. -/
theorem serve_eq_some (h : (serve t exclude limit q).2 = some rows) :
    rows = fetch t (window exclude limit (left q)).2 := by
  unfold serve at h
  dsimp only at h
  split_ifs at h with hids hrows
  exact (Option.some.inj h).symm

theorem serve_of_nil (h : (window exclude limit (left q)).2 = []) :
    serve t exclude limit q = (served exclude limit q, none) := by
  refine Prod.ext serve_fst ?_
  unfold left at h
  unfold serve
  dsimp only
  rw [if_pos h]

theorem left_served : left (served exclude limit q) = (left q).drop (window exclude limit (left q)).1 := by
  unfold left
  rw [List.drop_drop]
  rfl

theorem length_left_served (exclude : Finset ℕ) (hlimit : 0 < limit) (hpos : q.pos < q.ranked.length) :
    (left (served exclude limit q)).length < (left q).length := by
  have hne : left q ≠ [] := by
    unfold left
    rw [Ne, List.drop_eq_nil_iff]
    omega
  have hlength : 0 < (left q).length := List.length_pos_iff.mpr hne
  rw [left_served, List.length_drop]
  have := window_pos exclude hlimit hne
  omega

theorem Fresh.served (h : Fresh t q) (exclude : Finset ℕ) (limit : ℕ) : Fresh t (served exclude limit q) := by
  intro id hid
  rw [left_served] at hid
  exact h id (List.mem_of_mem_drop hid)

theorem fresh_rebuild : Fresh t (rebuild R t) := fun _ hid => mem_rebuild.mp hid

/-- Of a fresh snapshot no candidate is dropped, so a turn without rows had no candidate. -/
theorem Fresh.serve_none (h : Fresh t q) (hnone : (serve t exclude limit q).2 = none) :
    (window exclude limit (left q)).2 = [] := by
  by_contra hids
  unfold serve left at *
  dsimp only at hnone
  rw [if_neg hids] at hnone
  have hrows : fetch t (window exclude limit (q.ranked.drop q.pos)).2 ≠ [] := by
    rw [Ne, fetch_eq_nil_iff]
    intro hdropped
    obtain ⟨id, hid⟩ := List.exists_mem_of_ne_nil _ hids
    refine h id ?_ (hdropped id hid)
    rw [window_ids] at hid
    exact List.mem_of_mem_filter (List.mem_of_mem_take hid)
  rw [if_neg hrows] at hnone
  cases hnone

theorem turn_of_lt (h : q.pos < q.ranked.length) : turn R t exclude limit q = serve t exclude limit q := if_pos h

theorem left_eq_nil (h : ¬q.pos < q.ranked.length) : left q = [] := List.drop_eq_nil_of_le (Nat.le_of_not_lt h)

/-- A fresh snapshot that has not offered anything is the last one of the call. -/
theorem loop_fresh (hlimit : 0 < limit) (hfresh : Fresh t q) (hoffered : q.offeredCandidates = false)
    (hfuel : (left q).length < fuel) : (nextChunkLoop R t exclude limit fuel q).isSome := by
  induction fuel generalizing q with
  | zero => omega
  | succ fuel ih =>
    rw [nextChunkLoop]
    by_cases hpos : q.pos < q.ranked.length
    · rw [turn_of_lt hpos]
      rcases hserve : serve t exclude limit q with ⟨q', _ | rows⟩
      · have hids := hfresh.serve_none (congrArg Prod.snd hserve)
        obtain rfl : served exclude limit q = q' := serve_fst.symm.trans (congrArg Prod.fst hserve)
        have hshorter := length_left_served exclude hlimit hpos
        refine ih (hfresh.served exclude limit) ?_ (by omega)
        rw [served, if_pos hids]
        exact hoffered
      · rfl
    · unfold turn
      rw [if_neg hpos]
      by_cases hempty : q.ranked = []
      · rw [if_pos hempty]
        rfl
      · rw [if_neg hempty, if_pos hoffered]
        rfl

/-- How many turns a call can take: through what is left of the snapshot, and through one more. -/
def turns (t : Tables Key Vec) (q : Queue) : ℕ := (left q).length + (unembedded t).length + 2

theorem length_left_rebuild : (left (rebuild R t)).length = (unembedded t).length := (R.perm _).length_eq

/-- Every call ends, from whatever snapshot and position. -/
theorem loop_ends (hlimit : 0 < limit) (hfuel : turns t q ≤ fuel) :
    (nextChunkLoop R t exclude limit fuel q).isSome := by
  unfold turns at hfuel
  induction fuel generalizing q with
  | zero => omega
  | succ fuel ih =>
    rw [nextChunkLoop]
    by_cases hpos : q.pos < q.ranked.length
    · rw [turn_of_lt hpos]
      rcases hserve : serve t exclude limit q with ⟨q', _ | rows⟩
      · obtain rfl : served exclude limit q = q' := serve_fst.symm.trans (congrArg Prod.fst hserve)
        have hshorter := length_left_served exclude hlimit hpos
        exact ih (by omega)
      · rfl
    · unfold turn
      rw [if_neg hpos]
      by_cases hempty : q.ranked = []
      · rw [if_pos hempty]
        rfl
      · rw [if_neg hempty]
        by_cases hoffered : q.offeredCandidates = false
        · rw [if_pos hoffered]
          rfl
        · rw [if_neg hoffered]
          dsimp only
          by_cases hnew : (rebuild R t).ranked = []
          · rw [if_pos hnew]
            rfl
          · rw [if_neg hnew]
            -- the new snapshot is fresh
            rcases hserve : serve t exclude limit (rebuild R t) with ⟨q', _ | rows⟩
            · have hids := (fresh_rebuild (R := R)).serve_none (congrArg Prod.snd hserve)
              obtain rfl : served exclude limit (rebuild R t) = q' := serve_fst.symm.trans (congrArg Prod.fst hserve)
              have hlt : (rebuild R t).pos < (rebuild R t).ranked.length := List.length_pos_iff.mpr hnew
              have hshorter := length_left_served exclude hlimit hlt
              rw [length_left_rebuild] at hshorter
              refine loop_fresh hlimit (fresh_rebuild.served exclude limit) ?_ (by omega)
              rw [served, if_pos hids]
              rfl
            · rfl

theorem maxInParams_pos : 0 < maxInParams := by decide

theorem nextChunk_ends (hfuel : turns t q ≤ fuel) : (nextChunk R t exclude limit fuel q).isSome := by
  unfold nextChunk
  split_ifs with hzero
  · rfl
  · exact loop_ends (Nat.lt_min.mpr ⟨Nat.pos_of_ne_zero hzero, maxInParams_pos⟩) hfuel

/-! ### What a call hands out -/

/-- What the queue has still to hand out. -/
def todo (exclude : Finset ℕ) (q : Queue) : List ℕ := allowed exclude (left q)

/-- What is left of the snapshot waits for a vector, and apart from the excluded nodes nothing else does. -/
structure Ready (t : Tables Key Vec) (exclude : Finset ℕ) (q : Queue) : Prop where
  nodup : (left q).Nodup
  fresh : Fresh t q
  complete : ∀ id, pending t id ≠ none → id ∉ exclude → id ∈ left q

theorem mem_todo : id ∈ todo exclude q ↔ id ∈ left q ∧ id ∉ exclude := by
  unfold todo allowed
  rw [List.mem_filter, decide_eq_true_eq]

theorem ready_rebuild (exclude : Finset ℕ) : Ready t exclude (rebuild R t) :=
  ⟨nodup_rebuild, fresh_rebuild, fun _ hid _ => mem_rebuild.mpr hid⟩

theorem todo_served : todo exclude (served exclude limit q) = (todo exclude q).drop limit := by
  unfold todo
  rw [left_served, window_rest]

/-- With nothing to hand out all nodes that wait are excluded, so any snapshot of them is ready. -/
theorem Ready.of_todo_nil (h : Ready t exclude q) (htodo : todo exclude q = []) (hnodup : (left q').Nodup)
    (hfresh : Fresh t q') : Ready t exclude q' ∧ todo exclude q' = [] := by
  have hwaits : ∀ id, pending t id ≠ none → id ∈ exclude := by
    intro id hid
    by_contra hout
    have hmem := mem_todo.mpr ⟨h.complete id hid hout, hout⟩
    rw [htodo] at hmem
    cases hmem
  refine ⟨⟨hnodup, hfresh, fun id hid hout => absurd (hwaits id hid) hout⟩, ?_⟩
  rw [List.eq_nil_iff_forall_not_mem]
  intro id hid
  obtain ⟨hleft, hout⟩ := mem_todo.mp hid
  exact hout (hwaits id (hfresh id hleft))

theorem nodup_served (h : (left q).Nodup) (exclude : Finset ℕ) (limit : ℕ) : (left (served exclude limit q)).Nodup := by
  rw [left_served]
  exact h.sublist (List.drop_sublist _ _)

/-- A ready queue hands out the next of its nodes. -/
theorem loop_ready (hready : Ready t exclude q) (hlimit : 0 < limit)
    (h : nextChunkLoop R t exclude limit fuel q = some (q', rows)) :
    rows = fetch t ((todo exclude q).take limit) ∧ (left q').Nodup ∧ Fresh t q' ∧
      todo exclude q' = (todo exclude q).drop limit := by
  induction fuel generalizing q with
  | zero => cases h
  | succ fuel ih =>
    rw [nextChunkLoop] at h
    -- a turn without rows had nothing to hand out
    have hround : ∀ q₁, Ready t exclude q₁ → todo exclude q = [] → todo exclude q₁ = [] →
        nextChunkLoop R t exclude limit fuel q₁ = some (q', rows) →
        rows = fetch t ((todo exclude q).take limit) ∧ (left q').Nodup ∧ Fresh t q' ∧
          todo exclude q' = (todo exclude q).drop limit := by
      intro q₁ hq₁ htodo htodo₁ hrest
      have hih := ih hq₁ hrest
      rwa [htodo₁, ← htodo] at hih
    by_cases hpos : q.pos < q.ranked.length
    · rw [turn_of_lt hpos] at h
      rcases hserve : serve t exclude limit q with ⟨q₁, _ | rows₁⟩
      · have hids := hready.fresh.serve_none (congrArg Prod.snd hserve)
        obtain rfl : served exclude limit q = q₁ := serve_fst.symm.trans (congrArg Prod.fst hserve)
        rw [hserve] at h
        have htodo : todo exclude q = [] := by
          rw [window_ids, List.take_eq_nil_iff] at hids
          exact hids.resolve_left hlimit.ne'
        obtain ⟨hnext, htodo₁⟩ := hready.of_todo_nil htodo (nodup_served hready.nodup exclude limit)
          (hready.fresh.served exclude limit)
        exact hround _ hnext htodo htodo₁ h
      · rw [hserve] at h
        obtain ⟨rfl, rfl⟩ := Prod.mk.inj (Option.some.inj h)
        obtain rfl : served exclude limit q = q₁ := serve_fst.symm.trans (congrArg Prod.fst hserve)
        refine ⟨?_, nodup_served hready.nodup exclude limit, hready.fresh.served exclude limit, todo_served⟩
        rw [serve_eq_some (congrArg Prod.snd hserve), window_ids]
        rfl
    · have htodo : todo exclude q = [] := by
        unfold todo
        rw [left_eq_nil hpos]
        rfl
      have hstop : ∀ q₁, Ready t exclude q₁ → todo exclude q₁ = [] → some (q₁, []) = some (q', rows) →
          rows = fetch t ((todo exclude q).take limit) ∧ (left q').Nodup ∧ Fresh t q' ∧
            todo exclude q' = (todo exclude q).drop limit := by
        intro q₁ hq₁ htodo₁ heq
        obtain ⟨rfl, rfl⟩ := Prod.mk.inj (Option.some.inj heq)
        rw [htodo, htodo₁, List.take_nil, List.drop_nil]
        exact ⟨rfl, hq₁.nodup, hq₁.fresh, rfl⟩
      have hnew : Ready t exclude (rebuild R t) ∧ todo exclude (rebuild R t) = [] :=
        hready.of_todo_nil htodo nodup_rebuild fresh_rebuild
      unfold turn at h
      rw [if_neg hpos] at h
      by_cases hempty : q.ranked = []
      · rw [if_pos hempty] at h
        exact hstop q hready htodo h
      · rw [if_neg hempty] at h
        by_cases hoffered : q.offeredCandidates = false
        · rw [if_pos hoffered] at h
          exact hstop q hready htodo h
        · rw [if_neg hoffered] at h
          dsimp only at h
          by_cases hnone : (rebuild R t).ranked = []
          · rw [if_pos hnone] at h
            exact hstop _ hnew.1 hnew.2 h
          · rw [if_neg hnone] at h
            have hids : (window exclude limit (left (rebuild R t))).2 = [] := by
              rw [window_ids]
              show (todo exclude (rebuild R t)).take limit = []
              rw [hnew.2, List.take_nil]
            rw [serve_of_nil hids] at h
            obtain ⟨hnext, htodo₁⟩ := hready.of_todo_nil htodo (nodup_served hnew.1.nodup exclude limit)
              (hnew.1.fresh.served exclude limit)
            exact hround _ hnext htodo htodo₁ h

theorem nextChunk_ready (hready : Ready t exclude q) (hlimit : 0 < limit)
    (h : nextChunk R t exclude limit fuel q = some (q', rows)) :
    rows = fetch t ((todo exclude q).take (min limit maxInParams)) ∧ (left q').Nodup ∧ Fresh t q' ∧
      todo exclude q' = (todo exclude q).drop (min limit maxInParams) := by
  unfold nextChunk at h
  rw [if_neg hlimit.ne'] at h
  exact loop_ready hready (Nat.lt_min.mpr ⟨hlimit, maxInParams_pos⟩) h

/-! ### The caller -/

/-- A call, and the vectors that the caller stores for some of the nodes it gets. -/
structure Call (Vec : Type) where
  limit : ℕ
  stored : List (ℕ × Vec)

/-- A caller with the tables, the nodes it skips, its queue and the chunks that it has got. -/
structure Drain (Key Vec : Type) where
  tables : Tables Key Vec
  exclude : Finset ℕ
  queue : Queue
  chunks : List (List (ℕ × String))

def Drain.start (R : Ranking targets) (t : Tables Key Vec) (exclude : Finset ℕ) : Drain Key Vec :=
  ⟨t, exclude, rebuild R t, []⟩

/-- The ids that have been handed out. -/
def Drain.returned (s : Drain Key Vec) : List ℕ := s.chunks.flatten.map Prod.fst

/-- A chunk is asked for, and each node of it gets its vector or is skipped from then on. -/
def Drain.step (R : Ranking targets) (s : Drain Key Vec) (c : Call Vec) : Option (Drain Key Vec) :=
  (nextChunk R s.tables s.exclude c.limit (turns s.tables s.queue) s.queue).bind fun answer =>
    let chunk := answer.2.map Prod.fst
    let done := c.stored.map Prod.fst
    if done ⊆ chunk then
      some ⟨{ s.tables with vectors := insertAll c.stored s.tables.vectors },
        s.exclude ∪ (chunk.filter fun id => id ∉ done).toFinset, answer.1, s.chunks ++ [answer.2]⟩
    else none

variable {s s' : Drain Key Vec} {c : Call Vec} {calls : List (Call Vec)} {es : List (ℕ × Vec)}

theorem pending_store : pending { t with vectors := insertAll es t.vectors } id =
    if id ∈ es.map Prod.fst then none else pending t id := by
  have hmem : id ∈ insertAll es t.vectors ↔ id ∈ es.map Prod.fst ∨ id ∈ t.vectors := by
    rw [← AList.lookup_isSome, ← AList.lookup_isSome]
    constructor
    · intro h
      obtain ⟨v, hv⟩ := Option.isSome_iff_exists.mp h
      rcases mem_of_lookup_insertAll hv with hes | hold
      · exact .inl (List.mem_map.mpr ⟨_, hes, rfl⟩)
      · exact .inr (Option.isSome_iff_exists.mpr ⟨v, hold⟩)
    · rintro (h | h)
      · obtain ⟨e, he, rfl⟩ := List.mem_map.mp h
        exact isSome_lookup_insertAll (b := e.2) (.inl he)
      · obtain ⟨v, hv⟩ := Option.isSome_iff_exists.mp h
        exact isSome_lookup_insertAll (.inr hv)
  unfold pending
  dsimp only
  by_cases hnew : id ∈ es.map Prod.fst
  · rw [if_pos (hmem.mpr (.inl hnew)), if_pos hnew]
  · rw [if_neg hnew]
    exact if_congr (hmem.trans (or_iff_right hnew)) rfl rfl

/-- What a step makes of a ready queue. -/
theorem Drain.step_eq_some (hready : Ready s.tables s.exclude s.queue) (hlimit : 0 < c.limit)
    (h : s.step R c = some s') :
    Ready s'.tables s'.exclude s'.queue ∧
      s'.returned ++ todo s'.exclude s'.queue = s.returned ++ todo s.exclude s.queue ∧
      ∃ chunk, s'.chunks = s.chunks ++ [chunk] := by
  obtain ⟨⟨q, rows⟩, hnext, h⟩ := Option.bind_eq_some_iff.mp h
  dsimp only at h
  by_cases hsub : c.stored.map Prod.fst ⊆ rows.map Prod.fst
  · rw [if_pos hsub] at h
    obtain rfl := Option.some.inj h
    obtain ⟨hrows, hnodup, hfresh, htodo⟩ := nextChunk_ready hready hlimit hnext
    have hwaiting : ∀ id ∈ (todo s.exclude s.queue).take (min c.limit maxInParams), pending s.tables id ≠ none :=
      fun id hid => hready.fresh id (mem_todo.mp (List.mem_of_mem_take hid)).1
    have hids : rows.map Prod.fst = (todo s.exclude s.queue).take (min c.limit maxInParams) := by
      rw [hrows]
      exact map_fst_fetch hwaiting
    have hsplit : rows.map Prod.fst ++ todo s.exclude q = todo s.exclude s.queue := by
      rw [hids, htodo, List.take_append_drop]
    -- what was handed out is not in what is left
    have hout : ∀ id ∈ rows.map Prod.fst, id ∉ left q := by
      intro id hid hleft
      have hmem : id ∈ todo s.exclude s.queue := hsplit ▸ List.mem_append_left _ hid
      have hnd : (rows.map Prod.fst ++ todo s.exclude q).Nodup := hsplit ▸ hready.nodup.filter _
      exact (List.nodup_append.mp hnd).2.2 id hid id (mem_todo.mpr ⟨hleft, (mem_todo.mp hmem).2⟩) rfl
    have hexclude : ∀ id, id ∈ s.exclude ∪ ((rows.map Prod.fst).filter fun id =>
        id ∉ c.stored.map Prod.fst).toFinset ↔ id ∈ s.exclude ∨ id ∈ rows.map Prod.fst ∧ id ∉ c.stored.map Prod.fst := by
      intro id
      rw [Finset.mem_union, List.mem_toFinset, List.mem_filter, decide_eq_true_eq]
    have htodo' : todo (s.exclude ∪ ((rows.map Prod.fst).filter fun id => id ∉ c.stored.map Prod.fst).toFinset) q =
        todo s.exclude q := by
      unfold todo allowed
      refine List.filter_congr fun id hid => ?_
      rw [decide_eq_decide, hexclude, not_or]
      exact and_iff_left fun h => hout id h.1 hid
    refine ⟨⟨hnodup, ?_, ?_⟩, ?_, ⟨rows, rfl⟩⟩
    · intro id hid
      rw [pending_store, if_neg fun hstored => hout id (hsub hstored) hid]
      exact hfresh id hid
    · intro id hid hnot
      rw [pending_store] at hid
      rw [hexclude, not_or] at hnot
      by_cases hstored : id ∈ c.stored.map Prod.fst
      · rw [if_pos hstored] at hid
        exact absurd rfl hid
      · rw [if_neg hstored] at hid
        have hmem : id ∈ todo s.exclude s.queue := mem_todo.mpr ⟨hready.complete id hid hnot.1, hnot.1⟩
        rw [← hsplit] at hmem
        rcases List.mem_append.mp hmem with hchunk | hleft
        · exact absurd ⟨hchunk, hstored⟩ hnot.2
        · exact (mem_todo.mp hleft).1
    · dsimp only
      rw [htodo']
      show ((s.chunks ++ [rows]).flatten.map Prod.fst) ++ _ = _
      rw [List.flatten_append, List.flatten_singleton, List.map_append, List.append_assoc, hsplit]
      rfl
  · rw [if_neg hsub] at h
    cases h

/-- The first snapshot, without what was excluded from the start. -/
def first (R : Ranking targets) (t : Tables Key Vec) (exclude : Finset ℕ) : List ℕ :=
  allowed exclude (rebuild R t).ranked

/-- In a run the queue is ready, and what has been handed out is the beginning of the first snapshot. -/
structure Along (R : Ranking targets) (t : Tables Key Vec) (exclude : Finset ℕ) (s : Drain Key Vec) : Prop where
  ready : Ready s.tables s.exclude s.queue
  split : s.returned ++ todo s.exclude s.queue = first R t exclude

theorem along_of_run (hlimits : ∀ c ∈ calls, 0 < c.limit)
    (hrun : run (Drain.step R) (Drain.start R t exclude) calls = some s) : Along R t exclude s := by
  refine run_invariant_of_forall (I := Along R t exclude) (fun hs hlimit hstep => ?_) ⟨ready_rebuild exclude, rfl⟩
    hlimits hrun
  obtain ⟨hready, hreturned, -⟩ := Drain.step_eq_some hs.ready hlimit hstep
  exact ⟨hready, hreturned.trans hs.split⟩

theorem length_chunks (hrun : run (Drain.step R) s calls = some s') :
    s'.chunks.length = s.chunks.length + calls.length := by
  induction calls generalizing s with
  | nil =>
    rw [run_nil, Option.some_inj] at hrun
    rw [hrun]
    rfl
  | cons c calls ih =>
    obtain ⟨s₁, hstep, hrest⟩ := run_cons_eq_some.mp hrun
    have hone : s₁.chunks.length = s.chunks.length + 1 := by
      obtain ⟨⟨q, rows⟩, -, h⟩ := Option.bind_eq_some_iff.mp hstep
      dsimp only at h
      split_ifs at h with hsub
      obtain rfl := Option.some.inj h
      exact List.length_append
    rw [ih hrest, hone, List.length_cons]
    omega

theorem length_le_flatten {α : Type*} {chunks : List (List α)} (h : ∀ chunk ∈ chunks, chunk ≠ []) :
    chunks.length ≤ chunks.flatten.length := by
  induction chunks with
  | nil => exact Nat.le_refl _
  | cons chunk chunks ih =>
    have hpos : 0 < chunk.length := List.length_pos_iff.mpr (h chunk List.mem_cons_self)
    have hrest := ih fun chunk hchunk => h chunk (List.mem_cons_of_mem _ hchunk)
    rw [List.flatten_cons, List.length_append, List.length_cons]
    omega

/-- At any point of a drain the next call ends; no node has been handed out twice, and the nodes came with the most
called first; the next chunk is no longer than asked for and holds only nodes that wait and are not skipped; it is
empty only when no others wait, and then every node that waited at the start and was not skipped has been handed out;
and of more calls than there were such nodes one has got an empty chunk. -/
theorem queue_drains (R : Ranking targets) (t : Tables Key Vec) (exclude : Finset ℕ) (calls : List (Call Vec))
    (s : Drain Key Vec) (hlimits : ∀ c ∈ calls, 0 < c.limit)
    (hrun : run (Drain.step R) (Drain.start R t exclude) calls = some s) :
    (∀ limit fuel, turns s.tables s.queue ≤ fuel →
      (nextChunk R s.tables s.exclude limit fuel s.queue).isSome) ∧
    s.returned.Nodup ∧ (s.returned.Pairwise fun a b => callers targets b ≤ callers targets a) ∧
    (∀ limit fuel q chunk, 0 < limit → nextChunk R s.tables s.exclude limit fuel s.queue = some (q, chunk) →
      chunk.length ≤ min limit maxInParams ∧
      (∀ row ∈ chunk, row.1 ∉ s.exclude ∧ row.1 ∉ s.returned ∧ pending s.tables row.1 = some row.2) ∧
      (chunk = [] → (∀ id, pending s.tables id ≠ none → id ∈ s.exclude) ∧
        ∀ id, id ∈ s.returned ↔ pending t id ≠ none ∧ id ∉ exclude)) ∧
    ((∀ chunk ∈ s.chunks, chunk ≠ []) → calls.length ≤ (first R t exclude).length) := by
  -- what was returned and what is to do are the first ranking, cut in two
  obtain ⟨hready, hsplit⟩ := along_of_run hlimits hrun
  have hprefix : s.returned.Sublist (rebuild R t).ranked := by
    refine List.Sublist.trans ?_ (List.filter_sublist (p := fun id => id ∉ exclude))
    show s.returned.Sublist (first R t exclude)
    rw [← hsplit]
    exact List.sublist_append_left _ _
  refine ⟨fun limit fuel hfuel => nextChunk_ends hfuel, nodup_rebuild.sublist hprefix, (R.sorted _).sublist hprefix,
    ?_, ?_⟩
  · intro limit fuel q chunk hlimit hnext
    obtain ⟨rfl, -, -, -⟩ := nextChunk_ready hready hlimit hnext
    have hpos : 0 < min limit maxInParams := Nat.lt_min.mpr ⟨hlimit, maxInParams_pos⟩
    refine ⟨?_, ?_, ?_⟩
    · exact (List.length_filterMap_le _ _).trans (List.length_take_le _ _)
    · intro row hrow
      obtain ⟨hid, hcontext⟩ := mem_fetch.mp hrow
      have htodo := List.mem_of_mem_take hid
      refine ⟨(mem_todo.mp htodo).2, fun hreturned => ?_, hcontext⟩
      have hnodup : (s.returned ++ todo s.exclude s.queue).Nodup := by
        rw [hsplit]
        exact nodup_rebuild.filter _
      exact (List.nodup_append.mp hnodup).2.2 _ hreturned _ htodo rfl
    · intro hempty
      rw [fetch_eq_nil_iff] at hempty
      -- a chunk is empty only when nothing is to do, as the next one always has its context
      have htodo : todo s.exclude s.queue = [] := by
        rw [List.eq_nil_iff_forall_not_mem]
        intro id hid
        obtain ⟨id, rest, hcons⟩ := List.exists_cons_of_ne_nil (List.ne_nil_of_mem hid)
        have hmem : id ∈ (todo s.exclude s.queue).take (min limit maxInParams) := by
          obtain ⟨n, hn⟩ := Nat.exists_eq_succ_of_ne_zero hpos.ne'
          rw [hcons, hn, List.take_succ_cons]
          exact List.mem_cons_self
        exact hready.fresh id (mem_todo.mp (List.mem_of_mem_take hmem)).1 (hempty id hmem)
      constructor
      · intro id hid
        by_contra hout
        have hmem := mem_todo.mpr ⟨hready.complete id hid hout, hout⟩
        rw [htodo] at hmem
        cases hmem
      · intro id
        rw [htodo, List.append_nil] at hsplit
        rw [hsplit, first, allowed, List.mem_filter, mem_rebuild, decide_eq_true_eq]
  · intro hchunks
    have hcalls : s.chunks.length = calls.length := by
      rw [length_chunks hrun]
      exact Nat.zero_add _
    -- each call returned a row
    calc calls.length = s.chunks.length := hcalls.symm
      _ ≤ s.chunks.flatten.length := length_le_flatten hchunks
      _ = s.returned.length := (List.length_map _).symm
      _ ≤ (s.returned ++ todo s.exclude s.queue).length := by rw [List.length_append]; omega
      _ = (first R t exclude).length := by rw [hsplit]

/-- Without edges every order will do. -/
def uncalled : Ranking [] := ⟨fun ids => ids, List.Perm.refl, fun _ => List.pairwise_of_forall fun _ _ => Nat.le_refl 0⟩

/-- Two nodes; the first that is handed out is embedded, the second cannot be. -/
def twoNodes : Drain Unit Unit :=
  .start uncalled ⟨(AList.insert 2 (some "b") (AList.insert 1 (some "a") ∅)), ∅, ∅, none⟩ ∅

theorem queue_drains_twoNodes : ∃ s, run (Drain.step uncalled) twoNodes [⟨1, [(2, ())]⟩, ⟨1, []⟩] = some s ∧
    ∀ id, id ∈ s.returned ↔ pending twoNodes.tables id ≠ none ∧ id ∉ (∅ : Finset ℕ) := by
  refine ⟨_, rfl, ?_⟩
  refine ((queue_drains uncalled twoNodes.tables ∅ [⟨1, [(2, ())]⟩, ⟨1, []⟩] _ (by decide) rfl).2.2.2.1 1 3 _ []
    (by decide) rfl).2.2 rfl |>.2

end CodeGraph.Storage.UnembeddedQueue
