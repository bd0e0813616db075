import Mathlib.Data.Finset.Card
import Mathlib.Data.Finset.SDiff

/-!
# The periodic backfill

The loop of `spawn_periodic_backfill` in `mcp/server/backfill.rs`, with `run_guarded_backfill`,
`run_unembedded_backfill` and `apply_backfill_outcome`. Of the index only the nodes with a context string and those
with a vector matter. How a drain goes is given by the nodes that it embeds and by how it ends; that one which ends by
itself has tried every node without a vector is what its queue is for.
-/

namespace CodeGraph.Server.Backfill

/-- `MAX_BACKFILL_STALL_RETRIES`. -/
def maxBackfillStallRetries : ℕ := 3

inductive BackfillOutcome
  | noModel
  | drained
  | stalled (progressed : Bool)
  | yielded
  deriving DecidableEq

/-- `apply_backfill_outcome`. -/
def applyBackfillOutcome (floor : ℤ) (stallRetries : ℕ) (outcome : BackfillOutcome) (remeasured : ℤ) : ℤ × ℕ :=
  match outcome with
  | .noModel | .yielded => (floor, stallRetries)
  | .drained => (0, 0)
  | .stalled true => (remeasured, 0)
  | .stalled false =>
    let retries := stallRetries + 1
    if maxBackfillStallRetries ≤ retries then (remeasured, 0) else (floor, retries)

/-- The nodes that have a context string, and the nodes that have a vector. -/
structure Index where
  nodes : Finset ℕ
  vectors : Finset ℕ
  deriving DecidableEq

def Index.unembedded (i : Index) : Finset ℕ := i.nodes \ i.vectors

/-- `count_unembedded_nodes`. -/
def Index.count (i : Index) : ℤ := i.unembedded.card

/-- How a drain comes to its end: with an error, without a model, with vectors disabled, at the request to yield, or
because no node is left to try. -/
inductive Ending
  | failed
  | noModel
  | noVectors
  | yielded
  | finished
  deriving DecidableEq

/-- A drain: whether the vectors it finds are those of another model, the nodes that it embeds, and its end. -/
structure Pass where
  stale : Bool
  stored : Finset ℕ
  ending : Ending
  deriving DecidableEq

/-- `ensure_embedding_cache_valid`. -/
def Index.cleared (i : Index) (p : Pass) : Index := { i with vectors := if p.stale then ∅ else i.vectors }

/-- The nodes that the drain embeds. -/
def Index.embeds (i : Index) (p : Pass) : Finset ℕ := p.stored ∩ (i.cleared p).unembedded

/-- What the drain leaves. -/
def Index.embed (i : Index) (p : Pass) : Index :=
  { i with vectors := (i.cleared p).vectors ∪ i.embeds p }

/-- `run_unembedded_backfill` and `run_backfill_reporting_errors`. -/
def runUnembeddedBackfill (p : Pass) (i : Index) : Index × BackfillOutcome :=
  match p.ending with
  | .noModel => (i, .noModel)
  | .noVectors => (i, .drained)
  | .failed => (i.embed p, .stalled false)
  | .yielded => (i.embed p, .yielded)
  | .finished =>
    -- the nodes without a vector are those that failed
    (i.embed p, if (i.embed p).unembedded = ∅ then .drained else .stalled (decide (i.embeds p ≠ ∅)))

/-- What a tick meets: whether the index can be opened and counted, whether no other backfill runs, the drain, and
whether the index can be opened and counted again. -/
structure Tick where
  opened : Bool
  counted : Bool
  free : Bool
  pass : Pass
  recounted : Bool
  deriving DecidableEq

/-- The index, and the variables of the loop. -/
structure Driver where
  index : Index
  floor : ℤ
  stallRetries : ℕ
  deriving DecidableEq

/-- A turn of the loop, and the outcome of the drain if there is one. -/
def Driver.tick (d : Driver) (t : Tick) : Driver × Option BackfillOutcome :=
  if t.opened = false then (d, none)
  else
    let unembedded := if t.counted then d.index.count else d.floor
    if unembedded ≤ d.floor then (d, none)
    else if t.free = false then (d, none)
    else
      let (index, outcome) := runUnembeddedBackfill t.pass d.index
      let remeasured := if t.recounted then index.count else d.floor
      let (floor, stallRetries) := applyBackfillOutcome d.floor d.stallRetries outcome remeasured
      (⟨index, floor, stallRetries⟩, some outcome)

end CodeGraph.Server.Backfill
