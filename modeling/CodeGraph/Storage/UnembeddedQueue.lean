import CodeGraph.Storage.Vectors
import Mathlib.Data.Finset.Basic

/-!
# The queue of nodes without a vector

`UnembeddedQueue` of `storage/queries/vectors.rs`. Of an edge only its target matters. The order of nodes that have
equally many callers is the database's, and can be another for every snapshot: a `Ranking` stands for it. A statement
that fails ends the call with its error; here every statement has an answer.
-/

namespace CodeGraph.Storage.UnembeddedQueue

open CodeGraph.Lib CodeGraph.Storage.Vectors

/-- `MAX_IN_PARAMS`. -/
def maxInParams : ℕ := 500

/-- `COUNT(e.target_id)`; `targets` are the targets of the edges. -/
def callers (targets : List ℕ) (id : ℕ) : ℕ := targets.count id

/-- `ORDER BY COUNT(e.target_id) DESC`. -/
structure Ranking (targets : List ℕ) where
  order : List ℕ → List ℕ
  perm : ∀ ids, (order ids).Perm ids
  sorted : ∀ ids, (order ids).Pairwise fun a b => callers targets b ≤ callers targets a

variable {Key Vec : Type}

/-- The context string of a node that has one and has no vector. -/
def pending (t : Tables Key Vec) (id : ℕ) : Option String :=
  if id ∈ t.vectors then none else (t.nodes.lookup id).join

/-- The ids that `rebuild` selects. -/
def unembedded (t : Tables Key Vec) : List ℕ := t.nodes.keys.filter fun id => (pending t id).isSome

structure Queue where
  ranked : List ℕ
  pos : ℕ
  offeredCandidates : Bool
  deriving DecidableEq

variable {targets : List ℕ} (R : Ranking targets) (t : Tables Key Vec) (exclude : Finset ℕ) (limit : ℕ)

/-- `rebuild`. -/
def rebuild : Queue := ⟨R.order (unembedded t), 0, false⟩

/-- The inner loop: how many ids it passes, and those of them that are not excluded. -/
def window (exclude : Finset ℕ) : ℕ → List ℕ → ℕ × List ℕ
  | 0, _ => (0, [])
  | _, [] => (0, [])
  | limit + 1, id :: rest =>
    if id ∈ exclude then
      let w := window exclude (limit + 1) rest
      (w.1 + 1, w.2)
    else
      let w := window exclude limit rest
      (w.1 + 1, id :: w.2)

/-- `fetch`. -/
def fetch (ids : List ℕ) : List (ℕ × String) := ids.filterMap fun id => (pending t id).map fun context => (id, context)

/-- A turn of the outer loop behind the test for a spent snapshot. Without rows the loop goes on. -/
def serve (q : Queue) : Queue × Option (List (ℕ × String)) :=
  let w := window exclude limit (q.ranked.drop q.pos)
  let q := { q with pos := q.pos + w.1 }
  if w.2 = [] then (q, none)
  else
    let q := { q with offeredCandidates := true }
    let rows := fetch t w.2
    if rows = [] then (q, none) else (q, some rows)

/-- A turn of the outer loop. -/
def turn (q : Queue) : Queue × Option (List (ℕ × String)) :=
  if q.pos < q.ranked.length then serve t exclude limit q
  else if q.ranked = [] then (q, some [])
  else if q.offeredCandidates = false then (q, some [])
  else
    let q := rebuild R t
    if q.ranked = [] then (q, some []) else serve t exclude limit q

/-- The outer loop, with a bound on its turns. -/
def nextChunkLoop : ℕ → Queue → Option (Queue × List (ℕ × String))
  | 0, _ => none
  | fuel + 1, q =>
    match turn R t exclude limit q with
    | (q, some rows) => some (q, rows)
    | (q, none) => nextChunkLoop fuel q

/-- `next_chunk`. -/
def nextChunk (fuel : ℕ) (q : Queue) : Option (Queue × List (ℕ × String)) :=
  if limit = 0 then some (q, []) else nextChunkLoop R t exclude (min limit maxInParams) fuel q

end CodeGraph.Storage.UnembeddedQueue
