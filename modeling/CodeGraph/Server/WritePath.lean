import CodeGraph.Lib.Run
import Mathlib.Logic.Function.Basic

/-!
# The write path of a server

The flags `embedding_in_progress` and `embedding_yield` of `mcp/server`, and the threads that read and write them:
the one that calls `run_incremental_with_cache_restore`, and any number that call `run_guarded_backfill` or
`run_startup_repair_retrying`. Every load, store and swap of a flag is a step of its own.

A backfill runs under the claim of a repair too, as `run_startup_repair_then_backfill` has it. What a thread does
between two steps on the flags is left open: a backfill may stop anywhere, and a repair may end in any way.
-/

namespace CodeGraph.Server.WritePath

open CodeGraph.Lib

structure Flags where
  /-- `embedding_in_progress`. -/
  inProgress : Bool
  /-- `embedding_yield`. -/
  yield : Bool
  deriving DecidableEq, Repr

/-! ### The incremental -/

/-- Where `run_incremental_with_cache_restore` is. -/
inductive Incremental
  | idle
  /-- It found `embedding_in_progress` set. -/
  | raising
  /-- At the head of the waiting loop. -/
  | waiting
  /-- In the loop, with the flag seen set. -/
  | seenSet
  /-- Past the deadline, the guard `_withdraw` about to be dropped. -/
  | leaving
  /-- The flag seen clear: the block ends, and drops `_withdraw`. -/
  | withdrawing
  /-- In `run_incremental_index_cached`. -/
  | writing (yielded : Bool)
  /-- Past it. -/
  | finishing (yielded : Bool)
  deriving DecidableEq, Repr

inductive IncrementalMove
  | call | raise | look | sleep | giveUp | withdraw | written
  /-- Whether a successful run indexed no file. -/
  | finish (nothingIndexed : Bool)
  deriving DecidableEq, Repr

/-- A step of `run_incremental_with_cache_restore`. -/
def Incremental.step (flags : Flags) : Incremental → IncrementalMove → Option (Flags × Incremental)
  | .idle, .call => some (flags, if flags.inProgress then .raising else .writing false)
  | .raising, .raise => some ({ flags with yield := true }, .waiting)
  | .waiting, .look => some (flags, if flags.inProgress then .seenSet else .withdrawing)
  | .seenSet, .sleep => some (flags, .waiting)
  | .seenSet, .giveUp => some (flags, .leaving)
  | .leaving, .withdraw => some ({ flags with yield := false }, .idle)
  | .withdrawing, .withdraw => some ({ flags with yield := false }, .writing true)
  | .writing yielded, .written => some (flags, .finishing yielded)
  | .finishing yielded, .finish nothingIndexed =>
    some (if yielded && nothingIndexed then { flags with yield := false } else flags, .idle)
  | _, _ => none

/-- It raised `embedding_yield`, has since seen `embedding_in_progress` clear, and is not through with
`run_incremental_index_cached`. -/
def Incremental.hasPath : Incremental → Bool
  | .withdrawing | .writing true => true
  | _ => false

/-! ### Backfills and repairs -/

/-- `STARTUP_REPAIR_ATTEMPTS`. -/
def startupRepairAttempts : ℕ := 5

/-- Where a thread is that backfills or repairs. -/
inductive Worker
  | idle
  /-- `run_guarded_backfill`, before its swap. -/
  | claiming
  /-- `claim_for_repair`, before it loads `embedding_yield`. -/
  | asking (attempt : ℕ)
  /-- `claim_for_repair`, before its swap. -/
  | taking (attempt : ℕ)
  | repairing (attempt : ℕ)
  /-- `run_startup_repair_retrying` has returned its guard. -/
  | repaired
  /-- A backfill before its loop. -/
  | opening
  /-- At the head of the loop, before it loads `embedding_yield`. -/
  | checking
  /-- Past the check. `late` tells that the incremental had the path then. -/
  | fetching (late : Bool)
  | embedding (late : Bool)
  /-- The guard is about to be dropped; a repair that is to be tried again goes on with that attempt. -/
  | releasing (retry : Option ℕ)
  deriving DecidableEq, Repr

inductive Outcome
  | ok | busy | failed | panicked
  deriving DecidableEq, Repr

inductive WorkerMove
  | callBackfill | callRepair | ask | swap
  | repair (outcome : Outcome)
  | backfill | opened | check | fetch | embed
  /-- Out of the backfill, or of `run_startup_repair_then_backfill` in a build without one. -/
  | stop
  | release
  deriving DecidableEq, Repr

/-- A step of a worker. `hasPath` is that of the incremental, and is recorded only. -/
def Worker.step (hasPath : Bool) (flags : Flags) : Worker → WorkerMove → Option (Flags × Worker)
  | .idle, .callBackfill => some (flags, .claiming)
  | .idle, .callRepair => some (flags, .asking 1)
  | .claiming, .swap =>
    some (if flags.inProgress then (flags, .idle) else ({ flags with inProgress := true }, .opening))
  | .asking attempt, .ask => some (flags, if flags.yield then .asking attempt else .taking attempt)
  | .taking attempt, .swap =>
    some (if flags.inProgress then (flags, .asking attempt)
      else ({ flags with inProgress := true }, .repairing attempt))
  | .repairing attempt, .repair outcome =>
    some (flags, if outcome = .busy ∧ attempt < startupRepairAttempts then .releasing (some (attempt + 1))
      else .repaired)
  | .repaired, .backfill => some (flags, .opening)
  | .opening, .opened => some (flags, .checking)
  | .checking, .check => some (flags, if flags.yield then .releasing none else .fetching hasPath)
  | .fetching late, .fetch => some (flags, .embedding late)
  | .embedding _, .embed => some (flags, .checking)
  | .repaired, .stop | .opening, .stop | .fetching _, .stop | .embedding _, .stop => some (flags, .releasing none)
  | .releasing retry, .release =>
    some ({ flags with inProgress := false }, match retry with
      | some attempt => .asking attempt
      | none => .idle)
  | _, _ => none

/-- The thread has a `FlagGuard`. -/
def Worker.holds : Worker → Bool
  | .idle | .claiming | .asking _ | .taking _ => false
  | _ => true

/-! ### The system -/

variable {Tid : Type*} [DecidableEq Tid]

structure State (Tid : Type*) where
  flags : Flags
  incremental : Incremental
  workers : Tid → Worker

def State.init : State Tid := ⟨⟨false, false⟩, .idle, fun _ => .idle⟩

inductive Action (Tid : Type*)
  | incremental (move : IncrementalMove)
  | worker (t : Tid) (move : WorkerMove)
  deriving DecidableEq

def step (s : State Tid) : Action Tid → Option (State Tid)
  | .incremental move =>
    (s.incremental.step s.flags move).map fun (flags, incremental) =>
      { s with flags := flags, incremental := incremental }
  | .worker t move =>
    ((s.workers t).step s.incremental.hasPath s.flags move).map fun (flags, worker) =>
      { s with flags := flags, workers := Function.update s.workers t worker }

/-- No startup repair runs, and no backfill embeds a batch it started while the incremental had the path. -/
def State.Undisturbed (s : State Tid) : Prop :=
  s.incremental.hasPath → ∀ t, (∀ attempt, s.workers t ≠ .repairing attempt) ∧ s.workers t ≠ .embedding true

/-! ### Schedules -/

/-- The request to yield stands after these actions, the latest first: it was raised and not withdrawn since. -/
def requested : List (Action Tid) → Bool
  | [] => false
  | .incremental .raise :: _ => true
  | .incremental .withdraw :: _ => false
  | _ :: past => requested past

/-- The last time that `t` asked, the request stood. -/
def askedUnderRequest (t : Tid) : List (Action Tid) → Bool
  | [] => false
  | .worker u .ask :: past => if u = t then requested past else askedUnderRequest t past
  | _ :: past => askedUnderRequest t past

/-- The action keeps clear of the gaps in the request. No backfill comes to its check between the drop of `_withdraw`
and the end of `run_incremental_index_cached`, and no repair, while the incremental has the path, comes to its swap
from an `ask` before the raise or after that drop. -/
def KeepsClear (s : State Tid) (past : List (Action Tid)) : Action Tid → Prop
  | .worker t .check => s.workers t = .checking → s.incremental ≠ .writing true
  | .worker t .swap =>
    s.incremental.hasPath → (∃ attempt, s.workers t = .taking attempt) → askedUnderRequest t past = true
  | _ => True

end CodeGraph.Server.WritePath
