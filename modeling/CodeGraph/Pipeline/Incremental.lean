import CodeGraph.Lib.Run
import CodeGraph.Indexer.Merkle
import CodeGraph.Pipeline.PreParse

/-!
# A sequence of incremental runs

`run_incremental_index_cached` of `pipeline/mod.rs`, as far as it decides which files are re-indexed
and under which hash they are stored. A run scans with the cache of the last run that succeeded,
carries the stored hash of every file it skipped forward, diffs, and re-indexes; then it may re-index
further files in fan-out rounds. Other programs write files at any time, so every step of a run comes
with its own answer of the file system.

A run that fails commits what it had committed, any part of its work on any file, and returns no
cache.
-/

namespace CodeGraph.Pipeline.Incremental

open CodeGraph.Lib CodeGraph.Indexer.Merkle CodeGraph.Pipeline.PreParse

variable {Hash Extract : Type} [DecidableEq Hash]

/-- What one run meets: the walk of its scan; the files it re-indexes besides those of the diff (an
interrupted run before it, a verdict of another binary, dependents of a file that came or went); what
the pre-parse of each file reads; and the same for each fan-out round. -/
structure RunInput where
  walk : Walk
  extra : String → Bool
  pre : String → PreRead
  fanOut : List ((String → Bool) × (String → PreRead))

/-- The `blake3_hash` column by path, and the cache the next run is given. -/
structure State (Hash : Type) where
  stored : String → Option Hash
  cache : Option DirectoryCache

/-- The first run is given no cache. -/
def State.start (stored : String → Option Hash) : State Hash := ⟨stored, none⟩

variable (tools : Tools Hash Extract)

/-- The scan's hashes, and the stored ones of the files it saw and did not hash. -/
def currentHashes (st : State Hash) (w : Walk) : String → Option Hash :=
  let (hashes, newCache) := scanDirectoryCached tools.hash w st.cache
  fun path => hashes path <|> if newCache.fileExists path then st.stored path else none

/-- The rows an `index_files` call over the files `on` writes, with the hashes its caller has. -/
def indexRows (hashes : String → Option Hash) (on : String → Bool) (pre : String → PreRead)
    (stored : String → Option Hash) : String → Option Hash := fun path =>
  if on path then (preParse tools path (hashes path) (pre path)).storedHash <|> stored path
  else stored path

/-- The fan-out rounds; `done k path` says whether round `k` got to commit its work on the file. -/
def fanOutRows (hashes : String → Option Hash) (done : ℕ → String → Bool) :
    ℕ → List ((String → Bool) × (String → PreRead)) → (String → Option Hash) →
      String → Option Hash
  | _, [], stored => stored
  | k, (on, pre) :: rounds, stored =>
    fanOutRows hashes done (k + 1) rounds
      (indexRows tools hashes (fun path => on path && done k path) pre stored)

/-- The stored hashes a run leaves: Phase 0 deletes (round 0), the diff is indexed (round 1), and the
fan-out rounds follow. The `<external>` row is never deleted. -/
def runStored (st : State Hash) (i : RunInput) (done : ℕ → String → Bool) : String → Option Hash :=
  let current := currentHashes tools st i.walk
  let diff := computeDiff st.stored current
  let kept := fun path =>
    if diff.deletedFiles path && path != "<external>" && done 0 path then none else st.stored path
  let indexed := indexRows tools current
    (fun path => (decide (diff.Reports path) || i.extra path) && done 1 path) i.pre kept
  fanOutRows tools current done 2 i.fanOut indexed

/-- A run, and whether it succeeded. -/
inductive Event
  | succeeds (i : RunInput)
  | fails (i : RunInput) (done : ℕ → String → Bool)

def step (st : State Hash) : Event → Option (State Hash)
  | .succeeds i => some ⟨runStored tools st i fun _ _ => true, some (newCache i.walk)⟩
  | .fails i done => some ⟨runStored tools st i done, st.cache⟩

end CodeGraph.Pipeline.Incremental
