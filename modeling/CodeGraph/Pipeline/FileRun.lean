import CodeGraph.Lib.Run
import CodeGraph.Indexer.Merkle
import CodeGraph.Pipeline.PreParse

/-!
# One file through one indexing run

The steps an indexing run takes for one file, with the writes of other programs anywhere between
them: the scan hashes the file (or the caller has its stored hash, or none at all), Phase 1a stats it,
reads it and parses what it read, and Phase 1b upserts its row. Each step sees what is on disk then.

`supplied`, `measured` and `written` are ghosts: the bytes whose hash the caller supplied, the bytes
on disk at the stat, and whether the file was written since the bytes of `State.origin` were taken.
-/

namespace CodeGraph.Pipeline.FileRun

open CodeGraph.Lib CodeGraph.Pipeline.PreParse

variable {Hash Extract : Type}

/-- The next step of the run. -/
inductive Phase
  | toScan | toStat | toRead | toCommit | committed
  deriving DecidableEq

structure State (Hash Extract : Type) where
  /-- The contents on disk, none where there is no file. -/
  disk : Option ByteArray
  phase : Phase
  supplied : Option ByteArray
  stat : Option FileMeta
  measured : Option ByteArray
  bytes : Option ByteArray
  row : Option (Outcome Hash Extract)
  written : Bool

def State.start (disk : Option ByteArray) : State Hash Extract :=
  ⟨disk, .toScan, none, none, none, none, none, true⟩

inductive Action
  /-- Another program writes or removes the file. -/
  | write (contents : Option ByteArray)
  /-- The scan hashes the file. -/
  | scan
  /-- The scan skips it, and its stored hash, of `contents`, is carried forward. -/
  | carry (contents : ByteArray)
  /-- The caller has no hash: a full index, or a scan whose read failed. -/
  | noHash
  /-- `metadata` answers, with this modification time. -/
  | stat (modified : Option ℤ)
  | statFails
  /-- The one read that follows the stat. -/
  | read
  | readFails
  /-- The upsert of the row. -/
  | commit

variable (tools : Tools Hash Extract) (path : String)

/-- What the pre-parse met. -/
def State.preRead (s : State Hash Extract) : PreRead := ⟨s.stat, s.bytes⟩

/-- The file is oversize and its hash was supplied: nothing reads it. -/
def State.Unread (s : State Hash Extract) : Prop :=
  s.preRead.Oversize tools ∧ s.supplied.isSome

instance (s : State Hash Extract) : Decidable (s.Unread tools) := inferInstanceAs (Decidable (_ ∧ _))

/-- The bytes the row stands for: those the nodes were extracted from, and for a file set aside those
that were declined, as the stat measured or the read returned them. -/
def State.origin (s : State Hash Extract) : Option ByteArray :=
  if s.preRead.Oversize tools then s.measured else s.bytes

def step (s : State Hash Extract) : Action → Option (State Hash Extract)
  | .write contents => some { s with disk := contents, written := true }
  | .scan =>
    if s.phase = .toScan then some { s with phase := .toStat, supplied := s.disk } else none
  | .carry contents =>
    if s.phase = .toScan then some { s with phase := .toStat, supplied := some contents } else none
  | .noHash => if s.phase = .toScan then some { s with phase := .toStat, supplied := none } else none
  | .stat modified =>
    match s.phase, s.disk with
    | .toStat, some b =>
      some { s with
        phase := .toRead
        stat := some ⟨b.size, modified⟩
        measured := some b
        written := false }
    | _, _ => none
  | .statFails =>
    if s.phase = .toStat then some { s with phase := .toRead, stat := none, measured := none }
    else none
  | .read =>
    match s.phase, s.disk with
    | .toRead, some b =>
      if s.Unread tools then none
      else
        let written := if s.preRead.Oversize tools then s.written else false
        some { s with phase := .toCommit, bytes := some b, written := written }
    | _, _ => none
  | .readFails =>
    if s.phase = .toRead ∧ ¬ s.Unread tools then some { s with phase := .toCommit, bytes := none }
    else none
  | .commit =>
    if s.phase = .toCommit ∨ s.phase = .toRead ∧ s.Unread tools then
      some { s with
        phase := .committed
        row := some (preParse tools path (s.supplied.map tools.hash) s.preRead) }
    else none

end CodeGraph.Pipeline.FileRun
