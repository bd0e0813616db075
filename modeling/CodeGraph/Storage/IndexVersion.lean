import CodeGraph.Lib.Run
import Mathlib.Logic.Function.Basic

/-!
# The version stamp of an index

Connections of binaries of different versions share one index file. `State.step` interleaves what they commit: the
statements of `open_impl_inner` (`storage/db.rs`) on `application_id`, the check at the head of `index_files` and the
savepoint of each of its batches, and the one transaction of `wipe_and_rebuild` (`mcp/server`).

A file row carries the version of the binary that wrote it, which the database itself does not know.
-/

namespace CodeGraph.Storage

open CodeGraph.Lib

/-- The `INDEX_VERSION` of a binary. -/
abbrev IndexVersion := {v : ℕ // 0 < v}

/-- What the connections see of the index file. -/
structure Database where
  /-- The `application_id` pragma, zero in a fresh file. -/
  applicationId : ℕ
  /-- Who wrote the row of a path. -/
  files : String → Option IndexVersion

namespace Database

def fresh : Database where
  applicationId := 0
  files := fun _ => none

/-- `newer_index_version`. -/
def newerIndexVersion (db : Database) (current : IndexVersion) : Option ℕ :=
  if current.1 < db.applicationId then some db.applicationId else none

/-- `DELETE FROM files`. -/
def clear (db : Database) : Database :=
  { db with files := fun _ => none }

def stamp (db : Database) (current : IndexVersion) : Database :=
  { db with applicationId := current }

/-- The commit of a savepoint that drops the rows of `purged` and upserts those of `indexed`. -/
def commit (db : Database) (current : IndexVersion) (indexed purged : List String) : Database :=
  { db with
    files := fun path => if path ∈ indexed then some current else if path ∈ purged then none else db.files path }

@[simp] theorem clear_applicationId (db : Database) : db.clear.applicationId = db.applicationId := rfl

@[simp] theorem clear_files (db : Database) (path : String) : db.clear.files path = none := rfl

@[simp] theorem stamp_applicationId (db : Database) (current : IndexVersion) :
    (db.stamp current).applicationId = current := rfl

@[simp] theorem stamp_files (db : Database) (current : IndexVersion) : (db.stamp current).files = db.files := rfl

@[simp] theorem commit_applicationId (db : Database) (current : IndexVersion) (indexed purged : List String) :
    (db.commit current indexed purged).applicationId = db.applicationId := rfl

/-- A row is there after a commit because the commit wrote it or because it was there before. -/
theorem commit_files {db : Database} {current v : IndexVersion} {indexed purged : List String} {path : String}
    (h : (db.commit current indexed purged).files path = some v) : v = current ∨ db.files path = some v := by
  unfold commit at h
  dsimp only at h
  split_ifs at h
  · exact .inl (Option.some.inj h).symm
  · exact .inr h

end Database

namespace IndexVersion

/-- What `open_impl_inner` does about the version it has read. -/
inductive OpenPlan
  /-- Nothing; the value of `index_version_stale` is in the handle. -/
  | keep (stale : Option ℕ)
  /-- Deletes every row, then stamps. -/
  | wipe
  /-- A fresh index: stamps. -/
  | stamp
  deriving DecidableEq, Repr

/-- `revalidate` is set in the open of an indexer, and clear in that of a reader. -/
def openPlan (stored : ℕ) (current : IndexVersion) (revalidate : Bool) : OpenPlan :=
  if stored ≠ 0 ∧ stored ≠ current then
    if current.1 < stored then
      .keep (some stored)
    else if revalidate then
      .wipe
    else
      .keep (some stored)
  else if stored = 0 then
    .stamp
  else
    .keep none

/-- Where a connection is. -/
inductive Phase
  | closed
  /-- Before the delete transaction of an open. -/
  | wiping
  /-- Before the stamp of an open. -/
  | stamping
  /-- A handle, with its `index_version_stale`. -/
  | opened (stale : Option ℕ)
  /-- In `index_files`, past its check. -/
  | indexing (stale : Option ℕ)
  deriving DecidableEq, Repr

inductive Move
  /-- The open reads `application_id`. -/
  | open (revalidate : Bool)
  | wipe
  | stamp
  /-- `index_files` makes its check. -/
  | index
  /-- One of its savepoints is released. -/
  | batch (indexed purged : List String)
  | finish
  /-- `wipe_and_rebuild`. -/
  | rebuild (indexed : List String)
  /-- The handle is dropped, or the process dies. -/
  | close
  deriving DecidableEq, Repr

def OpenPlan.phase : OpenPlan → Phase
  | .keep stale => .opened stale
  | .wipe => .wiping
  | .stamp => .stamping

/-- One step of a connection of a binary of version `current`. -/
def Phase.step (current : IndexVersion) (db : Database) : Phase → Move → Option (Database × Phase)
  | .closed, .open revalidate => some (db, (openPlan db.applicationId current revalidate).phase)
  | .wiping, .wipe => some (db.clear, .stamping)
  | .stamping, .stamp => some (db.stamp current, .opened none)
  | .opened stale, .index =>
    -- `bail!` where the index is newer
    some (db, if (db.newerIndexVersion current).isSome then .opened stale else .indexing stale)
  | .indexing stale, .batch indexed purged => some (db.commit current indexed purged, .indexing stale)
  | .indexing stale, .finish => some (db, .opened stale)
  | .opened stale, .rebuild indexed =>
    -- the error of `index_files` rolls the delete back
    some (if (db.newerIndexVersion current).isSome then db else db.clear.commit current indexed [], .opened stale)
  | _, .close => some (db, .closed)
  | _, _ => none

variable {Tid : Type*} [DecidableEq Tid]

structure State (Tid : Type*) where
  db : Database
  phase : Tid → Phase

/-- A fresh file that nobody has opened. -/
def State.init : State Tid where
  db := .fresh
  phase := fun _ => .closed

/-- A step of connection `a.1`, whose binary has the version `version a.1`. -/
def State.step (version : Tid → IndexVersion) (s : State Tid) (a : Tid × Move) : Option (State Tid) :=
  ((s.phase a.1).step (version a.1) s.db a.2).map fun (db, phase) =>
    { db, phase := Function.update s.phase a.1 phase }

/-- No file row was written by a binary older than the stamp. -/
def State.Current (s : State Tid) : Prop :=
  0 < s.db.applicationId → ∀ path v, s.db.files path = some v → ¬v.1 < s.db.applicationId

/-- A binary newer than `current` is about to stamp: it has cleared the rows of an older index, or read the stamp
of a fresh one. -/
def State.NewerStamping (version : Tid → IndexVersion) (s : State Tid) (current : IndexVersion) : Prop :=
  ∃ t, s.phase t = .stamping ∧ current.1 < version t

/-! ### Schedules -/

/-- Since `t` made its check a binary newer than its own has wiped or stamped. The actions are those taken, the latest
first. -/
def overtaken (version : Tid → IndexVersion) (t : Tid) : List (Tid × Move) → Bool
  | [] => false
  | (u, .index) :: past => if u = t then false else overtaken version t past
  | (u, .wipe) :: past | (u, .stamp) :: past => decide ((version t).1 < version u) || overtaken version t past
  | _ :: past => overtaken version t past

/-- The action keeps out of the upgrades. No newer binary wipes or stamps between the check of a run and one of its
batches, and no run makes its check, and no index is rebuilt, between the wipe of a newer binary, or its read of a
fresh stamp, and its stamp. -/
def State.InTurn (version : Tid → IndexVersion) (s : State Tid) (past : List (Tid × Move)) : Tid × Move → Prop
  | (t, .batch _ _) => overtaken version t past = false
  | (t, .index) | (t, .rebuild _) => ¬s.NewerStamping version (version t)
  | _ => True

end IndexVersion

end CodeGraph.Storage
