import CodeGraph.Lib.Run
import Mathlib.Data.List.Basic

/-!
# The watcher of a server, and the index runs it asks for

`indexer/watcher` and the part of `mcp/server` that decides when a primary rescans: the startup thread, whose result
`consume_startup_index_result` takes and then starts the watcher, and `ensure_indexed` with its incremental.

Edits are counted, so that a scan is known by the number of edits it could see. One step of the main thread runs up
to the next point where what another thread does between makes a difference: the drain of the events is one step with
the store to `pending_incremental` at the head of `run_incremental_with_cache_restore`. What a step cannot tell from
this state (the time that has passed, whether a backfill leaves, how an index run ends) is part of the action.
-/

namespace CodeGraph.Server.Watcher

open CodeGraph.Lib

/-! ### Events -/

/-- `trim_start_matches("./")`. -/
def trimDotSlash : List Char → List Char
  | '.' :: '/' :: rel => trimDotSlash rel
  | rel => rel

/-- `is_ignored_watch_path`. -/
def isIgnoredWatchPath (rel : String) : Bool :=
  let rel := trimDotSlash rel.toList
  [".code-graph", ".git"].any fun dir => rel == dir.toList || (dir.toList ++ ['/']).isPrefixOf rel

/-- `.code-graph.toml` and `.gitignore` are ordinary files. -/
example : (["./.code-graph/index.db", ".git", ".code-graph.toml", ".gitignore"].map isIgnoredWatchPath) =
    [true, true, false, false] := by decide +kernel

/-- `WatchEvent::Changed`. -/
abbrev WatchEvent := List String

/-- `WATCHER_CHANNEL_BOUND`. -/
def watcherChannelBound : ℕ := 4096

/-- `try_send` into the channel: a full one drops the event. -/
def trySend (channel : List WatchEvent) (event : WatchEvent) : List WatchEvent :=
  if channel.length < watcherChannelBound then channel ++ [event] else channel

/-- `drain_watcher_events`: whether there was a change, and what is left of the channel. -/
def drainWatcherEvents : Option (List WatchEvent) → Bool × Option (List WatchEvent)
  | some receiver => (receiver.any fun paths => paths.any fun path => !isIgnoredWatchPath path, some [])
  | none => (false, none)

/-! ### The server -/

/-- The thread of `spawn_startup_indexing`, as far as its guard: `startup_indexing` is set while it is not idle. -/
inductive Startup
  | idle
  | spawned
  /-- Its run began to scan when there had been `seen` edits. -/
  | scanning (seen : ℕ)
  deriving DecidableEq, Repr

inductive IndexRun
  /-- That of an `ensure_indexed` which finds `indexed` clear. -/
  | first
  | incremental
  /-- `wipe_and_rebuild`, after a constraint error of the incremental. -/
  | rebuild
  deriving DecidableEq, Repr

/-- Where the main thread is in `ensure_indexed`. -/
inductive Main
  | idle
  /-- Past `consume_startup_index_result`. -/
  | consumed
  | before (run : IndexRun)
  | scanning (run : IndexRun) (seen : ℕ)
  deriving DecidableEq, Repr

inductive Outcome
  | ok | busy | foreignKey | failed
  deriving DecidableEq, Repr

structure State where
  /-- How many edits there have been. -/
  edits : ℕ
  /-- How many there had been when the latest successful run began its scan. -/
  scanned : ℕ
  /-- The channel of the watcher, once it is active. -/
  watcher : Option (List WatchEvent)
  indexed : Bool
  pendingIncremental : Bool
  startupIndexPending : Bool
  startup : Startup
  /-- Whether `startup_index_result` holds a result. -/
  startupIndexResult : Bool
  main : Main
  deriving DecidableEq, Repr

inductive Action
  /-- A change of these paths, and its delivery. -/
  | edit (paths : List String)
  /-- The client sends `notifications/initialized`. -/
  | initialized
  /-- `run_startup_tasks`; `starts` tells whether a watcher can be started. -/
  | runStartupTasks (starts : Bool)
  | startupScan
  | startupFinish (ok : Bool)
  /-- `ensure_indexed`, up to and with `consume_startup_index_result`. -/
  | ensureIndexed (starts : Bool)
  /-- `may_write_index` is false: the call ends. -/
  | mayNotWrite (hasData : Bool)
  /-- The call decides for a run; `elapsed` tells whether the debounce of the moment has passed. -/
  | look (elapsed : Bool)
  /-- A backfill holds the write path past the deadline. -/
  | skip
  | scan
  | finish (outcome : Outcome)
  deriving DecidableEq, Repr

namespace State

def init : State where
  edits := 0
  scanned := 0
  watcher := none
  indexed := false
  pendingIncremental := false
  startupIndexPending := false
  startup := .idle
  startupIndexResult := false
  main := .idle

/-- A change of ignored paths alone is none to the index, which never scans them. -/
def edit (s : State) (paths : List String) : State :=
  let paths := paths.filter fun path => !isIgnoredWatchPath path
  if paths.isEmpty then s else { s with edits := s.edits + 1, watcher := s.watcher.map (trySend · paths) }

def startPostIndexServices (s : State) (starts : Bool) : State :=
  match s.watcher with
  | some _ => s
  | none => if starts then { s with watcher := some [] } else s

def consumeStartupIndexResult (s : State) (starts : Bool) : State :=
  if s.startup ≠ .idle then
    s
  else if s.startupIndexResult then
    { s with startupIndexResult := false, indexed := true }.startPostIndexServices starts
  else
    s

def runStartupTasks (s : State) (starts : Bool) : State :=
  if s.startupIndexPending then
    let s := { s with startupIndexPending := false }
    if s.indexed then
      s.startPostIndexServices starts
    else
      -- `spawn_startup_indexing`, which does nothing where its thread is running
      { s with startup := if s.startup = .idle then .spawned else s.startup }
  else
    s.consumeStartupIndexResult starts

/-- What `ensure_indexed` does past `may_write_index`, up to its run. -/
def look (s : State) (elapsed : Bool) : State :=
  if s.indexed then
    let (hasChanges, watcher) := drainWatcherEvents s.watcher
    if hasChanges || s.pendingIncremental || elapsed then
      { s with watcher, pendingIncremental := true, main := .before .incremental }
    else
      { s with watcher, main := .idle }
  else
    { s with main := .before .first }

/-- The end of a run that could see the first `seen` edits. -/
def finish (s : State) (seen : ℕ) : IndexRun → Outcome → State
  | .first, .ok => { s with scanned := seen, indexed := true, main := .idle }
  | .incremental, .ok => { s with scanned := seen, pendingIncremental := false, main := .idle }
  | .incremental, .foreignKey => { s with indexed := false, main := .before .rebuild }
  | .rebuild, .ok => { s with scanned := seen, indexed := true, pendingIncremental := false, main := .idle }
  | _, _ => { s with main := .idle }

def step (s : State) : Action → Option State
  | .edit paths => some (s.edit paths)
  | .initialized => some { s with startupIndexPending := true }
  | .runStartupTasks starts =>
    match s.main with
    | .idle => some (s.runStartupTasks starts)
    | _ => none
  | .startupScan =>
    match s.startup with
    | .spawned => some { s with startup := .scanning s.edits }
    | _ => none
  | .startupFinish ok =>
    match s.startup, ok with
    | .scanning seen, true => some { s with startup := .idle, startupIndexResult := true, scanned := seen }
    | .scanning _, false | .spawned, false => some { s with startup := .idle }
    | _, _ => none
  | .ensureIndexed starts =>
    match s.main with
    | .idle =>
      -- with the startup index still running past the grace, `bail!`
      some (if s.startup = .idle then { s.consumeStartupIndexResult starts with main := .consumed } else s)
    | _ => none
  | .mayNotWrite hasData =>
    match s.main with
    | .consumed => some { s with indexed := s.indexed || hasData, main := .idle }
    | _ => none
  | .look elapsed =>
    match s.main with
    | .consumed => some (s.look elapsed)
    | _ => none
  | .skip =>
    match s.main with
    | .before .incremental => some { s with main := .idle }
    | _ => none
  | .scan =>
    match s.main with
    | .before run => some { s with main := .scanning run s.edits }
    | _ => none
  | .finish outcome =>
    match s.main with
    | .scanning run seen => some (s.finish seen run outcome)
    | _ => none

/-- With the watcher active, an edit that no scan has begun after is still owed one. -/
def Trusted (s : State) : Prop :=
  ∀ channel, s.watcher = some channel → s.scanned < s.edits →
    channel ≠ [] ∨ s.pendingIncremental = true ∨ s.indexed = false

/-- The step starts the watcher. -/
def startsWatcher (s : State) : Action → Bool
  | .runStartupTasks starts => s.watcher.isNone && starts &&
    (if s.startupIndexPending then s.indexed else s.startup == .idle && s.startupIndexResult)
  | .ensureIndexed starts => s.watcher.isNone && starts && s.startup == .idle && s.startupIndexResult
  | _ => false

/-- No file was edited after the latest successful run began its scan, or a rescan is owed. -/
def Settled (s : State) : Prop :=
  s.scanned < s.edits → s.pendingIncremental = true

end State

end CodeGraph.Server.Watcher
