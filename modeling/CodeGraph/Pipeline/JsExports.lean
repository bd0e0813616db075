import CodeGraph.Pipeline.JsModules
import Mathlib.Data.Finset.Image
import Mathlib.Data.List.AList
import Mathlib.Data.List.Dedup

/-!
# JS and TS re-exports

`js_exports.rs`: the walk that finds what an exported name resolves to, over the export entries and the
published exports of the indexed files, and the fan-out that decides after a run which importers have to be
re-extracted. Lines and node ids, which only the callers of the walk read, are left out.
-/

namespace CodeGraph.Pipeline

/-! ### The rows -/

/-- A row of `js_export_entries`. -/
structure EntryRow where
  kind : String
  name : Option String
  target : Option String
  spec : Option String
  deriving DecidableEq, Repr

/-- An `imports` edge with a JS specifier, as the fan-out reads it. `name` is the name it imports. -/
structure ImportRow where
  importer : String
  spec : String
  name : String
  targetFile : Option String
  targetName : String
  deriving DecidableEq, Repr

/-- What the walk and the fan-out read of the index. -/
structure Conn where
  /-- `files.path`. -/
  paths : Finset String
  /-- The entries of a file's `<module>`, by `ord`. -/
  entryRows : String → List EntryRow
  /-- The name and the `as` key of each node that a file's `<module>` exports. -/
  exportMap : String → List (String × Option String)
  /-- The names of a file's nodes. -/
  names : String → Finset String
  importRows : List ImportRow

inductive Entry
  | localExport (exported loc : String)
  | indirect (exported spec : String) (imported : Option String)
  | star (spec : String)
  deriving DecidableEq, Repr

/-- `entry_of`. -/
def entryOf (row : EntryRow) : Option Entry :=
  if row.kind = "local" then do
    let exported ← row.name
    let loc ← row.target
    return .localExport exported loc
  else if row.kind = "indirect" then do
    let exported ← row.name
    let spec ← row.spec
    return .indirect exported spec row.target
  else if row.kind = "star" then do
    let spec ← row.spec
    return .star spec
  else none

/-- What the walk reads of one file; `published` holds the published name, the node's name, and whether an
export map names it. -/
structure FileExports where
  entries : List Entry := []
  published : List (String × String × Bool) := []
  deriving DecidableEq, Repr

namespace FileExports

/-- `FileExports::load`: nothing for a file that is not indexed. -/
def load (conn : Conn) (file : String) : FileExports :=
  if file ∈ conn.paths then
    { entries := (conn.entryRows file).filterMap entryOf
      published := (conn.exportMap file).map fun
        | (name, some key) => (key, name, true)
        | (name, none) => (name, name, false) }
  else {}

/-- `local_of`: a local entry, else an export map's key, else a node published under its own name that the
entries do not export as `default` only. -/
def localOf (f : FileExports) (name : String) : Option String :=
  (f.entries.findSome? fun
    | .localExport exported loc => if exported = name then some loc else none
    | _ => none).or
  (let keyed := f.published.find? fun (p, _, k) => k && p == name
   let onlyDefault := f.entries.any fun
    | .localExport exported loc => exported == "default" && loc == name
    | _ => false
   (keyed.or (f.published.find? fun (p, _, k) => !k && p == name && !onlyDefault)).map fun (_, n, _) => n)

/-- `indirect_of`: the specifier and the import of the first indirect entry for `name`. -/
def indirectOf (f : FileExports) (name : String) : Option (String × Option String) :=
  f.entries.findSome? fun
    | .indirect exported spec imported => if exported = name then some (spec, imported) else none
    | _ => none

/-- `star_specs`. -/
def starSpecs (f : FileExports) : List String :=
  f.entries.filterMap fun
    | .star spec => some spec
    | _ => none

/-- The `export *` sources that are files. -/
def starSources (f : FileExports) (file : String) (paths : Finset String) : List String :=
  f.starSpecs.filterMap fun spec => resolveJsSpecifierPath spec file paths

end FileExports

/-! ### The walk -/

/-- `MAX_JS_REEXPORT_DEPTH`. -/
def maxJsReexportDepth : ℕ := 256

inductive JsResolution
  | binding (file loc : String)
  | namespaceOf (file : String)
  | missing
  | ambiguous
  | unknown
  deriving DecidableEq, Repr

/-- `JsExports`: each file read once, each lookup answered once, each file's `export *` sources resolved
once. -/
structure JsExports where
  byFile : AList fun _ : String => FileExports := ∅
  memo : AList fun _ : String × String => JsResolution := ∅
  stars : AList fun _ : String => List String := ∅

/-- A walk under way: the caches, and the pairs asked so far. -/
structure WalkState where
  exports : JsExports
  seen : Finset (String × String)

namespace JsExports

/-- `JsExports::load`. -/
def load (conn : Conn) (ex : JsExports) (file : String) : JsExports :=
  if file ∈ ex.byFile then ex
  else { ex with byFile := ex.byFile.insert file (FileExports.load conn file) }

/-- `self.by_file[file]`, of a file that has been loaded. -/
def here (ex : JsExports) (file : String) : FileExports := (ex.byFile.lookup file).getD {}

/-- A file's `export *` sources, from the cache or resolved and cached. -/
def starsOf (paths : Finset String) (ex : JsExports) (file : String) : List String × JsExports :=
  match ex.stars.lookup file with
  | some s => (s, ex)
  | none =>
    let s := (ex.here file).starSources file paths
    (s, { ex with stars := ex.stars.insert file s })

/-- The loop over the `export *` sources. -/
def walkStars (ask : String → WalkState → JsResolution × WalkState) :
    List String → Option JsResolution → WalkState → JsResolution × WalkState
  | [], found, w => (found.getD .missing, w)
  | next :: rest, found, w =>
    match ask next w with
    | (.missing, w) => walkStars ask rest found w
    | (.ambiguous, w) => (.ambiguous, w)
    | (.unknown, w) => (.unknown, w)
    | (r, w) =>
      match found with
      | some f => if f ≠ r then (.ambiguous, w) else walkStars ask rest found w
      | none => walkStars ask rest (some r) w

/-- `walk`, with `depth` counted down from `MAX_JS_REEXPORT_DEPTH`: nothing is left when it is passed. -/
def walk (conn : Conn) (paths : Finset String) :
    ℕ → String → String → WalkState → JsResolution × WalkState
  | 0, _, _, w => (.unknown, w)
  | left + 1, file, name, w =>
    if (file, name) ∈ w.seen then (.missing, w)
    else
      let w : WalkState := ⟨w.exports.load conn file, insert (file, name) w.seen⟩
      match (w.exports.here file).localOf name with
      | some loc => (.binding file loc, w)
      | none =>
        match (w.exports.here file).indirectOf name with
        | some (spec, imported) =>
          match resolveJsSpecifierPath spec file paths with
          | none => (.unknown, w)
          | some next =>
            match imported with
            | none => (.namespaceOf next, w)
            | some imported => walk conn paths left next imported w
        | none =>
          if name = "default" then (.missing, w)
          else
            -- a star specifier that no file answers adds nothing
            walkStars (fun next w => walk conn paths left next name w) (w.exports.starsOf paths file).1 none
              { w with exports := (w.exports.starsOf paths file).2 }

/-- `resolve_visiting`: the answer, the pairs asked, and the caches as the walk leaves them. -/
def resolveVisiting (conn : Conn) (paths : Finset String) (ex : JsExports) (file name : String) :
    JsResolution × Finset (String × String) × JsExports :=
  let (r, w) := walk conn paths (maxJsReexportDepth + 1) file name ⟨ex, ∅⟩
  (r, w.seen, w.exports)

/-- `resolve`. -/
def resolve (conn : Conn) (paths : Finset String) (ex : JsExports) (file name : String) :
    JsResolution × JsExports :=
  match ex.memo.lookup (file, name) with
  | some r => (r, ex)
  | none =>
    let (r, w) := walk conn paths (maxJsReexportDepth + 1) file name ⟨ex, ∅⟩
    (r, { w.exports with memo := w.exports.memo.insert (file, name) r })

/-- `answers_without_stars`. -/
def answersWithoutStars (ex : JsExports) (file name : String) : Bool :=
  match ex.byFile.lookup file with
  | none => false
  | some f => (f.localOf name).isSome || (f.indirectOf name).isSome

end JsExports

/-! ### The fan-out -/

/-- `snapshot_js_reexports`: the JS and TS files of a run, whether each was indexed, and what each exported and
defined. -/
structure Snapshot where
  inRun : List (String × Bool)
  before : String → FileExports
  namesBefore : String → Finset String

/-- `node_names`. -/
def nodeNames (conn : Conn) (file : String) : Finset String :=
  if file ∈ conn.paths then conn.names file else ∅

/-- `snapshot_js_reexports`. -/
def snapshotJsReexports (conn : Conn) (paths : List String) : Snapshot where
  inRun := ((paths.filter isJsModulePath).dedup).map fun p => (p, decide (p ∈ conn.paths))
  before := FileExports.load conn
  namesBefore := nodeNames conn

structure Drift where
  names : Finset String
  stars : Bool
  deriving DecidableEq

/-- `Shape`: each name's own binding and whether a node bears its name, each name's resolved indirect entry,
and the resolved `export *` sources. -/
structure Shape where
  own : List (String × String × Bool)
  indirect : List (String × Option String × Option String)
  stars : List String

/-- The name that an entry exports. -/
def Entry.exported : Entry → Option String
  | .localExport exported _ => some exported
  | .indirect exported _ _ => some exported
  | .star _ => none

/-- The names that a file's entries and published exports export. -/
def FileExports.exportedNames (f : FileExports) : List String :=
  (f.entries.filterMap Entry.exported ++ f.published.map Prod.fst).dedup

/-- `shape_of`. -/
def shapeOf (f : FileExports) (nodes : Finset String) (file : String) (paths : Finset String) : Shape where
  own := f.exportedNames.filterMap fun n => (f.localOf n).map fun l => (n, l, decide (l ∈ nodes))
  indirect := f.exportedNames.filterMap fun n => (f.indirectOf n).map fun (spec, imported) =>
    (n, resolveJsSpecifierPath spec file paths, imported)
  stars := f.starSources file paths

/-- The keys at which two maps differ. -/
def changedKeys {β : Type} [DecidableEq β] (b a : List (String × β)) : Finset String :=
  ((b.map Prod.fst ++ a.map Prod.fst).filter fun n => b.lookup n ≠ a.lookup n).toFinset

/-- How two shapes of a file differ. -/
def Shape.drift (b a : Shape) : Drift where
  names := changedKeys b.own a.own ∪ changedKeys b.indirect a.indirect
  stars := decide (b.stars ≠ a.stars)

namespace Snapshot

/-- `before_paths`: the current files, less those that the run added, with those that it deleted. -/
def beforePaths (snap : Snapshot) (nowPaths : Finset String) : Finset String :=
  snap.inRun.foldl (fun paths (path, existed) =>
    if existed then insert path paths else paths.erase path) nowPaths

/-- The files of the run that are indexed now. -/
def current (conn : Conn) (snap : Snapshot) : List String :=
  (snap.inRun.map Prod.fst).filter (· ∈ conn.paths)

/-- How a file of the run moved. -/
def driftOf (conn : Conn) (snap : Snapshot) (path : String) : Drift :=
  (shapeOf (snap.before path) (snap.namesBefore path) path (snap.beforePaths conn.paths)).drift
    (shapeOf (FileExports.load conn path) (nodeNames conn path) path conn.paths)

/-- The files of the run that moved. -/
def drift (conn : Conn) (snap : Snapshot) : List (String × Drift) :=
  (snap.current conn).filterMap fun path =>
    let d := snap.driftOf conn path
    if d.stars || !decide (d.names = ∅) then some (path, d) else none

/-- Whether a file of the run gained a name. -/
def gained (conn : Conn) (snap : Snapshot) : Bool :=
  (snap.current conn).any fun path => !decide (nodeNames conn path ⊆ snap.namesBefore path)

end Snapshot

/-- Whether a walk that asks `(g, m)` meets something that moved; `answers` tells whether `g` answers `m`
without its `export *` sources. -/
def movedAt (drift : List (String × Drift)) (answers : String → String → Bool) (p : String × String) : Bool :=
  match drift.lookup p.1 with
  | none => false
  | some d => decide (p.2 ∈ d.names) || (d.stars && p.2 != "default" && !answers p.1 p.2)

/-- The loop over the import edges: the walker, the pairs each lookup asks, and the importers pulled. -/
structure FanOut where
  walker : JsExports
  visited : AList fun _ : String × String => Finset (String × String)
  out : Finset String

namespace FanOut

def pull (st : FanOut) (importer : String) : FanOut := { st with out := insert importer st.out }

/-- Ask what the walk of `(file, name)` visits, unless it was asked before. -/
def visit (conn : Conn) (st : FanOut) (file name : String) : FanOut :=
  if (file, name) ∈ st.visited then st
  else
    let (_, seen, walker) := st.walker.resolveVisiting conn conn.paths file name
    { st with walker := walker, visited := st.visited.insert (file, name) seen }

/-- One import edge. -/
def row (conn : Conn) (snap : Snapshot) (st : FanOut) (r : ImportRow) : FanOut :=
  if r.name = "<module>" ∨ r.importer ∈ snap.inRun.map Prod.fst ∨ r.importer ∈ st.out then st
  else
    let now := resolveJsSpecifierPath r.spec r.importer conn.paths
    if now ≠ resolveJsSpecifierPath r.spec r.importer (snap.beforePaths conn.paths) then st.pull r.importer
    else
      match now with
      | none => st
      | some file =>
        if r.targetFile = some file ∧ r.targetName = r.name then st
        else if file ∈ snap.current conn ∧ r.name ∈ nodeNames conn file then st.pull r.importer
        else if snap.drift conn = [] then st
        else
          let st := st.visit conn file r.name
          if ∃ p ∈ (st.visited.lookup (file, r.name)).getD ∅,
              movedAt (snap.drift conn) st.walker.answersWithoutStars p then
            st.pull r.importer
          else st

end FanOut

/-- `importers_of_drift`, with the snapshot that the run took. -/
def importersOfDrift (conn : Conn) (snap : Snapshot) : Finset String :=
  if snap.inRun = [] then ∅
  else if snap.drift conn = [] ∧ !snap.gained conn ∧
      snap.inRun.all fun (p, existed) => existed == decide (p ∈ conn.paths) then ∅
  else
    let walker := (snap.current conn).foldl (JsExports.load conn) {}
    (conn.importRows.foldl (FanOut.row conn snap) ⟨walker, ∅, ∅⟩).out

/-- The files that a run adds. -/
def appearing (conn : Conn) (files : List String) : List String :=
  files.filter fun f => isJsModulePath f ∧ f ∉ conn.paths

/-- The files after a run, as `export_entry_dependents` foresees them. -/
def afterPaths (conn : Conn) (files deletePaths : List String) : Finset String :=
  (conn.paths ∪ (appearing conn files).toFinset) \ (deletePaths.filter isJsModulePath).toFinset

/-- `export_entry_dependents`. -/
def exportEntryDependents (conn : Conn) (files deletePaths : List String) : Finset String :=
  if appearing conn files = [] ∧ deletePaths.filter isJsModulePath = [] then ∅
  else
    conn.paths.filter fun path =>
      path ∉ files ∧ path ∉ deletePaths ∧
        ((conn.entryRows path).filterMap EntryRow.spec).any fun spec =>
          resolveJsSpecifierPath spec path conn.paths ≠
            resolveJsSpecifierPath spec path (afterPaths conn files deletePaths)

end CodeGraph.Pipeline
