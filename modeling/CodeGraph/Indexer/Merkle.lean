import CodeGraph.Lib.Table
import CodeGraph.Lib.Texts
import CodeGraph.Utils.Config
import Mathlib.Data.List.Infix

/-!
# Scanning a tree with a directory cache

`indexer/merkle.rs`. A scan walks the tree and hashes the files it cannot prove unchanged: a file is
skipped when its directory has the modification time of the last scan and its own `FileStamp` is the
one the cache holds.

A `HashMap` is a function to `Option`, and the walk is what the file system answered: for each
directory its modification time, for each file its stamp and, where the scan reads it, its bytes.
-/

namespace CodeGraph.Indexer.Merkle

open CodeGraph.Utils.Config

/-- `is_excluded_build_dir`. -/
def isExcludedBuildDir (path : String) : Bool :=
  (path.toList.splitOnP (· == '/')).any fun seg =>
    seg ∈ ["node_modules".toList, "vendor".toList, "target".toList, "bower_components".toList]

/-- `scan_keeps_key`: the filter on the files the walker yields. -/
def scanKeepsKey (path : String) : Bool :=
  !(path == ".git" || decide (".git/".toList <+: path.toList) || isExcludedBuildDir path) &&
    (detectLanguage path).isSome

/-- Modification times, in whatever unit the file system has. -/
abbrev Time := ℤ

/-- The freshness evidence of one `stat`. -/
structure FileStamp where
  mtime : Time
  size : ℕ
  deriving DecidableEq

/-- What a scan leaves for the next one. -/
structure DirectoryCache where
  dirMtimes : String → Option Time
  fileStamps : String → Option FileStamp
  /-- Every file the walk saw, whatever its `stat` did. -/
  seenFiles : String → Bool

/-- `DirectoryCache::file_exists`. -/
def DirectoryCache.fileExists (c : DirectoryCache) (path : String) : Bool := c.seenFiles path

/-- A directory of the walk; `mtime` is none where its `metadata` failed. -/
structure DirEntry where
  path : String
  mtime : Option Time

/-- A file of the walk. `stamp` is none where its `stat` failed, `bytes`
where a read of it failed. -/
structure FileEntry where
  path : String
  parent : String
  stamp : Option FileStamp
  bytes : Option ByteArray

/-- One walk of the tree: no path is listed twice. -/
structure Walk where
  dirs : List DirEntry
  files : List FileEntry
  dirs_nodup : (dirs.map DirEntry.path).Nodup
  files_nodup : (files.map FileEntry.path).Nodup

/-- The directory's modification time, where the walk has it; `.git` directories are passed over. -/
def Walk.dirMtime (w : Walk) (path : String) : Option Time :=
  if ".git".toList <+: path.toList then none
  else (w.dirs.find? fun d => d.path == path).bind DirEntry.mtime

/-- The file the scan keeps of the walk at a path. -/
def Walk.file (w : Walk) (path : String) : Option FileEntry :=
  if scanKeepsKey path then w.files.find? fun f => f.path == path else none

/-- Pass 1: whether `changed_dirs` holds the directory. -/
def ChangedDir (w : Walk) (cache : Option DirectoryCache) (path : String) : Prop :=
  (∃ mtime ∈ w.dirMtime path, ∀ c ∈ cache, c.dirMtimes path ≠ some mtime) ∨
    cache.isNone ∧ path = ""

instance (w : Walk) (cache : Option DirectoryCache) (path : String) :
    Decidable (ChangedDir w cache path) :=
  inferInstanceAs (Decidable (_ ∨ _))

/-- `file_needs_hashing`. -/
def fileNeedsHashing (current cached : Option FileStamp) : Bool :=
  match current, cached with
  | some current, some cached => current ≠ cached
  | some _, none => true
  | none, _ => true

/-- Pass 2: whether the scan hashes the file. -/
def Hashes (w : Walk) (cache : Option DirectoryCache) (f : FileEntry) : Prop :=
  ChangedDir w cache f.parent ∨
    fileNeedsHashing f.stamp (cache.bind fun c => c.fileStamps f.path) = true

instance (w : Walk) (cache : Option DirectoryCache) (f : FileEntry) : Decidable (Hashes w cache f) :=
  inferInstanceAs (Decidable (_ ∨ _))

/-- The cache a scan returns. -/
def newCache (w : Walk) : DirectoryCache where
  dirMtimes := w.dirMtime
  fileStamps path := (w.file path).bind FileEntry.stamp
  seenFiles path := (w.file path).isSome

variable {Hash : Type} [DecidableEq Hash]

/-- `scan_directory_cached`: the hashes of the files it read, and the new cache. A file whose read
fails has no hash (`hash_files_parallel`). -/
def scanDirectoryCached (hash : ByteArray → Hash) (w : Walk) (cache : Option DirectoryCache) :
    (String → Option Hash) × DirectoryCache :=
  (fun path => (w.file path).bind fun f =>
    if Hashes w cache f then f.bytes.map hash else none, newCache w)

/-- `compute_diff`, as what it says of each path. -/
structure DiffResult where
  newFiles : String → Bool
  changedFiles : String → Bool
  deletedFiles : String → Bool

def computeDiff (old current : String → Option Hash) : DiffResult where
  newFiles path := (current path).isSome && (old path).isNone
  changedFiles path := (current path).isSome && (old path).isSome && (old path ≠ current path)
  deletedFiles path := (old path).isSome && (current path).isNone

/-- The diff reports the file as new or changed. -/
def DiffResult.Reports (d : DiffResult) (path : String) : Prop :=
  d.newFiles path = true ∨ d.changedFiles path = true

instance (d : DiffResult) (path : String) : Decidable (d.Reports path) :=
  inferInstanceAs (Decidable (_ ∨ _))

/-- A file with a current hash is reported exactly when the stored one is another. -/
theorem reports_computeDiff_iff {old current : String → Option Hash} {path : String} {h : Hash}
    (hc : current path = some h) :
    (computeDiff old current).Reports path ↔ old path ≠ some h := by
  unfold DiffResult.Reports computeDiff
  dsimp only
  rw [hc]
  cases old path with
  | none => simp
  | some h' => simp

theorem Walk.file_of_mem {w : Walk} {f : FileEntry} (hf : f ∈ w.files)
    (hk : scanKeepsKey f.path = true) : w.file f.path = some f := by
  rw [Walk.file, if_pos hk]
  exact CodeGraph.Lib.find?_key_eq_some w.files_nodup hf

theorem Walk.path_of_file {w : Walk} {f : FileEntry} {path : String} (h : w.file path = some f) :
    f.path = path := by
  unfold Walk.file at h
  split_ifs at h
  simpa using List.find?_some h

/-- A file that the scan keeps is of a language the indexer knows. -/
theorem Walk.language_of_file {w : Walk} {f : FileEntry} {path : String}
    (h : w.file path = some f) : (detectLanguage path).isSome := by
  unfold Walk.file at h
  split_ifs at h with hk
  unfold scanKeepsKey at hk
  exact (Bool.and_eq_true_iff.mp hk).2

end CodeGraph.Indexer.Merkle
