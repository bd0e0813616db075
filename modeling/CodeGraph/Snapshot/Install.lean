import CodeGraph.Lib.Assoc
import CodeGraph.Lib.Words
import CodeGraph.Pipeline.InFlight

/-!
# Installing a snapshot

`try_install` of `snapshot/install.rs` with `verify_checksum_impl`, `decompress_with_cap` and `validate`, one file
operation after another. Each call has partial files of its own, under names no other call has; the calls share
`index.db` and its sidecars. The hash, the decoder and SQLite are parameters. Of `validate` the look into the git
history is left out, which only warns.
-/

namespace CodeGraph.Snapshot.Install

open CodeGraph.Lib CodeGraph.Pipeline.InFlight

abbrev Bytes := List UInt8

/-- A database: its `meta` table, and the rest of it. -/
structure Database (Body : Type) where
  metaTable : AList fun _ : Text => Text
  body : Body

/-- `blake3`, the zstd decoder (the pieces it writes, and whether it comes to the end of the stream), what
`Database::open` makes of a file, and the recovery of a database from a write-ahead log beside it. -/
structure Outside (Body Wal : Type) where
  blake3 : Bytes → Text
  decode : Bytes → List Bytes × Bool
  openFile : Bytes → Option (Database Body)
  replay : Wal → Database Body → Database Body

def maxCompressedBytes : ℕ := 100 * 1024 * 1024

def maxDecompressedBytes : ℕ := 100 * 1024 * 1024

def zstdMagic : Bytes := [0x28, 0xB5, 0x2F, 0xFD]

def schemaVersion : ℤ := 10

def metaSourceCommit : Text := "snapshot_source_commit".toList

def metaSourceUrl : Text := "snapshot_source_url".toList

def metaToolVersion : Text := "snapshot_tool_version".toList

def metaSchemaVersion : Text := "snapshot_schema_version".toList

def metaFetchedAt : Text := "snapshot_fetched_at".toList

/-! ### The checks -/

def isFileUrl (url : Text) : Bool := "file://".toList.isPrefixOf url

def isHexDigit (c : Char) : Bool := c.isDigit || ('a' ≤ c && c ≤ 'f') || ('A' ≤ c && c ≤ 'F')

def eqIgnoreAsciiCase (a b : Text) : Bool := a.map Char.toLower == b.map Char.toLower

/-- `verify_checksum_impl`. The sidecar is the text that is served next to the artifact, if any is. -/
def verifyChecksumImpl (blake3 : Bytes → Text) (url : Text) (artifact : Bytes) (pin sidecar : Option Text) : Bool :=
  match pin with
  | some pin =>
    let pin := trim isWhitespace pin
    if pin.length ≠ 64 || !pin.all isHexDigit then false else eqIgnoreAsciiCase (blake3 artifact) pin
  | none =>
    if isFileUrl url then true
    else
      let expected := trim isWhitespace (sidecar.getD [])
      if expected = [] then false else eqIgnoreAsciiCase (blake3 artifact) expected

/-- `CapWriter`: the pieces that are written, and whether all of them are. -/
def writeCapped (cap : ℕ) : ℕ → List Bytes → Bytes × Bool
  | _, [] => ([], true)
  | written, piece :: pieces =>
    if cap < written + piece.length then ([], false)
    else
      let rest := writeCapped cap (written + piece.length) pieces
      (piece ++ rest.1, rest.2)

/-- `decompress_with_cap`: what is in the file then, and whether it succeeded. -/
def decompressWithCap (decode : Bytes → List Bytes × Bool) (src : Bytes) (cap : ℕ) : Bytes × Bool :=
  let decoded := decode src
  let out := writeCapped cap 0 decoded.1
  (out.1, out.2 && decoded.2)

/-- `str::parse::<i32>`. -/
def parseI32 (s : Text) : Option ℤ :=
  let (negative, digits) := match s with
    | '-' :: rest => (true, rest)
    | '+' :: rest => (false, rest)
    | rest => (false, rest)
  if digits.isEmpty || !digits.all Char.isDigit then none
  else
    let n : ℕ := digits.foldl (fun n c => 10 * n + (c.toNat - '0'.toNat)) 0
    let value : ℤ := if negative then -n else n
    if -2 ^ 31 ≤ value ∧ value < 2 ^ 31 then some value else none

/-- `is_snapshot_meta`. -/
def isSnapshotMeta (schema : ℤ) (sourceCommit toolVersion : Text) : Bool :=
  schema != 0 || !sourceCommit.isEmpty || !toolVersion.isEmpty

/-- `validate`. -/
def validate {Body : Type} (db : Database Body) : Bool :=
  let snapSchema := ((db.metaTable.lookup metaSchemaVersion).bind parseI32).getD 0
  let sourceCommit := (db.metaTable.lookup metaSourceCommit).getD []
  let toolVersion := (db.metaTable.lookup metaToolVersion).getD []
  isSnapshotMeta snapSchema sourceCommit toolVersion && decide (snapSchema ≤ schemaVersion)

/-! ### The calls -/

/-- A file that a call removes. -/
inductive Removal
  | zst
  | db
  | wal
  | shm
  deriving DecidableEq

/-- The file operation that a call does next. -/
inductive Phase
  | start
  | download
  | checksum
  | magic
  | decompress
  | validate
  | sourceUrl
  | fetchedAt
  | checkpoint
  | dropWal
  | dropShm
  | rename
  | tidy (rest : List Removal)
  | installed
  | cleanUp (rest : List Removal)
  | failed
  | stopped
  deriving DecidableEq

/-- The partial database: bytes from the decoder, or a database with the rows in its own write-ahead log. -/
inductive Partial (Body : Type)
  | raw (bytes : Bytes)
  | opened (main : Database Body) (wal : List (Text × Text))

/-- What a call is given: the url and the pin, and what it gets from outside: the artifact, the sidecar, the time. -/
structure Request where
  url : Text
  pin : Option Text
  artifact : Bytes
  sidecar : Option Text
  now : Text

structure Call (Body : Type) where
  request : Request
  phase : Phase
  zst : Option Bytes
  db : Option (Partial Body)
  /-- The operation that returned an error. -/
  failedAt : Option Phase

/-- An operation succeeds, or fails and may leave part of what it was to write, or the process stops. -/
inductive Event
  | ok
  | fail (left : Bytes)
  | stop

/-- What a call does to `index.db` and its log: it removes the log, it cannot, it puts its database in place. -/
inductive Change (Body : Type)
  | dropped
  | kept
  | replaced (db : Database Body)

variable {Body Wal : Type}

def Call.fails (c : Call Body) : Call Body :=
  { c with phase := .cleanUp [.zst, .db, .wal, .shm], failedAt := some c.phase }

def Call.remove (c : Call Body) : Removal → Call Body
  | .zst => { c with zst := none }
  | .db => { c with db := none }
  -- with the log of the partial database go the rows in it
  | .wal => { c with db := match c.db with
      | some (.opened main _) => some (.opened main [])
      | db => db }
  | .shm => c

/-- `index.db`, its log and whether its `-shm` file is there. -/
structure Dir (Body Wal : Type) where
  index : Option (Database Body)
  wal : Option Wal
  shm : Bool

/-- The next operation of a call. -/
def Call.step (o : Outside Body Wal) (dir : Dir Body Wal) (c : Call Body) (e : Event) :
    Option (Dir Body Wal × Call Body × Option (Change Body)) :=
  match c.phase, e with
  | .installed, _ | .failed, _ | .stopped, _ => none
  | _, .stop => some (dir, { c with phase := .stopped }, none)
  | .start, .ok =>
    if "https://".toList.isPrefixOf c.request.url || isFileUrl c.request.url then
      some (dir, { c with phase := .download }, none)
    else some (dir, { c with phase := .failed, failedAt := some .start }, none)
  | .start, .fail _ => some (dir, { c with phase := .failed, failedAt := some .start }, none)
  | .download, .ok =>
    if !isFileUrl c.request.url && decide (maxCompressedBytes < c.request.artifact.length) then
      some (dir, { c with zst := some (c.request.artifact.take maxCompressedBytes) }.fails, none)
    else some (dir, { c with zst := some c.request.artifact, phase := .checksum }, none)
  | .download, .fail left => some (dir, { c with zst := some left }.fails, none)
  | .checksum, .ok =>
    if verifyChecksumImpl o.blake3 c.request.url (c.zst.getD []) c.request.pin c.request.sidecar then
      some (dir, { c with phase := .magic }, none)
    else some (dir, c.fails, none)
  | .magic, .ok =>
    if (c.zst.getD []).take 4 = zstdMagic then some (dir, { c with phase := .decompress }, none)
    else some (dir, c.fails, none)
  | .decompress, .ok =>
    let out := decompressWithCap o.decode (c.zst.getD []) maxDecompressedBytes
    if out.2 then some (dir, { c with db := some (.raw out.1), phase := .validate }, none)
    else some (dir, { c with db := some (.raw out.1) }.fails, none)
  | .decompress, .fail left => some (dir, { c with db := some (.raw left) }.fails, none)
  | .validate, .ok =>
    match c.db with
    | some (.raw bytes) =>
      match o.openFile bytes with
      | some main =>
        if Install.validate main then some (dir, { c with db := some (.opened main []), phase := .sourceUrl }, none)
        else some (dir, { c with db := some (.opened main []) }.fails, none)
      | none => some (dir, c.fails, none)
    | _ => some (dir, c.fails, none)
  | .sourceUrl, .ok =>
    match c.db with
    | some (.opened main wal) => some (dir, { c with
        db := some (.opened main (wal ++ [(metaSourceUrl, c.request.url)])), phase := .fetchedAt }, none)
    | _ => some (dir, c.fails, none)
  | .fetchedAt, .ok =>
    match c.db with
    | some (.opened main wal) => some (dir, { c with
        db := some (.opened main (wal ++ [(metaFetchedAt, c.request.now)])), phase := .checkpoint }, none)
    | _ => some (dir, c.fails, none)
  | .checkpoint, .ok =>
    match c.db with
    | some (.opened main wal) => some (dir, { c with
        db := some (.opened { main with metaTable := insertAll wal main.metaTable } []), phase := .dropWal }, none)
    | _ => some (dir, c.fails, none)
  -- a sidecar that cannot be removed does not fail the install
  | .dropWal, .ok =>
    some ({ dir with wal := none }, { c with phase := .dropShm }, if dir.wal.isSome then some .dropped else none)
  | .dropWal, .fail _ => some (dir, { c with phase := .dropShm }, if dir.wal.isSome then some .kept else none)
  | .dropShm, .ok => some ({ dir with shm := false }, { c with phase := .rename }, none)
  | .dropShm, .fail _ => some (dir, { c with phase := .rename }, none)
  | .rename, .ok =>
    match c.db with
    | some (.opened main _) =>
      -- the rename moves the file without its log
      some ({ dir with index := some main }, { c with db := none, phase := .tidy [.wal, .shm, .zst] },
        some (.replaced main))
    | _ => some (dir, c.fails, none)
  | .tidy [], _ => some (dir, { c with phase := .installed }, none)
  | .tidy (file :: rest), .ok => some (dir, { c.remove file with phase := .tidy rest }, none)
  | .tidy (_ :: rest), .fail _ => some (dir, { c with phase := .tidy rest }, none)
  | .cleanUp [], _ => some (dir, { c with phase := .failed }, none)
  | .cleanUp (file :: rest), .ok => some (dir, { c.remove file with phase := .cleanUp rest }, none)
  | .cleanUp (_ :: rest), .fail _ => some (dir, { c with phase := .cleanUp rest }, none)
  | _, .fail _ => some (dir, c.fails, none)

/-- The directory, the calls, and what they have done to it so far. -/
structure Installs (Body Wal : Type) where
  dir : Dir Body Wal
  calls : List (Call Body)
  log : List (ℕ × Change Body)

/-- One of the calls does its next operation. -/
def Installs.step (o : Outside Body Wal) (s : Installs Body Wal) (a : ℕ × Event) : Option (Installs Body Wal) :=
  (s.calls[a.1]?).bind fun c => (c.step o s.dir a.2).map fun r =>
    { dir := r.1
      calls := s.calls.set a.1 r.2.1
      log := match r.2.2 with
        | some change => s.log ++ [(a.1, change)]
        | none => s.log }

end CodeGraph.Snapshot.Install
