import CodeGraph.Lib.Json
import CodeGraph.Lib.Sort
import Mathlib.Data.Finset.SymmDiff
import Mathlib.Data.String.Basic
import Mathlib.Order.Lattice

/-!
# The two crates of a package

A package with a `lib.rs` and a `main.rs` has two crates, and a file belongs to the one whose root alone declares its
top-level module. `RustCrates::side_of`, the record of it that the index stores as JSON, and `rust_root_mod_moves`,
which compares the record with the packages of the next run (`pipeline/resolve.rs`). `serde_json` is a parameter.
-/

namespace CodeGraph.Pipeline.RustCrates

open CodeGraph.Lib

inductive RootSide
  | lib | main | either
  deriving DecidableEq, Repr

inductive RootMods
  | known (lib main : Finset String)
  | opaqueRoots
  deriving DecidableEq

/-- `RustCrates::root_mods`, a map in the order of its keys. `collect_rust_crates` records a package by its `src/`
directory. -/
structure Crates where
  rootMods : List (String × RootMods)
  sorted : (rootMods.map Prod.fst).Pairwise (· < ·)
  dirs : ∀ e ∈ rootMods, ['s', 'r', 'c', '/'] <:+ e.1.toList

/-- `str::strip_prefix` -/
def stripPrefix (dir path : String) : Option (List Char) :=
  if dir.toList <+: path.toList then some (path.toList.drop dir.toList.length) else none

/-- The top-level module of a path below `src/`. -/
def topOf (rel : List Char) : String :=
  let top := rel.takeWhile (· ≠ '/')
  String.ofList (if ['.', 'r', 's'] <:+ top then top.take (top.length - 3) else top)

def libRs : List Char := ['l', 'i', 'b', '.', 'r', 's']

def mainRs : List Char := ['m', 'a', 'i', 'n', '.', 'r', 's']

/-- What a package's record says of a file that is none of its roots. -/
def sideIn (record : Option RootMods) (top : String) : RootSide :=
  match record with
  | some (.known lib main) =>
    match decide (top ∈ lib), decide (top ∈ main) with
    | true, false => .lib
    | false, true => .main
    | _, _ => .either
  | _ => .either

/-- `side_of` -/
def Crates.sideOf (crates : Crates) (dir path : String) : RootSide :=
  match stripPrefix dir path with
  | none => .either
  | some rel =>
    if rel = libRs then .lib
    else if rel = mainRs then .main
    else sideIn (crates.rootMods.lookup dir) (topOf rel)

/-! ### The record -/

/-- A set of names as the array of its elements in their order. -/
def namesValue (names : Finset String) : JsonVal := .arr ((inOrder names).map .str)

/-- `root_mods_value` -/
def rootModsValue : RootMods → JsonVal
  | .known lib main => .obj [("lib", namesValue lib), ("main", namesValue main)]
  | .opaqueRoots => .obj [("opaque", .bool true)]

def recordFields (crates : Crates) : List (String × JsonVal) :=
  crates.rootMods.map fun e => (e.1, rootModsValue e.2)

/-- `Value::to_string` and `serde_json::from_str`. -/
structure Serde where
  toString : JsonVal → String
  fromStr : String → Option JsonVal

/-- `root_mods_json` -/
def Crates.rootModsJson (serde : Serde) (crates : Crates) : String := serde.toString (.obj (recordFields crates))

/-! ### The comparison -/

/-- `Value::get` of a key. -/
def field (v : JsonVal) (key : String) : Option JsonVal :=
  match v with
  | .obj fields => fields.lookup key
  | _ => none

def asStr : JsonVal → Option String
  | .str s => some s
  | _ => none

/-- The names of one side of a record, where it has them. -/
def names (v : JsonVal) (side : String) : Option (Finset String) :=
  match field v side with
  | some (.arr items) => (mapEach asStr items).map List.toFinset
  | _ => none

/-- The modules that one side gained or lost. -/
def sideTops (now was : JsonVal) (side : String) : Option (Finset String) := do
  let a ← names now side
  let b ← names was side
  return symmDiff a b

/-- The top-level modules that moved, or `none` for the whole package. -/
def movedTops (now was : Option JsonVal) : Option (Finset String) :=
  match now, was with
  | some now, some was => do
    let lib ← sideTops now was "lib"
    let main ← sideTops now was "main"
    return lib ∪ main
  | _, _ => none

/-- `now.as_ref() == was` -/
def sameRecord : Option JsonVal → Option JsonVal → Bool
  | some a, some b => a.same b
  | none, none => true
  | _, _ => false

/-- The packages whose record differs, with what moved in them. -/
def moved (stored : List (String × JsonVal)) (current : Crates) : List (String × Option (Finset String)) :=
  let dirs := (stored.map Prod.fst ++ current.rootMods.map Prod.fst).dedup
  dirs.filterMap fun dir =>
    let now := (current.rootMods.lookup dir).map rootModsValue
    let was := stored.lookup dir
    if sameRecord now was then none else some (dir, movedTops now was)

/-- The file is one that a change of the package moves. -/
def movesFile (path : String) (change : String × Option (Finset String)) : Bool :=
  match stripPrefix change.1 path with
  | none => false
  | some rel =>
    if ¬['.', 'r', 's'] <:+ rel ∨ rel = libRs ∨ rel = mainRs then false
    else change.2.all fun tops => topOf rel ∈ tops

/-- `rust_root_mod_moves` -/
def rustRootModMoves (serde : Serde) (stored : Option String) (current : Crates) (files : List String) : List String :=
  let fields := match stored.bind serde.fromStr with
    | some (.obj fields) => fields
    | _ => []
  sortByKey id (files.filter fun path => (moved fields current).any (movesFile path))

end CodeGraph.Pipeline.RustCrates
