import CodeGraph.Lib.Sort
import CodeGraph.Lib.Texts
import Mathlib.Data.Char
import Mathlib.Data.Finset.Card
import Mathlib.Data.List.Lex
import Mathlib.Logic.Function.Basic

/-!
# Python modules

`indexer/pipeline/python_modules.rs`: which files a dotted module path names, and what a module re-exports. Paths and
module paths are their characters. A set of paths is a list, in the order in which the code iterates over it.
-/

namespace CodeGraph.Pipeline.PythonModules

open CodeGraph.Lib

abbrev Path := List Char

def pySuffix : Path := ['.', 'p', 'y']

def initSuffix : Path := ['/', '_', '_', 'i', 'n', 'i', 't', '_', '_', '.', 'p', 'y']

/-! ### Import roots -/

/-- What `rsplit_once('/')` leaves of a path, time after time: the directories above it, the nearest first. -/
def dirsBack : Path → List Path
  | [] => []
  | c :: back => if c = '/' then back.reverse :: dirsBack back else dirsBack back

def dirs (path : Path) : List Path := dirsBack path.reverse

/-- The directories that hold an `__init__.py`. -/
def packages (paths : List Path) : List Path := paths.filterMap fun p => p.dropSuffix? initSuffix

/-- The roots above one file: root-first, up to the first package. -/
def rootsAbove (paths : List Path) (path : Path) : List Path :=
  (dirs path).reverse.takeWhile fun d => d ∉ packages paths

/-- `import_roots`. -/
def importRoots (paths : List Path) : List Path :=
  paths.foldl (fun roots path => (rootsAbove paths path).foldl (fun roots d => roots.insert d) roots) [[]]

/-! ### The module map -/

abbrev ModuleMap := List Char → Option (List Path)

/-- `map.entry(key).or_default().push(path)`. -/
def ModuleMap.push (map : ModuleMap) (key : List Char) (path : Path) : ModuleMap :=
  Function.update map key (some ((map key).getD [] ++ [path]))

/-- A path without `/__init__.py`, or without `.py`. -/
def stem (path : Path) : Option Path := (path.dropSuffix? initSuffix).or (path.dropSuffix? pySuffix)

/-- `rel`. -/
def relTo (root stripped : Path) : Option Path :=
  if root = [] then some stripped else (stripped.dropPrefix? root).bind fun r => r.dropPrefix? ['/']

/-- `rel.replace('/', ".")`. -/
def dotted (path : Path) : List Char := path.map fun c => if c = '/' then '.' else c

def registerAt (path stripped : Path) (map : ModuleMap) (root : Path) : ModuleMap :=
  match relTo root stripped with
  | none => map
  | some rel => if rel = [] then map else map.push (dotted rel) path

def register (roots : List Path) (map : ModuleMap) (path : Path) : ModuleMap :=
  match stem path with
  | none => map
  | some stripped => roots.foldl (registerAt path stripped) map

/-- `sort` and `dedup`. -/
def sortDedup {α : Type*} [LinearOrder α] (l : List α) : List α := inOrder l.toFinset

/-- `build_python_module_map`. -/
def buildPythonModuleMap (paths : List Path) : ModuleMap := fun key =>
  ((paths.foldl (register (importRoots paths)) fun _ => none) key).map sortDedup

/-! ### Relative module paths -/

/-- `importer.rsplit_once('/').map_or("", |(d, _)| d)`. -/
def dirOf (path : Path) : Path := (dirs path).head?.getD []

/-- `r.replace('.', "/")`. -/
def slashed (rest : List Char) : Path := rest.map fun c => if c = '.' then '/' else c

/-- The loop over the dots after the first, and the path that is left. -/
def climb : List Char → Path → Option Path
  | '.' :: rest, dir => if dir = [] then none else climb rest (dirOf dir)
  | rest, dir =>
    match dir, rest with
    | [], [] => none
    | [], r => some (slashed r)
    | d, [] => some d
    | d, r => some (d ++ '/' :: slashed r)

/-- `relative_module_path`. -/
def relativeModulePath (pythonModule : List Char) (importer : Path) : Option Path :=
  match pythonModule with
  | '.' :: rest => climb rest (dirOf importer)
  | _ => none

/-- The files that a module path without `.py` spells. -/
def wanted (path : Path) : List Path := [path ++ pySuffix, path ++ initSuffix]

/-- `project_module_files_from`. -/
def projectModuleFilesFrom (pythonModule : List Char) (importer : Path) (map : ModuleMap) : Option (List Path) :=
  if ¬['.'] <+: pythonModule then map pythonModule
  else
    (relativeModulePath pythonModule importer).bind fun path =>
      (map (dotted path)).bind fun found =>
        let files := found.filter fun f => f ∈ wanted path
        if files = [] then none else some files

/-! ### Re-exports -/

/-- `REEXPORT_MAX_DEPTH`. -/
def reexportMaxDepth : ℕ := 8

/-- An `imports` edge of a Python file that names a symbol. -/
structure ReexportEdge where
  target : ℤ
  sources : Option ℤ
  targetName : String
  targetPath : Path
  pythonModule : List Char

/-- The files and names that are being answered. -/
abbrev OnPath := Finset (Path × String)

/-- What a call gives: the targets, and `on_path` after it. It is `none` where the fuel ran out. -/
abbrev Answer := Option (List ℤ × OnPath)

section Reexports

variable (reexports : Path → String → OnPath → Answer) (edges : Path → List ReexportEdge) (map : ModuleMap)

/-- The loop over the files of an edge's module, until one verifies it. -/
def verifyIn (target : ℤ) (name : String) : List Path → Bool → OnPath → Option (Bool × OnPath)
  | [], verified, onPath => some (verified, onPath)
  | f :: files, verified, onPath =>
    if verified then some (verified, onPath)
    else (reexports f name onPath).bind fun x => verifyIn target name files (x.1.contains target) x.2

/-- The loop over the edges of a file. -/
def followEdges (file : Path) : List ReexportEdge → List ℤ → OnPath → Answer
  | [], out, onPath => some (out, onPath)
  | e :: rows, out, onPath =>
    match projectModuleFilesFrom e.pythonModule file map with
    | none => followEdges file rows out onPath
    | some files =>
      (verifyIn reexports e.target e.targetName files (files.contains e.targetPath) onPath).bind fun x =>
        followEdges file rows (if x.1 then out ++ [e.target] else out) x.2

end Reexports

/-- `reexports_of`. -/
def reexportsOf (edges : Path → List ReexportEdge) (map : ModuleMap) : ℕ → Path → String → OnPath → Answer
  | 0, _, _, _ => none
  | fuel + 1, file, name, onPath =>
    let key := (file, name)
    if reexportMaxDepth < onPath.card ∨ key ∈ onPath then some ([], onPath)
    else
      let matched := (edges file).filter fun e => e.targetName = name
      if matched.any fun e => e.sources.isSome then some ([], (insert key onPath).erase key)
      else
        (followEdges (reexportsOf edges map fuel) map file matched [] (insert key onPath)).map fun x =>
          (x.1, x.2.erase key)

/-- The loop over the files of the module. -/
def reexportsIn (fuel : ℕ) (edges : Path → List ReexportEdge) (map : ModuleMap) (name : String) :
    List Path → List ℤ → OnPath → Answer
  | [], out, onPath => some (out, onPath)
  | file :: files, out, onPath =>
    (reexportsOf edges map fuel file name onPath).bind fun x =>
      reexportsIn fuel edges map name files (out ++ x.1) x.2

/-- `python_reexport_targets`. -/
def pythonReexportTargets (fuel : ℕ) (edges : Path → List ReexportEdge) (moduleFiles : List Path) (name : String)
    (map : ModuleMap) : Option (List ℤ) :=
  (reexportsIn fuel edges map name moduleFiles [] ∅).map fun x => sortDedup x.1

end CodeGraph.Pipeline.PythonModules
