import CodeGraph.Lib.Texts
import CodeGraph.Pipeline.PythonModules

/-!
# The importers of a Python module path that changes

`python_root_change_importers` of `indexer/pipeline/index_files.rs`, with `changed_module_paths`: the files to extract
again because a run makes other files of the modules they import. What the run reads is a table of files and one of
edges, each edge with the columns of the nodes and files that it joins.
-/

namespace CodeGraph.Pipeline.PythonModules

open CodeGraph.Lib

/-! ### Module paths that change -/

/-- The keys that a file is registered under. -/
def keysOf (roots : List Path) (path : Path) : List (List Char) :=
  match stem path with
  | none => []
  | some stripped => (roots.filterMap fun root => relTo root stripped).filter (· ≠ []) |>.map dotted

/-- `map.keys()`. -/
def moduleKeys (paths : List Path) : List (List Char) := paths.flatMap (keysOf (importRoots paths))

/-- `changed_module_paths`. -/
def changedModulePaths (before after : List Path) : List (List Char) :=
  (moduleKeys before ++ moduleKeys after).filter fun key =>
    buildPythonModuleMap before key ≠ buildPythonModuleMap after key

/-! ### What the index holds -/

/-- `EXTERNAL_FILE_PATH`. -/
def externalFilePath : Path := ['<', 'e', 'x', 't', 'e', 'r', 'n', 'a', 'l', '>']

structure StoredEdge where
  relation : String
  sourcePath : Path
  sourceLanguage : Option String
  targetPath : Path
  targetName : List Char
  /-- `$.python_module` of the metadata. -/
  pythonModule : Option (List Char)

structure Stored where
  files : List Path
  edges : List StoredEdge

/-- The rows of `bound`. -/
def boundImports (s : Stored) : List (Path × List Char) :=
  s.edges.filterMap fun e =>
    if e.relation = "imports" ∧ e.sourceLanguage = some "python" then e.pythonModule.map fun m => (e.sourcePath, m)
    else none

/-- `get_external_sentinel_importers`. -/
def externalSentinelImporters (s : Stored) : List (List Char × Path) :=
  s.edges.filterMap fun e =>
    if e.targetPath = externalFilePath ∧ e.relation ≠ "calls" ∧ e.sourceLanguage.isSome then
      some (e.targetName, e.sourcePath)
    else none

/-- `LIKE '%.py'`, which does not look at the case of ASCII letters. -/
def likePy (path : Path) : Bool := pySuffix.isSuffixOf (path.map Char.toLower)

/-- `before`. -/
def pythonBefore (s : Stored) : List Path := s.files.filter likePy

/-- `after`. -/
def pythonAfter (s : Stored) (files deletePaths : List Path) : List Path :=
  (pythonBefore s).filter (· ∉ deletePaths) ++ files.filter fun f => pySuffix.isSuffixOf f

/-! ### The run -/

def isInit (path : Path) : Bool := path == initSuffix.tail || initSuffix.isSuffixOf path

/-- The Python files of a run that the index does not know. -/
def appearing (s : Stored) (files : List Path) : List Path :=
  files.filter fun f => pySuffix.isSuffixOf f && decide (f ∉ s.files)

/-- `packages`. -/
def movedPackages (s : Stored) (files deletePaths : List Path) : List Path :=
  (deletePaths.filter isInit).map dirOf ++ ((appearing s files).filter isInit).map dirOf

/-- `new_module`. -/
def newModule (s : Stored) (files : List Path) : Bool := (appearing s files).any fun f => !isInit f

/-- `names_package`. -/
def namesPackage (packages : List Path) (pythonModule : List Char) (importer : Path) : Bool :=
  (relativeModulePath pythonModule importer).any fun p => decide (p ∈ packages)

/-- `python_root_change_importers`. -/
def pythonRootChangeImporters (s : Stored) (files deletePaths : List Path) : List Path :=
  let packages := movedPackages s files deletePaths
  if packages = [] ∧ newModule s files = false then []
  else
    let before := pythonBefore s
    if before = [] then []
    else
      let changed := changedModulePaths before (pythonAfter s files deletePaths)
      if changed = [] then []
      else
        let moves := fun m importer => decide (m ∈ changed) || namesPackage packages m importer
        let bound := (boundImports s).filter fun row => moves row.2 row.1
        let sentinels := (externalSentinelImporters s).filter fun row =>
          pySuffix.isSuffixOf row.2 && moves row.1 row.2
        sortDedup (bound.map Prod.fst ++ sentinels.map Prod.snd)

end CodeGraph.Pipeline.PythonModules
