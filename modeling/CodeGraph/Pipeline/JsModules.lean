import CodeGraph.Domain.TestFilter
import Mathlib.Data.Finset.Basic

/-!
# JS and TS module specifiers

`js_modules.rs`: which indexed file a relative specifier names.
-/

namespace CodeGraph.Pipeline

open CodeGraph.Domain

/-! ### `str` and `Path` -/

/-- `str::split` at a character. -/
def splitChar (s : String) (c : Char) : List String := (s.toList.splitOn c).map String.ofList

/-- `str::rsplit_once` at a character. -/
def rsplitOnce (s : String) (c : Char) : Option (String × String) :=
  let back := s.toList.reverse
  if c ∈ back then
    some (String.ofList ((back.dropWhile (· ≠ c)).tail.reverse),
      String.ofList ((back.takeWhile (· ≠ c)).reverse))
  else none

/-- `Path::file_name`: empty components and `.` are skipped, and `..` has no name. -/
def fileName (path : String) : Option String :=
  (((splitChar path '/').filter fun seg => seg ≠ "" ∧ seg ≠ ".").getLast?).filter (· ≠ "..")

/-- `Path::extension`: what follows the last dot of the file name, unless that dot starts it. -/
def extension (path : String) : Option String :=
  match (fileName path).bind fun name => rsplitOnce name '.' with
  | none => none
  | some (before, after) => if before = "" then none else some after

/-! ### Specifiers -/

def jsExtensions : List String := ["ts", "tsx", "js", "jsx", "mjs", "cjs"]

/-- `is_js_module_path`. -/
def isJsModulePath (path : String) : Bool :=
  match extension path with
  | none => false
  | some e => e ∈ jsExtensions

/-- `normalize_rel_path`: `.` and `..` collapsed, nothing for a path out of the root. -/
def normalizeRelPath (path : String) : Option String :=
  ((splitChar path '/').foldl normalizeSeg (some [])).map fun out => "/".intercalate out.reverse
where
  /-- One segment, with the segments so far from the last to the first. -/
  normalizeSeg (out : Option (List String)) (seg : String) : Option (List String) :=
    if seg = "" ∨ seg = "." then out
    else if seg = ".." then
      match out with
      | some (_ :: rest) => some rest
      | _ => none
    else out.map (seg :: ·)

/-- The normalized path that a specifier means, before any extension is tried. Only relative specifiers mean
one; a bare `.` or `..` is a directory. -/
def jsSpecifierBase (specifier importerRelPath : String) : Option String :=
  let specifier := if specifier = "." ∨ specifier = ".." then specifier ++ "/" else specifier
  if !(startsWith specifier "./" || startsWith specifier "../") then none
  else
    let importerDir := match rsplitOnce importerRelPath '/' with
      | some (dir, _) => dir
      | none => ""
    normalizeRelPath (if importerDir = "" then specifier else importerDir ++ "/" ++ specifier)

/-- The paths tried for a base: itself, `base.ext`, `base/index.ext`. -/
def jsCandidates (base : String) : List String :=
  base ::
    (jsExtensions.map (fun ext => base ++ "." ++ ext) ++
      jsExtensions.map fun ext => if base = "" then "index." ++ ext else base ++ "/index." ++ ext)

/-- `resolve_js_specifier_path`. -/
def resolveJsSpecifierPath (specifier importerRelPath : String) (fileSet : Finset String) : Option String :=
  (jsSpecifierBase specifier importerRelPath).bind fun base =>
    (jsCandidates base).find? fun cand => cand ∈ fileSet

/-- A specifier that resolves names a file of the set. -/
theorem mem_of_resolveJsSpecifierPath {specifier importer file : String} {fileSet : Finset String}
    (h : resolveJsSpecifierPath specifier importer fileSet = some file) : file ∈ fileSet := by
  obtain ⟨base, -, hfind⟩ := Option.bind_eq_some_iff.mp h
  have hmem := List.find?_some hfind
  simpa using hmem

example : resolveJsSpecifierPath "../util" "src/core/caller.ts" {"src/util/index.ts"} =
    some "src/util/index.ts" := by decide +kernel

end CodeGraph.Pipeline
