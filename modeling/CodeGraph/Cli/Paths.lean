import CodeGraph.Indexer.PathKey
import CodeGraph.Lib.Words
import Mathlib.Data.List.DropRight

/-!
# Paths from the user

`normalize_user_path_key` of `cli/paths.rs` with `collapse_within_root`, and `is_safe_relative_path` of
`indexer/pipeline/mod.rs`. A path is its characters, read as `std::path` reads it where `/` separates; there no
component is a drive prefix. What the branch for absolute paths answers depends on where the links of the file system
lead, so it is a parameter, as is the test whether a path exists.
-/

namespace CodeGraph.Cli.Paths

open CodeGraph.Lib CodeGraph.Indexer.PathKey

/-! ### `std::path` -/

inductive Component
  | rootDir
  | curDir
  | parentDir
  | normal (name : List Char)
  deriving DecidableEq

/-- The parts between the separators. -/
def parts (path : List Char) : List (List Char) := words (· == '/') path

def isAbsolute (path : List Char) : Bool := path.head? == some '/'

/-- `Path::components`: a dot counts only where the path begins with it. -/
def components (path : List Char) : List Component :=
  let leading := if isAbsolute path then [.rootDir] else if (parts path).head? = some ['.'] then [.curDir] else []
  leading ++ ((parts path).filter fun part => part != ['.']).map fun part =>
    if part = ['.', '.'] then .parentDir else .normal part

def Component.text : Component → List Char
  | .rootDir => ['/']
  | .curDir => ['.']
  | .parentDir => ['.', '.']
  | .normal name => name

/-- `Path::strip_prefix`, by components. -/
def stripPrefix (path base : List Char) : Option (List Char) :=
  if components base <+: components path then
    some (List.intercalate ['/'] (((components path).drop (components base).length).map Component.text))
  else none

/-- `Path::join`. -/
def join (dir path : List Char) : List Char :=
  if isAbsolute path then path
  else if dir.isEmpty || dir.getLast? == some '/' then dir ++ path
  else dir ++ '/' :: path

/-! ### The checks -/

/-- The loop of `is_safe_relative_path`. -/
def safeFrom : ℤ → List Component → Bool
  | _, [] => true
  | depth, .normal _ :: rest => safeFrom (depth + 1) rest
  | depth, .curDir :: rest => safeFrom depth rest
  | depth, .parentDir :: rest => if depth - 1 < 0 then false else safeFrom (depth - 1) rest
  | _, .rootDir :: _ => false

/-- `is_safe_relative_path`. -/
def isSafeRelativePath (relPath : List Char) : Bool := safeFrom 0 (components relPath)

/-- The loop of `collapse_within_root`, with the top of the stack first. -/
def collapseFrom : List (List Char) → List Component → Option (List (List Char))
  | stack, [] => some stack
  | stack, .normal name :: rest => collapseFrom (name :: stack) rest
  | stack, .curDir :: rest => collapseFrom stack rest
  | _ :: stack, .parentDir :: rest => collapseFrom stack rest
  | [], .parentDir :: _ => none
  | _, .rootDir :: _ => none

/-- `collapse_within_root`. -/
def collapseWithinRoot (rel : List Char) : Option (List Char) :=
  (collapseFrom [] (components rel)).map fun stack => List.intercalate ['/'] stack.reverse

/-- `is_cwd_anchored`. -/
def isCwdAnchored (raw : List Char) : Bool :=
  raw == ['.'] || ['.', '/'].isPrefixOf raw || ['.', '.', '/'].isPrefixOf raw || ['.', '\\'].isPrefixOf raw ||
    ['.', '.', '\\'].isPrefixOf raw

/-- `needs_lexical_windows_rejection`. -/
def needsLexicalWindowsRejection (raw : List Char) (nativelyAbsolute : Bool) : Bool :=
  if nativelyAbsolute then false
  else
    (match raw with
      | c :: ':' :: rest => c.isAlpha && (rest.isEmpty || rest.head? == some '/' || rest.head? == some '\\')
      | _ => false) || ['\\', '\\'].isPrefixOf raw

/-! ### The key -/

def escapes (raw projectRoot : List Char) : List Char :=
  "path '".toList ++ raw ++ "' escapes the project root '".toList ++ projectRoot ++
    "' — use a path inside the project".toList

def outside (raw projectRoot : List Char) : List Char :=
  "path '".toList ++ raw ++ "' is outside the project root '".toList ++ projectRoot ++
    "' — use a relative path or one under the project root".toList

/-- The part of `normalize_user_path_key` for relative paths: `typed` is the path as it was typed, `raw` with its
separators normalized. -/
def relativeKey (present : List Char → Bool) (projectRoot cwdRel typed raw : List Char) :
    Except (List Char) (List Char) :=
  if cwdRel.isEmpty then
    if raw = ['.'] then .ok []
    else if ['.', '/'] <+: raw then
      if isSafeRelativePath (raw.drop 2) then .ok (raw.drop 2) else .error (escapes typed projectRoot)
    else if isSafeRelativePath raw then .ok raw
    else .error (escapes typed projectRoot)
  else
    match collapseWithinRoot (join cwdRel raw) with
    | none => .error (escapes typed projectRoot)
    | some subdirRel =>
      -- the path may have been meant from the root
      if !isCwdAnchored raw && !present (join projectRoot subdirRel) && isSafeRelativePath raw &&
          present (join projectRoot raw) then
        match collapseWithinRoot raw with
        | some key => .ok key
        | none => .error (escapes typed projectRoot)
      else .ok subdirRel

/-- `normalize_user_path_key`. -/
def normalizeUserPathKey (absolute : List Char → Except (List Char) (List Char)) (present : List Char → Bool)
    (projectRoot cwd raw : List Char) (backslashIsSep : Bool) : Except (List Char) (List Char) :=
  if needsLexicalWindowsRejection raw (isAbsolute raw) then .error (outside raw projectRoot)
  else if isAbsolute raw then absolute raw
  else relativeKey present projectRoot ((stripPrefix cwd projectRoot).getD []) raw
    (normalizeRelStrOn raw backslashIsSep)

end CodeGraph.Cli.Paths
