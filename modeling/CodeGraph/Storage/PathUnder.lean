import CodeGraph.Lib.Glob
import Mathlib.Data.List.DropRight

/-!
# Paths under a directory

`escape_like`, `path_is_under` and `path_under_sql_params` of `storage/queries/helpers.rs`, with the condition that the
queries splice the two parameters into.
-/

namespace CodeGraph.Storage

open CodeGraph.Lib

/-- `str::replace` of one character. -/
def replaceChar (c : Char) (w : List Char) (s : List Char) : List Char := s.flatMap fun d => if d = c then w else [d]

/-- `trim_end_matches('/')`. -/
def trimEndSlashes (dir : List Char) : List Char := dir.rdropWhile fun c => c = '/'

/-- `str::strip_prefix`. -/
def stripPrefix (w s : List Char) : Option (List Char) := if w <+: s then some (s.drop w.length) else none

def escapeLike (s : List Char) : List Char :=
  replaceChar '_' ['\\', '_'] (replaceChar '%' ['\\', '%'] (replaceChar '\\' ['\\', '\\'] s))

def pathIsUnder (path dir : String) : Bool :=
  match stripPrefix (trimEndSlashes dir.toList) path.toList with
  | some rest => rest.isEmpty || rest.head? = some '/'
  | none => false

def pathUnderSqlParams (dir : String) : String × String :=
  let dir := trimEndSlashes dir.toList
  if dir.isEmpty then ("", "%") else (String.ofList dir, String.ofList (escapeLike dir ++ ['/', '%']))

/-- `(f.path = :exact OR f.path LIKE :pattern ESCAPE '\')`. -/
def pathUnderCondition (params : String × String) (path : String) : Bool :=
  path == params.1 || likeEscape '\\' params.2 path

end CodeGraph.Storage
