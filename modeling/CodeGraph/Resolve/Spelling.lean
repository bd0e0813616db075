import CodeGraph.Pipeline.InFlight
import CodeGraph.Storage.Index
import Mathlib.Data.String.Basic

/-!
# The spelling of a symbol

`canonical_symbol_spelling` of `resolve.rs`. The index spells a member `Type.method`; a user may write
`Type::method`, and C++ and Ruby store some names with `::`.
-/

namespace CodeGraph.Resolve

open CodeGraph.Lib CodeGraph.Storage CodeGraph.Pipeline.InFlight

/-- The index with the qualified names of its nodes. -/
structure Db extends Index where
  qualifiedName : ℕ → Option String

/-- `::` -/
def pathSep : Text := [':', ':']

namespace Db

variable (db : Db)

/-- The row of a node is no sentinel for an import from outside. -/
def inProject (n : NodeRow) : Bool := (db.file n.fileId).path ≠ "<external>"

def hasQualifiedName (n : NodeRow) (spelling : Text) : Bool := (db.qualifiedName n.id).map String.toList = some spelling

/-- The query of `stored`. -/
def stored (spelling : Text) : Bool :=
  db.nodes.any fun n => (n.name.toList = spelling || db.hasQualifiedName n spelling) && db.inProject n

/-- `get_nodes_with_files_by_qualified_name` finds a node. -/
def definedAs (symbol : Text) : Bool :=
  db.nodes.any fun n => db.hasQualifiedName n symbol && db.inProject n &&
    n.type ∉ ["module", "h1", "h2", "h3", "h4", "h5", "h6"]

/-- Each segment has a visible character and no `.` or `:`. -/
def plainSegments (path : Text) : Bool :=
  (split pathSep path).all fun seg => trim isWhitespace seg ≠ [] && seg.all fun c => c ∉ ['.', ':']

/-- The second half of `canonical_symbol_spelling`: a dotted name that nothing is called. -/
def nestedSpelling (dotted : Text) : Text :=
  let segments := split ['.'] dotted
  match segments.getLast? with
  | none => dotted
  | some member =>
    let path := segments.dropLast
    if path = [] ∨ db.stored dotted then dotted
    else
      let nested := [pathSep.intercalate path ++ '.' :: member, pathSep.intercalate segments]
      ((nested.filter (· ≠ dotted)).find? db.definedAs).getD dotted

/-- `canonical_symbol_spelling` -/
def canonicalSymbolSpelling (symbol : Text) : Text :=
  if pathSep <:+: symbol then
    let path := if pathSep <+: symbol then symbol.drop pathSep.length else symbol
    if ¬plainSegments path ∨ db.stored symbol then symbol
    else db.nestedSpelling (replace pathSep ['.'] path)
  else db.nestedSpelling symbol

end Db

end CodeGraph.Resolve
