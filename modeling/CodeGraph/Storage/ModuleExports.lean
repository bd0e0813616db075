import CodeGraph.Domain.TestFilter
import CodeGraph.Lib.Sort
import CodeGraph.Storage.Index
import CodeGraph.Storage.PathUnder
import Mathlib.Data.Finset.Card
import Mathlib.Data.List.AList
import Mathlib.Data.Prod.Lex
import Mathlib.Data.String.Basic

/-!
# The symbols of a module overview

`get_module_exports` and `count_export_filtered_out` of `storage/queries/routes.rs`, and the filter by `is_test_symbol`
that both callers of the first put on its answer. SQLite orders the rows by their callers and is free in how it orders
the rest, so the rows are an argument.
-/

namespace CodeGraph.Storage.ModuleExports

open CodeGraph.Lib CodeGraph.Storage CodeGraph.Domain

/-- The index with the other columns of `nodes` that an overview reads. -/
structure Db extends Index where
  qualifiedName : ℕ → Option String
  isTest : ℕ → Bool
  signature : ℕ → Option String
  startLine : ℕ → ℕ
  endLine : ℕ → ℕ

structure ModuleExport where
  nodeId : ℕ
  name : String
  nodeType : String
  signature : Option String
  filePath : String
  callerCount : ℕ
  startLine : ℕ
  endLine : ℕ
  qualifiedName : String
  deriving DecidableEq

def ModuleExport.key (e : ModuleExport) : String × String := (e.qualifiedName, e.filePath)

namespace Db

variable (db : Db)

/-- A node joined to its file. -/
def row (n : NodeRow) : JoinedRow := ⟨db.isTest n.id, n.name, (db.file n.fileId).path⟩

/-- `(COALESCE(n.qualified_name, n.name), f.path)`. -/
def key (n : NodeRow) : String × String := ((db.qualifiedName n.id).getD n.name, (db.file n.fileId).path)

/-! ### The export rule -/

/-- `EXISTS (SELECT 1 FROM edges ex WHERE ex.target_id = n.id AND ex.relation = ?3)`. -/
def exported (id : ℕ) : Prop := ∃ e ∈ db.edges, e.target = id ∧ e.relation = .exports

/-- The file has an exported node. -/
def declaresExports (fileId : ℕ) : Prop := ∃ n ∈ db.nodes, n.fileId = fileId ∧ db.exported n.id

/-- An exported node of the file owns the node by its qualified name. `NULL` equals nothing. -/
def ownedByExported (n : NodeRow) : Prop :=
  ∃ cls ∈ db.nodes, cls.fileId = n.fileId ∧
    (∃ owner ∈ db.qualifiedName cls.id, db.qualifiedName n.id = some (owner ++ "." ++ n.name)) ∧ db.exported cls.id

instance (id : ℕ) : Decidable (db.exported id) := inferInstanceAs (Decidable (∃ e ∈ db.edges, _))

instance (fileId : ℕ) : Decidable (db.declaresExports fileId) := inferInstanceAs (Decidable (∃ n ∈ db.nodes, _))

instance (n : NodeRow) : Decidable (db.ownedByExported n) := inferInstanceAs (Decidable (∃ cls ∈ db.nodes, _))

/-- `EXPORT_VISIBLE_PREDICATE`. -/
def exportVisible (n : NodeRow) : Prop :=
  db.exported n.id ∨ ¬db.declaresExports n.fileId ∨ db.ownedByExported n

instance (n : NodeRow) : Decidable (db.exportVisible n) := inferInstanceAs (Decidable (_ ∨ _))

/-- The conditions that both queries have, but for the ones on tests and exports. -/
def listed (dir : String) (n : NodeRow) : Prop :=
  pathUnderCondition (pathUnderSqlParams dir) (db.row n).path = true ∧ n.type ≠ "module" ∧ n.name ≠ "<module>" ∧
    (db.row n).path ≠ "<external>"

instance (dir : String) (n : NodeRow) : Decidable (db.listed dir n) := inferInstanceAs (Decidable (_ ∧ _))

/-! ### What is shown -/

/-- The calls of the node from where the code is no test. -/
def callerCount (n : NodeRow) : ℕ :=
  (db.edges.filter fun e =>
    e.target = n.id ∧ e.relation = .calls ∧ prodFilterAnd.eval (db.row (db.node e.source)) = true).card

def moduleExport (n : NodeRow) : ModuleExport where
  nodeId := n.id
  name := n.name
  nodeType := n.type
  signature := db.signature n.id
  filePath := (db.row n).path
  callerCount := db.callerCount n
  startLine := db.startLine n.id
  endLine := db.endLine n.id
  qualifiedName := (db.key n).1

/-- The rows of the query, in the order of the table. -/
def selectExports (dir : String) : List ModuleExport :=
  (db.nodes.filter fun n => db.listed dir n ∧ db.isTest n.id = false ∧ db.exportVisible n).map db.moduleExport

end Db

/-- One row more for the map of the best row of each key. -/
def keepBest (best : AList fun _ : String × String => ModuleExport) (e : ModuleExport) :
    AList fun _ : String × String => ModuleExport :=
  match best.lookup e.key with
  | some existing => if existing.callerCount < e.callerCount then best.insert e.key e else best
  | none => best.insert e.key e

/-- The rest of `get_module_exports`, on the rows that the query gives. -/
def getModuleExports (rows : List ModuleExport) : List ModuleExport :=
  sortByKey (fun e => toLex (OrderDual.toDual e.callerCount, toLex (e.filePath, toLex (e.startLine, e.qualifiedName))))
    ((rows.foldl keepBest ∅).entries.map Sigma.snd)

/-- What the callers keep of it. -/
def overview (rows : List ModuleExport) : List ModuleExport :=
  (getModuleExports rows).filter fun e => !isTestSymbol e.name e.filePath

/-! ### What is withheld -/

/-- `COALESCE(n.qualified_name, n.name) || char(31) || f.path`. -/
def joinKey (k : String × String) : String := k.1 ++ "\x1f" ++ k.2

namespace Db

variable (db : Db)

def withheldKeys (dir : String) : List (String × String) :=
  (db.nodes.filter fun n => db.listed dir n ∧ isTestNodeSql.eval (db.row n) = false ∧ ¬db.exportVisible n).map db.key

def countExportFilteredOut (dir : String) : ℕ := ((db.withheldKeys dir).map joinKey).toFinset.card

end Db

end CodeGraph.Storage.ModuleExports
