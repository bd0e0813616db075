import CodeGraph.Lib.Glob

/-!
# Test symbols and test files

`domain::is_test_node` and the SQL conditions that mirror it. A condition is emitted as text and read by
SQLite; here it is the expression that the text parses to, over one row of `nodes` joined to its row of
`files`. Which aliases the two tables have in the text makes no difference to it.
-/

namespace CodeGraph.Domain

open CodeGraph.Lib

/-! ### `str` -/

/-- `str::starts_with`. -/
def startsWith (s w : String) : Bool := decide (w.toList <+: s.toList)

/-- `str::ends_with`. -/
def endsWith (s w : String) : Bool := decide (w.toList <:+ s.toList)

/-- `str::contains`. -/
def contains (s w : String) : Bool := decide (w.toList <:+: s.toList)

/-- `str::to_ascii_lowercase`. -/
def toAsciiLowercase (s : String) : String := String.ofList (s.toList.map Char.toLower)

/-! ### The Rust predicates -/

def pascalTestExts : List String := ["cs", "vb", "fs", "java", "kt", "scala", "swift", "php"]

def specTestExts : List String := ["scala", "kt"]

def pascalTestStemExts : List (String × List String) :=
  [("Test", pascalTestExts), ("Tests", pascalTestExts), ("Spec", specTestExts)]

def infixTestExts : List String := ["go", "rs", "py", "dart"]

/-- `is_test_path`. -/
def isTestPath (filePath : String) : Bool :=
  let lower := toAsciiLowercase filePath
  if startsWith lower "tests/" || startsWith lower "test/" || contains lower "/tests/" ||
      contains lower "/test/" then
    true
  else if pascalTestStemExts.any (fun (stem, exts) =>
      exts.any fun ext => endsWith filePath (stem ++ "." ++ ext)) then
    true
  else if infixTestExts.any (fun ext => endsWith filePath ("_test." ++ ext)) then
    true
  else if endsWith filePath ".py" &&
      (startsWith filePath "test_" || contains filePath "/test_" ||
        endsWith filePath "conftest.py") then
    true
  else
    startsWith filePath "benches/" || startsWith filePath "bench/" ||
    contains filePath "__tests__/" || endsWith filePath "/tests.rs" ||
    endsWith filePath ".test.ts" || endsWith filePath ".test.js" ||
    endsWith filePath ".test.tsx" || endsWith filePath ".test.jsx" ||
    endsWith filePath ".spec.ts" || endsWith filePath ".spec.js" ||
    endsWith filePath ".spec.tsx" || endsWith filePath ".spec.jsx"

/-- `is_test_symbol`. -/
def isTestSymbol (name filePath : String) : Bool :=
  startsWith name "test_" || endsWith name "Test" || endsWith name "Tests" || isTestPath filePath

/-- `is_test_node`. -/
def isTestNode (isTestFlag : Bool) (name filePath : String) : Bool :=
  isTestFlag || isTestSymbol name filePath

/-! ### The SQL conditions -/

/-- A row of `nodes` joined to its row of `files`. -/
structure JoinedRow where
  isTest : Bool
  name : String
  path : String

inductive Column
  | name | path

/-- Conditions on a joined row. None of the columns is ever `NULL`, so a condition is true or false. -/
inductive Sql
  | isTest (value : Bool)
  | glob (column : Column) (pat : String)
  | like (column : Column) (pat : String)
  | or (a b : Sql)
  | and (a b : Sql)
  | not (a : Sql)

def JoinedRow.get (row : JoinedRow) : Column → String
  | .name => row.name
  | .path => row.path

def Sql.eval (row : JoinedRow) : Sql → Bool
  | .isTest value => row.isTest == value
  | .glob column pat => Lib.glob pat (row.get column)
  | .like column pat => Lib.like pat (row.get column)
  | .or a b => a.eval row || b.eval row
  | .and a b => a.eval row && b.eval row
  | .not a => !a.eval row

/-- `a OR b OR … OR last`. -/
def Sql.orAll (legs : List Sql) (last : Sql) : Sql := legs.foldr .or last

/-- `test_path_legs_sql`: the generated legs, then the ones written out. -/
def testPathLegsSql : Sql :=
  Sql.orAll
    (pascalTestStemExts.flatMap (fun (stem, exts) =>
        exts.map fun ext => .glob .path ("*" ++ (stem ++ "." ++ ext))) ++
      infixTestExts.map (fun ext => .glob .path ("*" ++ ("_test." ++ ext))) ++
      [.like .path "tests/%",
       .like .path "test/%",
       .like .path "%/tests/%",
       .like .path "%/test/%",
       .glob .path "test_*.py",
       .glob .path "*/test_*.py",
       .glob .path "*conftest.py",
       .glob .path "benches/*",
       .glob .path "bench/*",
       .glob .path "*__tests__/*",
       .glob .path "*/tests.rs",
       .glob .path "*.test.ts",
       .glob .path "*.test.js",
       .glob .path "*.test.tsx",
       .glob .path "*.test.jsx",
       .glob .path "*.spec.ts",
       .glob .path "*.spec.js",
       .glob .path "*.spec.tsx"])
    (.glob .path "*.spec.jsx")

/-- `is_test_node_sql`. -/
def isTestNodeSql : Sql :=
  .orAll [.isTest true, .glob .name "test_*", .glob .name "*Test", .glob .name "*Tests"]
    testPathLegsSql

/-- `prod_filter_and`. -/
def prodFilterAnd : Sql :=
  .and (.and (.isTest false) (.not (.glob .name "test_*"))) (.not testPathLegsSql)

/-- `test_source_filter_or`. -/
def testSourceFilterOr : Sql :=
  .orAll [.isTest true, .glob .name "test_*"] testPathLegsSql

end CodeGraph.Domain
