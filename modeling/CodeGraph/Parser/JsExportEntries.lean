import CodeGraph.Lib.SyntaxTree
import Mathlib.Data.List.DropRight
import Mathlib.Logic.Function.Basic

/-!
# The export entries of a JavaScript module

`parser/relations/js_export_entries.rs`. A node has its named children; an export statement has its tokens `*` and
`default` among them, which the source looks for. A list stands for the vector an entry is pushed to.
-/

namespace CodeGraph.Parser.JsExports

open CodeGraph.Lib

/-- The kinds of node that are told apart. -/
inductive Kind
  | program
  | exportStatement
  | expressionStatement
  | importStatement
  | importRequireClause
  | importClause
  | namespaceImport
  | namedImports
  | importSpecifier
  | lexicalDeclaration
  | variableDeclaration
  | variableDeclarator
  | ambientDeclaration
  | importAlias
  | namespaceExport
  | exportClause
  | exportSpecifier
  | starToken
  | defaultToken
  | assignmentExpression
  | callExpression
  | arguments
  | memberExpression
  | identifier
  | propertyIdentifier
  | string
  | object
  | pair
  | shorthandPropertyIdentifier
  | spreadElement
  | methodDefinition
  | objectPattern
  | arrayPattern
  | restPattern
  | pairPattern
  | assignmentPattern
  | objectAssignmentPattern
  | shorthandPropertyIdentifierPattern
  | other (name : List Char)
  deriving DecidableEq

inductive Field
  | source
  | name
  | alias
  | value
  | declaration
  | key
  | left
  | right
  | object
  | property
  | function
  | arguments
  deriving DecidableEq

abbrev Node := SyntaxTree Kind Field

abbrev Text := List Char

/-- `JsExportEntry`. -/
inductive JsExportEntry
  | ownBinding (exported binding : Text)
  | indirect (exported spec : Text) (imported : Option Text)
  | star (spec : Text)
  deriving DecidableEq

/-- What a binding was imported as; `none` is the namespace of the module. -/
structure Imported where
  spec : Text
  imported : Option Text
  deriving DecidableEq

/-- The map of what the top-level bindings were imported as. -/
abbrev Bindings := Text → Option Imported

def requireName : Text := ['r', 'e', 'q', 'u', 'i', 'r', 'e']

def defaultName : Text := ['d', 'e', 'f', 'a', 'u', 'l', 't']

def exportsName : Text := ['e', 'x', 'p', 'o', 'r', 't', 's']

def moduleExportsName : Text := ['m', 'o', 'd', 'u', 'l', 'e', '.', 'e', 'x', 'p', 'o', 'r', 't', 's']

/-! ### Names and values -/

def isQuote (c : Char) : Bool := c = '\x22' || c = '\x27' || c = '\x60'

def unquote (text : Text) : Text := (text.dropWhile isQuote).rdropWhile isQuote

def moduleExportName (node : Node) : Text := if node.kind = .string then unquote node.text else node.text

def requireSpec (node : Node) : Option Text := do
  guard (node.kind = .callExpression)
  let function ← node.childByField .function
  guard (function.kind = .identifier ∧ function.text = requireName)
  let args ← node.childByField .arguments
  let first ← args.namedChildren.head?
  guard (args.namedChildren.length = 1 ∧ first.kind = .string)
  let spec := unquote first.text
  guard (spec ≠ [])
  return spec

def requiredValue (node : Node) : Option Imported :=
  match requireSpec node with
  | some spec => some ⟨spec, none⟩
  | none => do
    guard (node.kind = .memberExpression)
    let object ← node.childByField .object
    let property ← node.childByField .property
    let spec ← requireSpec object
    return ⟨spec, some property.text⟩

/-! ### Imports -/

/-- A clause of `import … from 'spec'`. -/
def importClauseNames (spec : Text) (b : Node) : List (Text × Imported) :=
  match b.kind with
  | .identifier => [(b.text, ⟨spec, some defaultName⟩)]
  | .namespaceImport =>
    (b.namedChildren.find? fun n => n.kind = .identifier).toList.map fun n => (n.text, ⟨spec, none⟩)
  | .namedImports =>
    (b.namedChildren.filter fun s => s.kind = .importSpecifier).filterMap fun s =>
      (s.childByField .name).map fun name =>
        let name := moduleExportName name
        (((s.childByField .alias).map SyntaxTree.text).getD name, ⟨spec, some name⟩)
  | _ => []

/-- TypeScript's `import x = require('./x')`. -/
def importRequireNames (c : Node) : Option (Text × Imported) := do
  let spec ← c.childByField .source
  let name ← c.namedChildren.find? fun n => n.kind = .identifier
  return (name.text, ⟨unquote spec.text, none⟩)

/-- The key and the name of one property of `const { a, b: c } = require('./x')`. -/
def patternBinding (p : Node) : Option (Text × Text) :=
  match p.kind with
  | .shorthandPropertyIdentifierPattern => some (p.text, p.text)
  | .pairPattern => do
    let k ← p.childByField .key
    let v ← p.childByField .value
    guard (v.kind = .identifier)
    return (moduleExportName k, v.text)
  | _ => none

def declaratorNames (d : Node) : List (Text × Imported) :=
  match d.childByField .name, (d.childByField .value).bind requiredValue with
  | some name, some required =>
    if name.kind = .identifier then [(name.text, required)]
    else if name.kind = .objectPattern ∧ required.imported = none then
      (name.namedChildren.filterMap patternBinding).map fun b => (b.2, ⟨required.spec, some b.1⟩)
    else []
  | _, _ => []

/-- What a statement imports, in order. -/
def importedNames (statement : Node) : List (Text × Imported) :=
  match statement.kind with
  | .importStatement =>
    match ((statement.childByField .source).map fun s => unquote s.text).filter fun s => s ≠ [] with
    | some spec =>
      (statement.namedChildren.filter fun c => c.kind = .importClause).flatMap fun clause =>
        clause.namedChildren.flatMap (importClauseNames spec)
    | none => (statement.namedChildren.filter fun c => c.kind = .importRequireClause).filterMap importRequireNames
  | .lexicalDeclaration | .variableDeclaration =>
    (statement.namedChildren.filter fun d => d.kind = .variableDeclarator).flatMap declaratorNames
  | _ => []

def collectImported (imported : Bindings) (statement : Node) : Bindings :=
  (importedNames statement).foldl (fun m b => Function.update m b.1 (some b.2)) imported

/-! ### Export statements -/

def bindingEntry (exported binding : Text) (imported : Bindings) : JsExportEntry :=
  match imported binding with
  | some i => .indirect exported i.spec i.imported
  | none => .ownBinding exported binding

def exportSpecifiers (clause : Node) : List Node := clause.namedChildren.filter fun s => s.kind = .exportSpecifier

/-- The name of a specifier and the name it is exported as. -/
def specifierNames (s : Node) : Option (Text × Text) :=
  (s.childByField .name).map fun name =>
    (moduleExportName name, ((s.childByField .alias).map moduleExportName).getD (moduleExportName name))

/-- The identifiers of a pattern, down to a number of levels. -/
def patternNames : ℕ → Node → List Text
  | 0, _ => []
  | levels + 1, node =>
    match node.kind with
    | .identifier | .shorthandPropertyIdentifierPattern => [node.text]
    | .pairPattern => (node.childByField .value).toList.flatMap (patternNames levels)
    | .assignmentPattern | .objectAssignmentPattern => (node.childByField .left).toList.flatMap (patternNames levels)
    | .objectPattern | .arrayPattern | .restPattern => node.namedChildren.flatMap (patternNames levels)
    | _ => []

/-- The names that a declaration binds, down to a number of levels. -/
def declaredNames : ℕ → Node → List Text
  | 0, _ => []
  | levels + 1, decl =>
    match decl.kind with
    | .lexicalDeclaration | .variableDeclaration =>
      (decl.namedChildren.filter fun d => d.kind = .variableDeclarator).flatMap fun d =>
        (d.childByField .name).toList.flatMap (patternNames 17)
    | .ambientDeclaration => decl.namedChildren.flatMap (declaredNames levels)
    | .importAlias => []
    | _ => ((decl.childByField .name).toList.map SyntaxTree.text).filter fun n => n ≠ []

/-- What `export … from 'spec'` exports. -/
def exportFromEntries (children : List Node) (spec : Text) : List JsExportEntry :=
  match children.find? fun c => c.kind = .namespaceExport with
  | some ns => ns.namedChildren.head?.toList.map fun name => .indirect (moduleExportName name) spec none
  | none =>
    match children.find? fun c => c.kind = .exportClause with
    | some clause =>
      ((exportSpecifiers clause).filterMap specifierNames).map fun s => .indirect s.2 spec (some s.1)
    | none => if children.any fun c => c.kind = .starToken then [.star spec] else []

def exportDefaultEntries (statement : Node) (imported : Bindings) : List JsExportEntry :=
  match (statement.childByField .declaration).or (statement.childByField .value) with
  | some v =>
    if v.kind = .identifier then [bindingEntry defaultName v.text imported]
    else (v.childByField .name).toList.map fun name => .ownBinding defaultName name.text
  | none => []

def exportStatementEntries (statement : Node) (imported : Bindings) : List JsExportEntry :=
  match statement.childByField .source with
  | some src => if unquote src.text = [] then [] else exportFromEntries statement.namedChildren (unquote src.text)
  | none =>
    match statement.namedChildren.find? fun c => c.kind = .exportClause with
    | some clause => ((exportSpecifiers clause).filterMap specifierNames).map fun s => bindingEntry s.2 s.1 imported
    | none =>
      if statement.namedChildren.any fun c => c.kind = .defaultToken then exportDefaultEntries statement imported
      else (statement.childByField .declaration).toList.flatMap fun decl =>
        (declaredNames 5 decl).map fun n => .ownBinding n n

/-! ### CommonJS -/

def forwardedValue (exported : Text) (value : Node) (imported : Bindings) : Option JsExportEntry :=
  if value.kind = .identifier ∨ value.kind = .shorthandPropertyIdentifier then
    (imported value.text).map fun i => .indirect exported i.spec i.imported
  else (requiredValue value).map fun r => .indirect exported r.spec r.imported

def forwardedNamespace (value : Node) (imported : Bindings) : Option Text :=
  match requireSpec value with
  | some spec => some spec
  | none =>
    if value.kind = .identifier then
      (imported value.text).bind fun i => if i.imported = none then some i.spec else none
    else none

/-- The entry is what another module exports, under this name. -/
def JsExportEntry.exportsIndirectly (exported : Text) : JsExportEntry → Bool
  | .indirect x _ _ => x = exported
  | _ => false

def JsExportEntry.isStar : JsExportEntry → Bool
  | .star _ => true
  | _ => false

def writeExport (entries : List JsExportEntry) (exported : Text) (value : Node) (imported : Bindings) :
    List JsExportEntry :=
  (entries.filter fun e => !e.exportsIndirectly exported) ++ (forwardedValue exported value imported).toList

/-- One property of an object literal. -/
def propertyEntries (imported : Bindings) (out : List JsExportEntry) (p : Node) : List JsExportEntry :=
  match p.kind with
  | .spreadElement =>
    match p.namedChildren.head?.bind fun e => forwardedNamespace e imported with
    | some spec => out.filter JsExportEntry.isStar ++ [.star spec]
    | none => out
  | .shorthandPropertyIdentifier => writeExport out p.text p imported
  | .pair =>
    match p.childByField .key, p.childByField .value with
    | some k, some v =>
      if k.kind = .propertyIdentifier ∨ k.kind = .string then writeExport out (moduleExportName k) v imported else out
    | _, _ => out
  | _ => out

def wholeExportsEntries (value : Node) (imported : Bindings) : List JsExportEntry :=
  match forwardedNamespace value imported with
  | some spec => [.star spec]
  | none => if value.kind = .object then value.namedChildren.foldl (propertyEntries imported) [] else []

/-- The object that `module.exports` holds, and the one that `exports` names when that is another one. -/
structure CommonJs where
  entries : List JsExportEntry := []
  aliasEntries : Option (List JsExportEntry) := none
  deriving DecidableEq

/-- Which names a chain of assignments sets, and its value. -/
def exportsChain (node : Node) (module aliased : Bool) : Option (Node × Bool × Bool) :=
  match node.childByField .left, _h : node.childByField .right with
  | some l, some r =>
    if l.text = moduleExportsName then
      if r.kind = .assignmentExpression then exportsChain r true aliased else some (r, true, aliased)
    else if l.text = exportsName then
      if r.kind = .assignmentExpression then exportsChain r module true else some (r, module, true)
    else none
  | _, _ => none
termination_by node.height
decreasing_by all_goals exact SyntaxTree.height_lt_of_childByField _h

/-- What a chain does with its value. -/
def CommonJs.wholeAssignment (c : CommonJs) (imported : Bindings) (value : Node) (module aliased : Bool) : CommonJs :=
  if value.text = exportsName ∧ module then
    match c.aliasEntries with
    | some a => ⟨a, none⟩
    | none => c
  else if value.text = moduleExportsName ∧ aliased then { c with aliasEntries := none }
  else if value.text = exportsName ∨ value.text = moduleExportsName then c
  else
    let assigned := wholeExportsEntries value imported
    if module ∧ aliased then ⟨assigned, none⟩
    else if module then ⟨assigned, some (c.aliasEntries.getD c.entries)⟩
    else { c with aliasEntries := some assigned }

/-- A write of one property. -/
def CommonJs.memberWrite (c : CommonJs) (imported : Bindings) (object property : Text) (value : Node) : CommonJs :=
  if object = moduleExportsName then { c with entries := writeExport c.entries property value imported }
  else if object = exportsName then
    match c.aliasEntries with
    | none => { c with entries := writeExport c.entries property value imported }
    | some a => { c with aliasEntries := some (writeExport a property value imported) }
  else c

def CommonJs.assignment (c : CommonJs) (imported : Bindings) (assignment : Node) : CommonJs :=
  match assignment.childByField .left, assignment.childByField .right with
  | some left, some right =>
    if left.text = moduleExportsName ∨ left.text = exportsName then
      match exportsChain assignment false false with
      | some (value, module, aliased) => c.wholeAssignment imported value module aliased
      | none => c
    else if left.kind = .memberExpression then
      match left.childByField .object, left.childByField .property with
      | some object, some property => c.memberWrite imported object.text property.text right
      | _, _ => c
    else c
  | _, _ => c

/-- What a top-level statement adds to the entries and does to the CommonJS objects. -/
def statementEntries (imported : Bindings) (s : List JsExportEntry × CommonJs) (statement : Node) :
    List JsExportEntry × CommonJs :=
  match statement.kind with
  | .exportStatement => (s.1 ++ exportStatementEntries statement imported, s.2)
  | .expressionStatement =>
    match statement.namedChildren.head?.filter fun e => e.kind = .assignmentExpression with
    | some e => (s.1, s.2.assignment imported e)
    | none => s
  | _ => s

/-- The imports are hoisted, so they are collected first. -/
def jsExportEntries (root : Node) : List JsExportEntry :=
  let imported := root.namedChildren.foldl collectImported fun _ => none
  let s := root.namedChildren.foldl (statementEntries imported) ([], {})
  s.1 ++ s.2.entries

end CodeGraph.Parser.JsExports
