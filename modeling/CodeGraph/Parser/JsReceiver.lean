import CodeGraph.Lib.SyntaxTree
import CodeGraph.Lib.Texts

/-!
# The class of a JavaScript receiver

`js_binding_type` of `parser/relations/receiver.rs` takes the innermost function, or the program, whose code binds or
assigns a name, and answers the class that all of this gives it. `projectClass` leaves out the names that a file imports
from a package.
-/

namespace CodeGraph.Parser.JsReceiver

open CodeGraph.Lib CodeGraph.Lib.SyntaxTree

/-- The keyword before the name of a `for … of`. -/
inductive Keyword
  | var
  /-- `let` or `const`. -/
  | lexical
  deriving DecidableEq

/-- The kinds of node that the walk tells apart, and those that the scopes of the language are about. -/
inductive Kind
  | program
  | functionDeclaration
  | functionExpression
  | function
  | generatorFunctionDeclaration
  | generatorFunction
  | methodDefinition
  | arrowFunction
  | classDeclaration
  | abstractClassDeclaration
  | classExpression
  | classStaticBlock
  | enumDeclaration
  | internalModule
  | importClause
  | importSpecifier
  | namespaceImport
  | statementBlock
  | switchBody
  | forStatement
  | forInStatement (keyword : Option Keyword)
  | catchClause
  | lexicalDeclaration
  | variableDeclaration
  | variableDeclarator
  | assignmentExpression
  | augmentedAssignmentExpression
  | updateExpression
  | newExpression
  | identifier
  | shorthandPropertyIdentifierPattern
  | pairPattern
  | assignmentPattern
  | objectAssignmentPattern
  | memberExpression
  | subscriptExpression
  | typeAnnotationNode
  | typeIdentifier
  | genericType
  | other (name : List Char)
  deriving DecidableEq

inductive Field
  | name
  | alias
  | type
  | typeArguments
  | value
  | left
  | right
  | object
  | argument
  | constructor
  | parameters
  | parameter
  | pattern
  | body
  deriving DecidableEq

abbrev Node := SyntaxTree Kind Field

abbrev Step := SyntaxTree.Step Kind Field

abbrev Located := SyntaxTree.Located Kind Field

abbrev Name := List Char

abbrev Class := List Char

/-- `MAX_SUBTREE_DEPTH`. -/
def maxSubtreeDepth : ℕ := 32

/-- `JS_FUNCTIONS`. -/
def isFunction : Kind → Bool
  | .functionDeclaration | .functionExpression | .function | .generatorFunctionDeclaration | .generatorFunction
  | .methodDefinition | .arrowFunction => true
  | _ => false

/-- A nested function or class. -/
def isNested (c : Node) : Bool :=
  isFunction c.kind || decide (c.kind = .classDeclaration ∨ c.kind = .abstractClassDeclaration ∨ c.kind = .classExpression)

/-! ### Patterns -/

mutual

/-- `bound_names`. -/
def boundNames : Node → ℕ → List Name
  | .node k s cs, depth =>
    if maxSubtreeDepth < depth then []
    else match k with
      | .identifier | .shorthandPropertyIdentifierPattern => [s]
      | .pairPattern => boundNamesAt .value cs (depth + 1)
      | .assignmentPattern | .objectAssignmentPattern => boundNamesAt .left cs (depth + 1)
      | .typeAnnotationNode | .memberExpression | .subscriptExpression => []
      | _ => boundNamesOf cs (depth + 1)

/-- The names of the first child in a field. -/
def boundNamesAt (field : Field) : List (Option Field × Node) → ℕ → List Name
  | [], _ => []
  | (f, t) :: cs, depth => if f = some field then boundNames t depth else boundNamesAt field cs depth

def boundNamesOf : List (Option Field × Node) → ℕ → List Name
  | [], _ => []
  | (_, t) :: cs, depth => boundNames t depth ++ boundNamesOf cs depth

end

section

variable (fromPackage : Name → Bool)

/-! ### Classes -/

/-- `js_project_class`. -/
def projectClass (name : Name) : Option Class := if fromPackage name then none else some name

/-- `constructed`. -/
def constructed (value : Option Node) : Option Class :=
  ((value.filter fun v => v.kind = .newExpression).bind fun v => v.childByField .constructor).filter
    (fun c => c.kind = .identifier) |>.bind fun c => projectClass fromPackage c.text

def isWrapper (name : Name) : Bool :=
  name ∈ ["Readonly".toList, "Partial".toList, "Required".toList, "NonNullable".toList]

/-- `js_annotation`, of a tree that is no higher than the fuel. -/
def annotatedClassWithin : ℕ → Node → Option Class
  | 0, _ => none
  | fuel + 1, written =>
    (if written.kind = .typeAnnotationNode then written.namedChildren.head? else some written).bind fun ty =>
      match ty.kind with
      | .typeIdentifier => projectClass fromPackage ty.text
      | .genericType =>
        (ty.childByField .name).bind fun name =>
          if name.kind ≠ .typeIdentifier then none
          else if isWrapper name.text then
            (ty.childByField .typeArguments).bind fun args => args.namedChildren.head?.bind (annotatedClassWithin fuel)
          else projectClass fromPackage name.text
      | _ => none

def annotatedClass (n : Node) : Option Class := annotatedClassWithin fromPackage (n.height + 1) n

/-! ### The bindings of a scope -/

/-- The names of a pattern. Only a plain name is given a class. -/
def record (pattern : Node) (cls : Option Class) : List (Name × Option Class) :=
  if pattern.kind = .identifier then [(pattern.text, cls)] else (boundNames pattern 0).map fun n => (n, none)

/-- A pattern that a node writes, with the class that it gives a plain name. -/
def recordAt (n : Node) (field : Field) (cls : Option Class) : List (Name × Option Class) :=
  ((n.childByField field).map fun pattern => record pattern cls).getD []

/-- What a declarator gives its name: the class of the annotation, or of the value. -/
def declaredClass (n : Node) : Option Class :=
  ((n.childByField .type).bind (annotatedClass fromPackage)).or (constructed fromPackage (n.childByField .value))

/-- What a node of the scope's own code binds or assigns. -/
def own (n : Node) : List (Name × Option Class) :=
  match n.kind with
  | .variableDeclarator => recordAt n .name (declaredClass fromPackage n)
  | .assignmentExpression => recordAt n .left (constructed fromPackage (n.childByField .right))
  | .forInStatement _ => recordAt n .left none
  | .catchClause => recordAt n .parameter none
  | _ => []

/-- What a node of a nested function or class assigns. -/
def assigned (n : Node) : List (Name × Option Class) :=
  match n.kind with
  | .assignmentExpression => recordAt n .left (constructed fromPackage (n.childByField .right))
  | .augmentedAssignmentExpression => recordAt n .left none
  | _ => []

/-- `collect_assigned`. -/
def collectAssigned (n : Node) : List (Name × Option Class) :=
  gatherWithin (assigned fromPackage) (fun _ => []) (fun _ => false) maxSubtreeDepth n 0

/-- A nested function or class: its name, and what is assigned in it. -/
def nested (c : Node) : List (Name × Option Class) :=
  (((c.childByField .name).filter fun n => n.kind = .identifier).map fun n => record n none).getD [] ++
    collectAssigned fromPackage c

/-- `collect_js_bindings`. -/
def collectBindings (body : Node) : List (Name × Option Class) :=
  gatherWithin (own fromPackage) (nested fromPackage) isNested maxSubtreeDepth body 0

/-- A parameter's pattern is a field of it in TypeScript. -/
def parameterPattern (p : Node) : Node := (p.childByField .pattern).getD p

def parameterBindings (scope : Node) : List (Name × Option Class) :=
  (((scope.childByField .parameters).map SyntaxTree.namedChildren).getD []).flatMap (fun p =>
    record (parameterPattern p) ((p.childByField .type).bind (annotatedClass fromPackage))) ++
  recordAt scope .parameter none

/-- The body of a function, or the program itself. -/
def bodyOf (scope : Node) : Option Node := if scope.kind = .program then some scope else scope.childByField .body

/-- `js_scope_bindings`, in the order of their entry. -/
def scopeBindings (scope : Node) : List (Name × Option Class) :=
  parameterBindings fromPackage scope ++ ((bodyOf scope).map (collectBindings fromPackage)).getD []

/-- What the scope has of a name. -/
def found (name : Name) (scope : Node) : List (Option Class) :=
  ((scopeBindings fromPackage scope).filter fun b => b.1 = name).map Prod.snd

def isScope (n : Node) : Bool := isFunction n.kind || decide (n.kind = .program)

/-- The innermost scope that has something of the name, no further out than the steps. -/
def scopeWithin (name : Name) : ℕ → List Step → Option Located
  | 0, _ => none
  | _ + 1, [] => none
  | fuel + 1, s :: outer =>
    if isScope s.node ∧ found fromPackage name s.node ≠ [] then some ⟨outer, s.node⟩ else scopeWithin name fuel outer

/-- The class that all of it gives. -/
def agreed : List (Option Class) → Option Class
  | some cls :: rest => if rest.all (· = some cls) then some cls else none
  | _ => none

/-- `js_binding_type`. -/
def bindingType (name : Name) (above : List Step) : Option Class :=
  (scopeWithin fromPackage name maxSubtreeDepth above).bind fun scope => agreed (found fromPackage name scope.node)

/-- The plain identifier that a member is taken of. -/
def receiverName (function : Located) : Option Name :=
  if function.kind = .memberExpression then
    ((function.node.childByField .object).filter fun o => o.kind = .identifier).map SyntaxTree.text
  else none

/-- `js_receiver_type`, of a receiver that is a plain identifier. -/
def receiverType (function : Located) : Option Class :=
  (receiverName function).bind fun name => bindingType fromPackage name function.above

end

end CodeGraph.Parser.JsReceiver
