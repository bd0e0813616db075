import CodeGraph.Lib.SyntaxTree
import CodeGraph.Lib.Texts

/-!
# The receiver of a Python call

`infer_python_call_receiver_type` of `parser/relations/python.rs`, with the walks it makes over the syntax tree. A node
comes with the nodes above it, the nearest first. `is_uppercase` of the standard library is a parameter.
-/

namespace CodeGraph.Parser.Python

open CodeGraph.Lib CodeGraph.Lib.SyntaxTree

/-- The kinds of node that the walks tell apart, and those whose names a statement binds. -/
inductive Kind
  | module
  | functionDefinition
  | classDefinition
  | decoratedDefinition
  | block
  | lambda
  | identifier
  | attribute
  | call
  | type
  | typedParameter
  | defaultParameter
  | typedDefaultParameter
  | assignment
  | augmentedAssignment
  | namedExpression
  | forStatement
  | asPattern
  | asPatternTarget
  | importStatement
  | importFromStatement
  | aliasedImport
  | dottedName
  | deleteStatement
  | patternList
  | tuplePattern
  | listPattern
  | listSplatPattern
  | dictionarySplatPattern
  | expressionList
  | parenthesizedExpression
  | tuple
  | list
  | other (name : List Char)
  deriving DecidableEq

inductive Field
  | function
  | object
  | attribute
  | arguments
  | name
  | type
  | value
  | parameters
  | body
  | left
  | right
  | alias
  deriving DecidableEq

abbrev Node := SyntaxTree Kind Field

abbrev Text := List Char

/-- `MAX_SUBTREE_DEPTH`. -/
def maxSubtreeDepth : ℕ := 32

/-! ### The method around a call -/

/-- `collect_py_idents`. -/
def collectPyIdents (node : Node) : List Text :=
  gatherWithin (fun n => if n.kind = .identifier then [n.text] else []) (fun _ => []) (fun _ => false) maxSubtreeDepth
    node 0

/-- The parameters of a `def` or a `lambda` hold the receiver's name. -/
def rebinds (receiver : Option Text) (n : Node) : Bool :=
  match receiver, n.childByField .parameters with
  | some r, some params => decide (r ∈ collectPyIdents params)
  | _, _ => false

/-- `first_param`. -/
def firstParam (n : Node) : Option Text :=
  ((n.childByField .parameters).bind fun params => params.namedChildren.head?).map fun p =>
    if p.kind = .identifier then p.text
    else (((p.childByField .name).or p.namedChildren.head?).map SyntaxTree.text).getD []

/-- The class whose body the first of these nodes is. -/
def classOfBody : List Node → Option Node
  | body :: owner :: _ => if body.kind = .block ∧ owner.kind = .classDefinition then some owner else none
  | _ => none

/-- The class that a `def` with these nodes above it is directly in. -/
def classAbove : List Node → Option Node
  | holder :: rest => if holder.kind = .decoratedDefinition then classOfBody rest else classOfBody (holder :: rest)
  | [] => none

/-- `py_method_class`, from a node at the given distance. -/
def pyMethodClass (receiver : Option Text) : List Node → ℕ → Option (Node × Node)
  | [], _ => none
  | n :: above, depth =>
    if maxSubtreeDepth < depth then none
    else if n.kind = .classDefinition then none
    else if n.kind = .lambda ∧ rebinds receiver n then none
    else if n.kind = .functionDefinition then
      match classAbove above with
      | some owner => if receiver.isSome ∧ firstParam n ≠ receiver then none else some (n, owner)
      | none => if rebinds receiver n then none else pyMethodClass receiver above (depth + 1)
    else pyMethodClass receiver above (depth + 1)

/-! ### The scope of a call -/

/-- `nearest_py_scope`. -/
def nearestPyScope (above : List Node) : Option Node :=
  (above.take (maxSubtreeDepth + 1)).find? fun n => n.kind = .functionDefinition ∨ n.kind = .module

/-- The right side of an assignment to the plain name. -/
def assignedTo (recv : Text) (n : Node) : List Node :=
  if n.kind = .assignment then
    match n.childByField .left with
    | some left =>
      if left.kind = .identifier ∧ left.text = recv then (n.childByField .right).toList else []
    | none => []
  else []

def isDefinition (n : Node) : Bool := n.kind = .functionDefinition ∨ n.kind = .classDefinition

/-- `collect_py_recv_assignment_rhs`. -/
def collectPyRecvAssignmentRhs (root : Node) (recv : Text) : List Node :=
  gatherWithin (assignedTo recv) (fun _ => []) isDefinition maxSubtreeDepth root 0

section Uppercase

variable (isUppercase : Char → Bool)

/-- A plain name with a capital first letter. -/
def className (n : Node) : Option Text :=
  if n.kind = .identifier then
    match n.text with
    | c :: _ => if isUppercase c then some n.text else none
    | [] => none
  else none

/-- `py_annotation_type_name`. -/
def pyAnnotationTypeName (ty : Node) : Option Text :=
  (if ty.kind = .type then ty.namedChildren.head? else some ty).bind (className isUppercase)

/-- The name and the annotation of a parameter that has both. -/
def typedParam (p : Node) : Option (Node × Node) :=
  if p.kind = .typedParameter then
    (p.namedChildren.find? fun c => c.kind = .identifier).bind fun name => (p.childByField .type).map fun ty => (name, ty)
  else if p.kind = .typedDefaultParameter then
    (p.childByField .name).bind fun name => (p.childByField .type).map fun ty => (name, ty)
  else none

/-- `py_param_annotation_type`. -/
def pyParamAnnotationType (func : Node) (recv : Text) : Option Text :=
  (func.childByField .parameters).bind fun params =>
    ((params.namedChildren.filterMap typedParam).find? fun x => x.1.text = recv).bind fun x =>
      pyAnnotationTypeName isUppercase x.2

/-- `py_constructor_type_name`. -/
def pyConstructorTypeName (rhs : Node) : Option Text :=
  if rhs.kind = .call then (rhs.childByField .function).bind (className isUppercase) else none

/-- The receiver of a call, where it is a plain name. -/
def receiverOf (call : Node) : Option Text :=
  (call.childByField .function).bind fun function =>
    if function.kind ≠ .attribute then none
    else
      (function.childByField .object).bind fun object =>
        if object.kind ≠ .identifier ∨ object.text = [] then none else some object.text

/-- `scan_root`. -/
def scanRoot (scope : Node) : Option Node :=
  if scope.kind = .functionDefinition then scope.childByField .body else some scope

/-- `infer_python_call_receiver_type`. -/
def inferPythonCallReceiverType (above : List Node) (call : Node) : Option Text :=
  (receiverOf call).bind fun recv =>
    if recv = ['s', 'e', 'l', 'f'] ∨ recv = ['c', 'l', 's'] then
      (pyMethodClass (some recv) above 0).bind fun method => (method.2.childByField .name).map SyntaxTree.text
    else
      (nearestPyScope above).bind fun scope =>
        (scanRoot scope).bind fun root =>
          match collectPyRecvAssignmentRhs root recv with
          | [rhs] => pyConstructorTypeName isUppercase rhs
          | [] => if scope.kind = .functionDefinition then pyParamAnnotationType isUppercase scope recv else none
          | _ => none

end Uppercase

end CodeGraph.Parser.Python
