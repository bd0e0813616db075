import CodeGraph.Lib.SyntaxTree
import CodeGraph.Lib.Words

/-!
# The class of a C++ receiver

`cpp_declared_class` of `parser/relations/receiver.rs` collects the declarations of a name in the whole function around a
call, or else those among the fields of the class around the function, and answers the class of the type that they agree
on.
-/

namespace CodeGraph.Parser.CppReceiver

open CodeGraph.Lib CodeGraph.Lib.SyntaxTree

/-- The kinds of node that the walk tells apart, and those that the scopes of the language are about. -/
inductive Kind
  | translationUnit
  | declarationList
  | functionDefinition
  | templateDeclaration
  | classSpecifier
  | structSpecifier
  | fieldDeclarationList
  | fieldDeclaration
  | parameterDeclaration
  | optionalParameterDeclaration
  | declaration
  | usingDeclaration
  | forRangeLoop
  | forStatement
  | ifStatement
  | whileStatement
  | switchStatement
  | compoundStatement
  | catchClause
  | lambdaExpression
  | lambdaCaptureSpecifier
  | lambdaCaptureInitializer
  | identifier
  | fieldIdentifier
  | pointerDeclarator
  | initDeclarator
  | functionDeclarator
  | abstractFunctionDeclarator
  | referenceDeclarator
  | structuredBindingDeclarator
  | arrayDeclarator
  | parenthesizedDeclarator
  | typeIdentifier
  | qualifiedIdentifier
  | templateType
  | namespaceIdentifier
  | typeDescriptor
  /-- Through `->`, or through `.`. -/
  | fieldExpression (arrow : Bool)
  | other (name : List Char)
  deriving DecidableEq

inductive Field
  | name
  | type
  | arguments
  | argument
  | declarator
  | parameters
  | captures
  | left
  | right
  | value
  | body
  deriving DecidableEq

abbrev Node := SyntaxTree Kind Field

abbrev Step := SyntaxTree.Step Kind Field

abbrev Located := SyntaxTree.Located Kind Field

abbrev Name := List Char

abbrev Class := List Char

/-- `MAX_SUBTREE_DEPTH`. -/
def maxSubtreeDepth : ℕ := 32

/-! ### Declarators -/

mutual

/-- `mentions`. -/
def mentions (name : Name) : Node → ℕ → Bool
  | .node k s cs, depth =>
    if maxSubtreeDepth < depth then false
    else decide (k = .identifier ∧ s = name) || anyMentions name cs (depth + 1)

def anyMentions (name : Name) : List (Option Field × Node) → ℕ → Bool
  | [], _ => false
  | (_, t) :: cs, depth => mentions name t depth || anyMentions name cs depth

end

mutual

/-- `declares`: whether through a pointer, or without a type. -/
def declares (name : Name) (isLocal : Bool) : Node → Bool → ℕ → Option (Option Bool)
  | .node k s cs, pointer, depth =>
    if maxSubtreeDepth < depth then none
    else
      match k with
      | .identifier | .fieldIdentifier => if s = name then some (some pointer) else none
      | .pointerDeclarator => declaresAt name isLocal cs true (depth + 1)
      | .initDeclarator => declaresAt name isLocal cs pointer (depth + 1)
      | .functionDeclarator =>
        if isLocal then declaresAt name isLocal cs pointer (depth + 1)
        else if mentions name (.node k s cs) depth then some none else none
      | .referenceDeclarator => declaresFirst name isLocal cs pointer (depth + 1)
      | _ => if mentions name (.node k s cs) depth then some none else none

/-- By the first child that is a declarator. -/
def declaresAt (name : Name) (isLocal : Bool) : List (Option Field × Node) → Bool → ℕ → Option (Option Bool)
  | [], _, _ => none
  | (field, t) :: cs, pointer, depth =>
    if field = some .declarator then declares name isLocal t pointer depth else declaresAt name isLocal cs pointer depth

def declaresFirst (name : Name) (isLocal : Bool) : List (Option Field × Node) → Bool → ℕ → Option (Option Bool)
  | [], _, _ => none
  | (_, t) :: _, pointer, depth => declares name isLocal t pointer depth

end

/-! ### Declarations -/

/-- A type that is written, and whether the name is declared through a pointer. -/
abbrev Decl := Option (Node × Bool)

def declOf (ty : Option Node) (pointer : Option Bool) : Decl := pointer.bind fun p => ty.map fun t => (t, p)

/-- `declared_types`. -/
def declaredTypes (name : Name) (isLocal : Bool) (decl : Node) : List Decl :=
  ((decl.childrenByField .declarator).filterMap fun d => declares name isLocal d false 0).map (declOf (decl.childByField .type))

def isLocalDeclaration (k : Kind) : Bool :=
  k = .parameterDeclaration ∨ k = .optionalParameterDeclaration ∨ k = .declaration ∨ k = .forRangeLoop

/-- What a node under a function declares. -/
def localTypes (name : Name) (n : Node) : List Decl :=
  if isLocalDeclaration n.kind then declaredTypes name (n.kind = .declaration) n else []

/-- `collect_cpp_decl_types`. -/
def collectDeclTypes (name : Name) (func : Node) : List Decl :=
  gatherWithin (localTypes name) (fun _ => []) (fun _ => false) maxSubtreeDepth func 0

/-- `collect_cpp_field_types`. -/
def collectFieldTypes (name : Name) (body : Node) : List Decl :=
  (body.namedChildren.filter fun c => c.kind = .fieldDeclaration).flatMap (declaredTypes name false)

/-- `enclosing_class_body`, by the nodes above the function. -/
def classBodyAbove : List Step → Option Located
  | s :: outer =>
    if s.node.kind = .fieldDeclarationList ∧
        outer.head?.any (fun c => c.node.kind = .classSpecifier ∨ c.node.kind = .structSpecifier) then
      some ⟨outer, s.node⟩
    else none
  | [] => none

def enclosingClassBody (func : Located) : Option Located :=
  match func.above with
  | s :: outer => classBodyAbove (if s.node.kind = .templateDeclaration then outer else s :: outer)
  | [] => none

/-- The declarations that answer for a name: the function's, or else the fields of the class. -/
def types (name : Name) (func : Located) : List Decl :=
  if collectDeclTypes name func.node = [] then
    ((enclosingClassBody func).map fun body => collectFieldTypes name body.node).getD []
  else collectDeclTypes name func.node

/-- `agreed`. -/
def agreed : List Decl → Option (Node × Bool)
  | some first :: rest =>
    if rest.all fun d => d.any fun d => d.2 = first.2 ∧ d.1.text = first.1.text then some first else none
  | _ => none

/-! ### Class names -/

/-- `last_segment`, of a tree that is no higher than the fuel. -/
def lastSegmentWithin : ℕ → Node → Option Class
  | 0, _ => none
  | fuel + 1, n =>
    match n.kind with
    | .qualifiedIdentifier | .templateType => (n.childByField .name).bind (lastSegmentWithin fuel)
    | .typeIdentifier | .identifier | .namespaceIdentifier => some n.text
    | _ => none

def lastSegment (n : Node) : Option Class := lastSegmentWithin (n.height + 1) n

/-- The type that an argument of a template is. -/
def argumentType (arg : Node) : Option Node := if arg.kind = .typeDescriptor then arg.childByField .type else some arg

def isPointerTemplate (name : Name) : Bool := name = "unique_ptr".toList ∨ name = "shared_ptr".toList

/-- `cpp_type_name`, of a tree that is no higher than the fuel. -/
def cppTypeNameWithin : ℕ → Node → Bool → Option Class
  | 0, _, _ => none
  | fuel + 1, ty, throughArrow =>
    match ty.kind with
    | .typeIdentifier => if throughArrow then none else some ty.text
    | .structSpecifier | .classSpecifier => if throughArrow then none else (ty.childByField .name).bind lastSegment
    | .qualifiedIdentifier =>
      if throughArrow then (ty.childByField .name).bind fun n => cppTypeNameWithin fuel n true else some ty.text
    | .templateType =>
      (ty.childByField .name).bind fun name =>
        if ¬throughArrow then some name.text
        else if isPointerTemplate name.text then
          (((ty.childByField .arguments).bind fun args => args.namedChildren.head?).bind argumentType).bind fun inner =>
            cppTypeNameWithin fuel inner false
        else none
    | _ => none

def cppTypeName (ty : Node) (throughArrow : Bool) : Option Class := cppTypeNameWithin (ty.height + 1) ty throughArrow

/-- `is_template_parameter`. -/
def isTemplateParameter (n : Located) (name : Name) : Bool :=
  (n.above.take (maxSubtreeDepth * 4)).any fun s =>
    s.node.kind = .templateDeclaration ∧
      (s.node.childByField .parameters).any fun params =>
        params.namedChildren.any fun p => p.namedChildren.any fun c => c.kind = .typeIdentifier ∧ c.text = name

section

variable (isWhitespace : Char → Bool)

/-- The first part of a `::` path. -/
def head (cls : Class) : Name := trim isWhitespace ((split [':', ':'] cls).headD cls)

/-- `cpp_declared_class`. -/
def cppDeclaredClass (func : Located) (name : Name) (arrow : Bool) : Option Class :=
  (agreed (types name func)).bind fun ty =>
    (cppTypeName ty.1 (arrow && !ty.2)).bind fun cls =>
      if isTemplateParameter func (head isWhitespace cls) then none else some cls

/-- `ancestor`, for a function's definition. -/
def functionAround : ℕ → List Step → Option Located
  | 0, _ => none
  | _ + 1, [] => none
  | fuel + 1, s :: outer =>
    if s.node.kind = .functionDefinition then some ⟨outer, s.node⟩ else functionAround fuel outer

/-- The plain identifier that a member is taken of, and how. -/
def receiverName (function : Located) : Option (Name × Bool) :=
  match function.kind with
  | .fieldExpression arrow =>
    ((function.node.childByField .argument).filter fun o => o.kind = .identifier).map fun o => (o.text, arrow)
  | _ => none

/-- `cpp_receiver_type`, of a receiver that is a plain identifier. -/
def receiverType (function : Located) : Option Class :=
  (receiverName function).bind fun r =>
    (functionAround (maxSubtreeDepth * 4) function.above).bind fun func =>
      cppDeclaredClass isWhitespace func r.1 r.2

end

end CodeGraph.Parser.CppReceiver
