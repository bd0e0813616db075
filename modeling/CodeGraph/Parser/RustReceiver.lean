import CodeGraph.Lib.SyntaxTree

/-!
# The binding behind a Rust receiver

`binding_type` of `parser/relations/rust_receiver.rs` climbs from a name to the declaration that it takes it for. What
type a `let` has by its value is a parameter.
-/

namespace CodeGraph.Parser.RustReceiver

open CodeGraph.Lib CodeGraph.Lib.SyntaxTree

/-- The kinds of node that the walk tells apart, and those that Rust's scopes are about. -/
inductive Kind
  | sourceFile
  | modItem
  | declarationList
  | functionItem
  | functionSignatureItem
  | implItem
  | traitItem
  | structItem
  | fieldDeclarationList
  | foreignModItem
  | useDeclaration
  | staticItem
  | constItem
  | letDeclaration
  | block
  | forExpression
  | ifExpression
  | whileExpression
  | letCondition
  | letChain
  | matchArm
  | matchPattern
  | closureExpression
  | parameter
  | constParameter
  | identifier
  | shorthandFieldIdentifier
  | mutPattern
  | tupleStructPattern
  | structPattern
  | genericPattern
  | scopedIdentifier
  | rangePattern
  | macroInvocation
  | constBlock
  | other (name : List Char)
  deriving DecidableEq

inductive Field
  | name
  | type
  | value
  | pattern
  | parameters
  | typeParameters
  | body
  | condition
  | consequence
  | alternative
  deriving DecidableEq

abbrev Node := SyntaxTree Kind Field

abbrev Name := List Char

/-- `MAX_SUBTREE_DEPTH`. -/
def maxSubtreeDepth : ℕ := 32

/-! ### Patterns -/

mutual

/-- `pattern_mentions`. -/
def patternMentions (name : Name) : Node → ℕ → Bool
  | .node k s cs, depth =>
    maxSubtreeDepth < depth || decide (k = .identifier ∧ s = name) || anyMentions name cs (depth + 1)

def anyMentions (name : Name) : List (Option Field × Node) → ℕ → Bool
  | [], _ => false
  | (_, t) :: cs, depth => patternMentions name t depth || anyMentions name cs depth

end

/-- `plain_binding`. -/
def plainBinding (pat : Node) (name : Name) : Bool :=
  if pat.kind = .identifier then pat.text = name
  else pat.kind = .mutPattern ∧ pat.namedChildren.any fun c => c.kind = .identifier ∧ c.text = name

mutual

/-- `binds_in_let_conditions`. -/
def bindsInLetConditions (name : Name) : Node → ℕ → Bool
  | .node k s cs, depth =>
    if maxSubtreeDepth < depth then true
    else if k = .letCondition then ((SyntaxTree.node k s cs).childByField .pattern).any fun p => patternMentions name p 0
    else anyBindsInLetConditions name cs (depth + 1)

def anyBindsInLetConditions (name : Name) : List (Option Field × Node) → ℕ → Bool
  | [], _ => false
  | (_, t) :: cs, depth => bindsInLetConditions name t depth || anyBindsInLetConditions name cs depth

end

/-! ### The climb -/

abbrev Step := SyntaxTree.Step Kind Field

/-- A node of the file. -/
abbrev Located := SyntaxTree.Located Kind Field

def fieldIndex (n : Node) (field : Field) : Option ℕ := n.children.findIdx? fun c => c.1 = some field

def named (name : Name) (n : Node) : Bool := (n.childByField .name).any fun x => x.text = name

def mentions (name : Name) (pat : Option Node) : Bool := pat.any fun p => patternMentions name p 0

/-- A `static` or `const` of the name. -/
def staticNamed (name : Name) (item : Node) : Bool := (item.kind = .staticItem ∨ item.kind = .constItem) ∧ named name item

/-- The `binds` of a statement. -/
def binds (name : Name) (stmt : Node) : Bool :=
  if stmt.kind = .letDeclaration then mentions name (stmt.childByField .pattern) else staticNamed name stmt

/-- The node that a step goes through. -/
def scope (s : Step) (outer : List Step) : Located := ⟨outer, s.node⟩

/-- The statements of a block before the child. -/
def before (s : Step) (outer : List Step) : List Located := (scope s outer).children.take s.index

/-- The last statement before a child that binds the name. -/
def lastBinding (s : Step) (outer : List Step) (name : Name) : Option Located :=
  (before s outer).reverse.find? fun stmt => binds name stmt.node

/-- The child is in the field. -/
def within (s : Step) (field : Field) : Prop := fieldIndex s.node field = some s.index

instance (s : Step) (field : Field) : Decidable (within s field) := inferInstanceAs (Decidable (_ = _))

/-- The child is the block that the condition guards. -/
def guarded (s : Step) : Prop := (fieldIndex s.node .consequence).or (fieldIndex s.node .body) = some s.index

instance (s : Step) : Decidable (guarded s) := inferInstanceAs (Decidable (_ = _))

/-- The parameters of a closure, or of a function, which has others besides. -/
def parametersOf (n : Located) : List Located :=
  let params := ((n.childByField .parameters).map SyntaxTree.Located.children).getD []
  if n.kind = .functionItem then params.filter fun p => p.kind = .parameter else params

/-- A parameter of a closure may be the pattern alone. -/
def parameterPattern (p : Node) : Option Node := if p.kind = .parameter then p.childByField .pattern else some p

def parameterType (p : Located) : Option Located := if p.kind = .parameter then p.childByField .type else none

def isModule (s : Step) (outer : List Step) : Prop :=
  s.node.kind = .sourceFile ∨ s.node.kind = .declarationList ∧ outer.head?.any fun o => o.node.kind = .modItem

instance (s : Step) (outer : List Step) : Decidable (isModule s outer) := inferInstanceAs (Decidable (_ ∨ _))

section

variable {τ : Type} (written : Located → τ) (valueType : Located → Option τ)

/-- `declared`. -/
def declared (decl : Located) (name : Name) : Option τ :=
  if decl.kind = .letDeclaration ∧ ¬(decl.node.childByField .pattern).any (plainBinding · name) then none
  else match decl.childByField .type with
    | some ty => some (written ty)
    | none => if decl.kind = .letDeclaration then (decl.childByField .value).bind valueType else none

/-- The type of a parameter that mentions the name. -/
def annotated (p : Located) (name : Name) : Option τ :=
  if (parameterPattern p.node).any (plainBinding · name) then (parameterType p).map written else none

/-- `module_item_type`. -/
def moduleItemType (name : Name) : List Step → Option τ
  | [] => none
  | s :: outer =>
    if isModule s outer then
      ((scope s outer).children.find? fun item => staticNamed name item.node).bind fun item =>
        (item.childByField .type).map written
    else moduleItemType name outer

/-- `binding_type`. -/
def bindingType (name : Name) : List Step → Option τ
  | [] => none
  | s :: outer =>
    match s.node.kind with
    | .block =>
      match lastBinding s outer name with
      | some decl => declared written valueType decl name
      | none => bindingType name outer
    | .forExpression =>
      if within s .body ∧ mentions name (s.node.childByField .pattern) then none else bindingType name outer
    | .matchArm => if mentions name (s.node.childByField .pattern) then none else bindingType name outer
    | .ifExpression | .whileExpression =>
      if guarded s ∧ (s.node.childByField .condition).any (bindsInLetConditions name · 0) then none
      else bindingType name outer
    | .closureExpression =>
      match (parametersOf (scope s outer)).find? fun p => mentions name (parameterPattern p.node) with
      | some p => annotated written p name
      | none => bindingType name outer
    | .functionItem =>
      match (parametersOf (scope s outer)).find? fun p => mentions name (parameterPattern p.node) with
      | some p => annotated written p name
      | none => moduleItemType written name (s :: outer)
    | .sourceFile | .declarationList => moduleItemType written name (s :: outer)
    | _ => bindingType name outer

/-- The `identifier` case of `expr_type`, for the node at a place of the file. -/
def identifierType (file : Node) (place : List ℕ) : Option τ :=
  match SyntaxTree.Located.descend ⟨[], file⟩ place with
  | some x => if x.kind = .identifier then bindingType written valueType x.text x.above else none
  | none => none

end

end CodeGraph.Parser.RustReceiver
