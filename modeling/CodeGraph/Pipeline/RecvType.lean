import CodeGraph.Lib.Twins
import CodeGraph.Lib.Worklist
import CodeGraph.Pipeline.InFlight
import CodeGraph.Pipeline.JsModules

/-!
# Calls typed by their receiver

`recv_type_targets` of `pipeline/resolve.rs`: the methods that a call on a receiver of a known class binds. It
reads the classes of the whole project by the last segment of their name, and the class hierarchy.

A file is known by its path. A candidate is its node, so the maps from an id to its file and qualified name are
not needed.
-/

namespace CodeGraph.Pipeline.RecvType

open CodeGraph.Lib

/-! ### The class structure of an index -/

structure TypedNode where
  id : ℕ
  path : String
  type : String
  name : String
  qualifiedName : Option String
  returnType : Option String
  startLine : ℕ
  endLine : ℕ
  deriving DecidableEq, Repr

/-- A row of `cpp_fields`. -/
structure CppField where
  classId : ℕ
  field : String
  dotType : Option String
  arrowType : Option String
  deriving DecidableEq, Repr

/-- The rows of an index that typed calls are resolved by. -/
structure ClassIndex where
  nodes : List TypedNode
  language : String → Option String
  /-- `inherits` edges, subclass first. -/
  inherits : List (ℕ × ℕ)
  cppFields : List CppField
  ids : (nodes.map TypedNode.id).Nodup
  ends : ∀ e ∈ inherits, e.1 ∈ nodes.map TypedNode.id ∧ e.2 ∈ nodes.map TypedNode.id

variable (S : ClassIndex)

def ClassIndex.node? (id : ℕ) : Option TypedNode := S.nodes.find? fun n => n.id == id

/-- `CLASS_LIKE_TYPES`. -/
def classLikeTypes : List String := ["class", "struct", "interface", "type", "enum", "trait", "union"]

def TypedNode.ClassLike (n : TypedNode) : Prop := n.type ∈ classLikeTypes

instance (n : TypedNode) : Decidable n.ClassLike := inferInstanceAs (Decidable (_ ∈ _))

/-- `COALESCE(qualified_name, name)`. -/
def TypedNode.spelling (n : TypedNode) : String := n.qualifiedName.getD n.name

/-- Another class-like node of the file encloses the node. -/
def encloses (n o : TypedNode) : Bool :=
  o.ClassLike && (o.path == n.path && (o.id != n.id && (decide (o.startLine ≤ n.startLine) &&
    decide (n.endLine ≤ o.endLine))))

def ClassIndex.enclosed (n : TypedNode) : Bool := S.nodes.any (encloses n)

/-! ### Class paths -/

/-- The pieces of a spelling between `::` and `.` outside of `<…>`. -/
def splitPath : ℤ → List Char → List Char → List (List Char)
  | _, cur, [] => [cur.reverse]
  | depth, cur, ':' :: ':' :: rest =>
    if depth = 0 then cur.reverse :: splitPath depth [] rest else splitPath depth (':' :: cur) (':' :: rest)
  | depth, cur, c :: rest =>
    if c = '.' ∧ depth = 0 then cur.reverse :: splitPath depth [] rest
    else splitPath (if c = '<' then depth + 1 else if c = '>' then depth - 1 else depth) (c :: cur) rest

/-- A piece without its template arguments. -/
def segment (piece : List Char) : String :=
  String.ofList (trim InFlight.isWhitespace (piece.takeWhile fun c => c ≠ '<'))

/-- `class_path`. -/
def classPath (spelling : String) : List String :=
  ((splitPath 0 [] spelling.toList).map segment).filter fun s => s ≠ ""

/-- The last segment of a class path. -/
def last (spelling : String) : Option String := (classPath spelling).getLast?

/-- `owner_path`. -/
def ownerPath (qualified : String) : List String :=
  match rsplitOnce qualified '.' with
  | some (owner, _) => classPath owner
  | none => []

/-! ### `ProjectClassNames` -/

structure ClassNode where
  node : TypedNode
  nested : Bool
  deriving DecidableEq, Repr

def ClassIndex.classNode (n : TypedNode) : ClassNode :=
  ⟨n, S.enclosed n || decide (1 < (classPath n.spelling).length)⟩

/-- `by_last`. -/
def ClassIndex.byLast (name : String) : List ClassNode :=
  (S.nodes.filter fun n => n.ClassLike ∧ last n.spelling = some name).map S.classNode

/-- `subclasses`. -/
def ClassIndex.subclasses (seeds : List ℕ) : Finset ℕ := descend (S.inherits.map Prod.swap) seeds

/-- Where a method is and what it is called. -/
abbrev MethodKey := String × Option String

def TypedNode.key (c : TypedNode) : MethodKey := (c.path, c.qualifiedName)

/-- The class path that a method's qualified name gives. -/
def ownerOf (k : MethodKey) : List String := ownerPath (k.2.getD "")

/-- The classes of a name that a file means by it: its own, else all. -/
def ClassIndex.classesFor (path name : String) : List ClassNode :=
  let own := (S.byLast name).filter fun c => c.node.path = path
  if own = [] then S.byLast name else own

/-- The class nodes that a method may belong to: `owners`. -/
def ClassIndex.owners (k : MethodKey) : List ClassNode :=
  match (ownerOf k).getLast? with
  | some name => S.classesFor k.1 name
  | none => []

/-! ### `recv_type_targets` -/

inductive RecvTypeTargets
  | bind (targets : List TypedNode)
  | ambiguous (targets : List TypedNode)
  | fallback
  | drop
  deriving DecidableEq, Repr

/-- The method's class path and the wanted one end alike. -/
def agrees (want : List String) (k : MethodKey) : Bool :=
  let shared := min (ownerOf k).length want.length
  shared ≠ 0 && (ownerOf k).drop ((ownerOf k).length - shared) == want.drop (want.length - shared)

/-- The method counts as one of a nested class. -/
def ClassIndex.inNested (want : List String) (k : MethodKey) : Bool :=
  decide (want.length < (ownerOf k).length) ||
    ((ownerOf k).length == want.length && (S.owners k).any ClassNode.nested)

/-- `all_in`, of a method's class nodes. -/
def ClassIndex.allIn (set : Finset ℕ) (k : MethodKey) : Bool :=
  S.owners k ≠ [] && (S.owners k).all fun c => c.node.id ∈ set

/-- The bases of a level that no level before had. -/
def ClassIndex.nextLevel (seen level : Finset ℕ) : Finset ℕ :=
  ((S.inherits.filter fun e => e.1 ∈ level).map Prod.snd).toFinset \ seen

/-- The nearest ancestor level that defines the method. -/
def ClassIndex.climb (candidates : List TypedNode) : ℕ → Finset ℕ → Finset ℕ → List TypedNode
  | 0, _, _ => []
  | fuel + 1, seen, level =>
    let next := S.nextLevel seen level
    if next = ∅ then []
    else
      let inherited := candidates.filter fun c => S.allIn next c.key
      if inherited ≠ [] then inherited else climb candidates fuel (seen ∪ next) next

/-- The class node that a call on `want` starts from. -/
def startOf (topLevel : Bool) (callerPath : String) (named : List ClassNode) : Option ClassNode :=
  let fits := named.filter fun c => !topLevel || !c.nested
  (single? fits).or (single? (fits.filter fun c => c.node.path = callerPath))

/-- The overrides below a class of a unique name, when the call dispatches. -/
def ClassIndex.overridesBelow (name : String) (dispatch : Bool) (candidates inherited : List TypedNode)
    (start : ClassNode) : List TypedNode :=
  if dispatch ∧ (S.byLast name).length = 1 then
    candidates.filter fun c => S.allIn (S.subclasses [start.node.id]) c.key ∧ c ∉ inherited
  else []

/-- `inherited_or_overridden`. -/
def ClassIndex.inheritedOrOverridden (name : String) (topLevel dispatch : Bool) (candidates : List TypedNode)
    (callerPath : String) : RecvTypeTargets :=
  match startOf topLevel callerPath (S.byLast name) with
  | none => .fallback
  | some start =>
    let inherited := S.climb candidates 32 {start.node.id} {start.node.id}
    let targets := inherited ++ S.overridesBelow name dispatch candidates inherited start
    if targets = [] then .fallback
    else if 1 < inherited.length then .ambiguous targets
    else .bind targets

/-- The class node of a name, when there is just one. -/
def ClassIndex.only? (name : String) : Option ClassNode := single? (S.byLast name)

/-- The class nodes that seed overrides: those of the targets whose class name is unique. -/
def ClassIndex.seeds (targets : List TypedNode) : List ℕ :=
  targets.filterMap fun c => ((ownerOf c.key).getLast?.bind S.only?).map fun only => only.node.id

/-- The methods of the class itself: all, the caller's file's, and whether they are ambiguous. -/
def ownTargets (callerPath : String) (own : List TypedNode) : List TypedNode × Bool :=
  let own' := own.filter fun c => c.path = callerPath
  if own.length = 1 then (own, false) else if own' ≠ [] then (own', false) else (own, true)

/-- The overrides of the targets in subclasses. -/
def ClassIndex.overrides (candidates targets : List TypedNode) : List TypedNode :=
  if S.seeds targets = [] then []
  else candidates.filter fun c => c ∉ targets ∧ S.allIn (S.subclasses (S.seeds targets)) c.key

/-- A class of the name is not nested. -/
def ClassIndex.topLevel (name : String) : Bool := (S.byLast name).any fun c => !c.nested

/-- The methods of the wanted class itself; those of a nested class only when no class of the name is top-level. -/
def ClassIndex.ownMethods (want : List String) (name : String) (candidates : List TypedNode) : List TypedNode :=
  let exact := candidates.filter fun c => agrees want c.key && !S.inNested want c.key
  let nested := candidates.filter fun c => agrees want c.key && S.inNested want c.key
  if exact ≠ [] then exact else if S.topLevel name then [] else nested

/-- A call on a class that defines the method. -/
def ClassIndex.bindOwn (dispatch : Bool) (candidates : List TypedNode) (callerPath : String)
    (own : List TypedNode) : RecvTypeTargets :=
  let targets := (ownTargets callerPath own).1
  let targets := if dispatch then targets ++ S.overrides candidates targets else targets
  if (ownTargets callerPath own).2 then .ambiguous targets else .bind targets

/-- `recv_type_targets`. -/
def ClassIndex.recvTypeTargets (type : String) (dispatch : Bool) (candidates : List TypedNode)
    (callerPath : String) : RecvTypeTargets :=
  let want := classPath type
  match want.getLast? with
  | none => .fallback
  | some name =>
    if want.head? = some "std" then .drop
    else
      let own := S.ownMethods want name candidates
      if own = [] then
        if S.byLast name = [] then .drop
        else S.inheritedOrOverridden name (S.topLevel name) dispatch candidates callerPath
      else S.bindOwn dispatch candidates callerPath own

/-- The methods of a name. -/
def ClassIndex.methodsNamed (name : String) : List TypedNode :=
  S.nodes.filter fun n => (n.type = "function" ∨ n.type = "method") ∧ n.name = name

/-- An outcome with its targets told by file and qualified name. -/
inductive Outcome
  | bind (targets : Finset MethodKey)
  | ambiguous (targets : Finset MethodKey)
  | fallback
  | drop
  deriving DecidableEq

def RecvTypeTargets.outcome : RecvTypeTargets → Outcome
  | .bind targets => .bind (targets.map TypedNode.key).toFinset
  | .ambiguous targets => .ambiguous (targets.map TypedNode.key).toFinset
  | .fallback => .fallback
  | .drop => .drop

end CodeGraph.Pipeline.RecvType
