import CodeGraph.Parser.JsReceiver
import Mathlib.Data.List.Infix

/-!
# The variable behind a JavaScript receiver

`writesAt` lists the declarations and assignments of a file with the class that each gives, and `variableOf` the
variable that each is of, by the scopes of strict code: blocks hold `let`, `const`, classes and functions; functions hold
`var` and parameters; loops, `catch` clauses and named function expressions are scopes of their own. A variable is named
by the place of its scope; one that no scope declares is global.

The walk of `js_binding_type` knows no blocks. It answers for the variable of a receiver where the scope that it takes
reads whatever is written to that variable (`receiverType_given`).
-/

namespace CodeGraph.Parser.JsReceiver

open CodeGraph.Lib CodeGraph.Lib.SyntaxTree

abbrev Place := List ℕ

/-! ### Names of a pattern -/

mutual

/-- The names that a pattern binds or assigns, at any depth. -/
def names : Node → List Name
  | .node k s cs =>
    match k with
    | .identifier | .shorthandPropertyIdentifierPattern => [s]
    | .pairPattern => namesAt .value cs
    | .assignmentPattern | .objectAssignmentPattern => namesAt .left cs
    | .typeAnnotationNode | .memberExpression | .subscriptExpression => []
    | _ => namesOf cs

def namesAt (field : Field) : List (Option Field × Node) → List Name
  | [] => []
  | (f, t) :: cs => if f = some field then names t else namesAt field cs

def namesOf : List (Option Field × Node) → List Name
  | [] => []
  | (_, t) :: cs => names t ++ namesOf cs

end

/-! ### Declarations and assignments -/

inductive Form
  | parameter
  | declarator
  | loop
  | caught
  /-- The name of a function or a class. -/
  | name
  | imported
  | assigned
  /-- An assignment with an operator. -/
  | augmented
  /-- `++` or `--`. -/
  | updated
  deriving DecidableEq

/-- A pattern that a node declares or assigns, with the class that it gives a plain name. -/
structure Write where
  node : Located
  form : Form
  pattern : Node
  cls : Option Class

/-- Functions and classes that declare their name in the block around them. -/
def isDeclaration : Kind → Bool
  | .functionDeclaration | .generatorFunctionDeclaration | .classDeclaration | .abstractClassDeclaration
  | .enumDeclaration | .internalModule => true
  | _ => false

/-- Those whose name is for themselves. -/
def isExpression : Kind → Bool
  | .functionExpression | .function | .generatorFunction | .classExpression => true
  | _ => false

section

variable (fromPackage : Name → Bool)

def parameterWrites (n : Located) : List Write :=
  if isFunction n.kind then
    (((n.node.childByField .parameters).map SyntaxTree.namedChildren).getD []).map (fun p =>
      ⟨n, .parameter, parameterPattern p, (p.childByField .type).bind (annotatedClass fromPackage)⟩) ++
    ((n.node.childByField .parameter).map fun p => ⟨n, .parameter, p, none⟩).toList
  else []

def nameWrites (n : Located) : List Write :=
  if isDeclaration n.kind || isExpression n.kind then
    ((n.node.childByField .name).map fun x => ⟨n, .name, x, none⟩).toList
  else []

def importWrites (n : Located) : List Write :=
  match n.kind with
  | .importSpecifier =>
    (((n.node.childByField .alias).or (n.node.childByField .name)).map fun x => ⟨n, .imported, x, none⟩).toList
  | .importClause | .namespaceImport =>
    (n.node.namedChildren.filter fun x => x.kind = .identifier).map fun x => ⟨n, .imported, x, none⟩
  | _ => []

/-- What a node writes in one of its fields. -/
def writeAt (n : Located) (form : Form) (field : Field) (cls : Option Class) : List Write :=
  ((n.node.childByField field).map fun pattern => ⟨n, form, pattern, cls⟩).toList

def patternWrites (n : Located) : List Write :=
  match n.kind with
  | .variableDeclarator => writeAt n .declarator .name (declaredClass fromPackage n.node)
  | .assignmentExpression => writeAt n .assigned .left (constructed fromPackage (n.node.childByField .right))
  | .augmentedAssignmentExpression => writeAt n .augmented .left none
  | .updateExpression => writeAt n .updated .argument none
  | .forInStatement _ => writeAt n .loop .left none
  | .catchClause => writeAt n .caught .parameter none
  | _ => []

def writesAt (n : Located) : List Write :=
  parameterWrites fromPackage n ++ nameWrites n ++ importWrites n ++ patternWrites fromPackage n

def Write.names (w : Write) : List Name := if w.form = .name then [w.pattern.text] else JsReceiver.names w.pattern

/-- Only a plain name is given a class. -/
def Write.givenClass (w : Write) : Option Class := if w.pattern.kind = .identifier then w.cls else none

/-! ### Scopes -/

def isBlockScope : Kind → Bool
  | .program | .statementBlock | .switchBody | .forStatement | .classStaticBlock => true
  | _ => false

def isVarScope (k : Kind) : Bool := isFunction k || decide (k = .program ∨ k = .classStaticBlock ∨ k = .internalModule)

def blockScope : List Step → Place
  | [] => []
  | s :: outer => if isBlockScope s.node.kind then (⟨outer, s.node⟩ : Located).place else blockScope outer

/-- A `var` is the function's parameter of the name, or else in the function's body. -/
def varScope (name : Name) : List Step → Place
  | [] => []
  | s :: outer =>
    if isVarScope s.node.kind then
      if isFunction s.node.kind ∧ ∀ w ∈ parameterWrites fromPackage ⟨outer, s.node⟩, name ∉ w.names then
        (⟨outer, s.node⟩ : Located).place ++ [s.index]
      else (⟨outer, s.node⟩ : Located).place
    else varScope name outer

/-- The scope that a declaration is in; an assignment has none. -/
def Write.scope (w : Write) (name : Name) : Option Place :=
  match w.form with
  | .parameter | .caught => some w.node.place
  | .declarator =>
    if w.node.above.head?.any fun s => s.node.kind = .variableDeclaration then some (varScope fromPackage name w.node.above)
    else some (blockScope w.node.above)
  | .loop =>
    match w.node.kind with
    | .forInStatement (some .var) => some (varScope fromPackage name w.node.above)
    | .forInStatement (some .lexical) => some w.node.place
    | _ => none
  | .name => if isExpression w.node.kind then some w.node.place else some (blockScope w.node.above)
  | .imported => some []
  | .assigned | .augmented | .updated => none

/-- The writes to a name in a file. -/
def writesTo (name : Name) (file : Node) : List Write :=
  (file.nodes.flatMap (writesAt fromPackage)).filter fun w => name ∈ w.names

def declaredIn (name : Name) (file : Node) : List Place :=
  (writesTo fromPackage name file).filterMap fun w => w.scope fromPackage name

/-- The key of a method is outside of the method. -/
def inScope (s : Step) : Bool :=
  s.node.kind ≠ .methodDefinition ∨ (s.node.children[s.index]?).all fun c => c.1 ≠ some .name

/-- The scope of the variable that a name refers to. -/
def resolve (name : Name) (file : Node) : List Step → Option Place
  | [] => none
  | s :: outer =>
    if (⟨outer, s.node⟩ : Located).place ∈ declaredIn fromPackage name file ∧ inScope s then
      some (⟨outer, s.node⟩ : Located).place
    else resolve name file outer

/-- The variable that is written. -/
def Write.variable (w : Write) (name : Name) (file : Node) : Option Place :=
  (w.scope fromPackage name).or (resolve fromPackage name file w.node.above)

/-- The writes to the variable that a name refers to at a place. -/
def writesOf (name : Name) (file : Node) (above : List Step) : List Write :=
  (writesTo fromPackage name file).filter fun w =>
    w.variable fromPackage name file = resolve fromPackage name file above

/-! ### What the walk of a scope reads -/

/-- The body of a scope. -/
def bodyAt (scope : Located) : Option Located := if scope.kind = .program then some scope else scope.childByField .body

/-- The body that a node is in, and the way from there. -/
def way (scope n : Located) : Option (Node × Place) :=
  (bodyAt scope).bind fun b => if b.place <+: n.place then some (b.node, n.place.drop b.place.length) else none

/-- In the scope's own code, outside of nested functions and classes. -/
def inOwn (scope n : Located) : Bool :=
  (way scope n).any fun w => (gate isNested w.1 w.2).isNone && decide (w.2.length ≤ maxSubtreeDepth)

/-- A function or class nested in that code. -/
def isNestedIn (scope n : Located) : Bool :=
  (way scope n).any fun w =>
    (gate isNested w.1 w.2).any fun c => c.2 = [] ∧ w.2.length ≤ maxSubtreeDepth + 1

/-- In a function or class nested in that code. -/
def inNested (scope n : Located) : Bool :=
  (way scope n).any fun w =>
    (gate isNested w.1 w.2).any fun c =>
      w.2.length ≤ maxSubtreeDepth + c.2.length + 1 ∧ c.2.length ≤ maxSubtreeDepth

/-- The scope's walk comes to a write of the form. -/
def readsAs (scope : Located) (w : Write) : Form → Bool
  | .parameter => w.node.place = scope.place
  | .declarator | .loop | .caught => inOwn scope w.node
  | .name => isNestedIn scope w.node && decide (w.pattern.kind = .identifier)
  | .assigned => inOwn scope w.node || inNested scope w.node
  | .augmented => inNested scope w.node
  | .imported | .updated => false

def reads (scope : Located) (w : Write) : Bool :=
  decide (w.pattern.height ≤ maxSubtreeDepth) && readsAs scope w w.form

/-- The innermost scope that has something of the name reads what is written to the variable. -/
def Covered (name : Name) (file : Node) (above : List Step) : Prop :=
  ∀ scope ∈ scopeWithin fromPackage name maxSubtreeDepth above,
    writesOf fromPackage name file above ≠ [] ∧ ∀ w ∈ writesOf fromPackage name file above, reads scope w

instance (name : Name) (file : Node) (above : List Step) : Decidable (Covered fromPackage name file above) :=
  inferInstanceAs (Decidable (∀ scope ∈ scopeWithin .., _ ∧ _))

/-- The variable has the class by all that is written to it. -/
def Given (name : Name) (file : Node) (above : List Step) (cls : Class) : Prop :=
  writesOf fromPackage name file above ≠ [] ∧ ∀ w ∈ writesOf fromPackage name file above, w.givenClass = some cls

instance (name : Name) (file : Node) (above : List Step) (cls : Class) : Decidable (Given fromPackage name file above cls) :=
  inferInstanceAs (Decidable (_ ∧ _))

end

variable {fromPackage : Name → Bool} {name : Name} {file : Node} {above : List Step} {cls : Class} {scope n : Located}
  {w : Write}

/-! ### Names within the bound -/

mutual

theorem boundNames_eq : ∀ (t : Node) (depth : ℕ), depth + t.height ≤ maxSubtreeDepth → boundNames t depth = names t
  | .node k s cs, depth, h => by
    rw [height] at h
    have hbound : ¬maxSubtreeDepth < depth := by omega
    cases k
    case pairPattern => simp only [boundNames, names, hbound, if_false, boundNamesAt_eq .value cs (depth + 1) (by omega)]
    case assignmentPattern | objectAssignmentPattern =>
      simp only [boundNames, names, hbound, if_false, boundNamesAt_eq .left cs (depth + 1) (by omega)]
    all_goals simp only [boundNames, names, hbound, if_false, boundNamesOf_eq cs (depth + 1) (by omega)]

theorem boundNamesAt_eq (field : Field) : ∀ (cs : List (Option Field × Node)) (depth : ℕ),
    depth + heights cs ≤ maxSubtreeDepth + 1 → boundNamesAt field cs depth = namesAt field cs
  | [], _, _ => rfl
  | (f, t) :: cs, depth, h => by
    rw [heights] at h
    rw [boundNamesAt, namesAt, boundNamesAt_eq field cs depth (by omega), boundNames_eq t depth (by omega)]

theorem boundNamesOf_eq : ∀ (cs : List (Option Field × Node)) (depth : ℕ),
    depth + heights cs ≤ maxSubtreeDepth + 1 → boundNamesOf cs depth = namesOf cs
  | [], _, _ => rfl
  | (f, t) :: cs, depth, h => by
    rw [heights] at h
    rw [boundNamesOf, namesOf, boundNamesOf_eq cs depth (by omega), boundNames_eq t depth (by omega)]

end

/-- A pattern within the bound is recorded with what it gives the name. -/
theorem mem_record {pattern : Node} {c : Option Class} (hname : name ∈ names pattern)
    (hheight : pattern.height ≤ maxSubtreeDepth) :
    (name, if pattern.kind = .identifier then c else none) ∈ record pattern c := by
  rw [record]
  split_ifs with hk
  · cases pattern with
    | node k s cs =>
      obtain rfl : k = .identifier := hk
      rw [names, List.mem_singleton] at hname
      rw [hname]
      exact List.mem_singleton_self _
  · rw [boundNames_eq pattern 0 (by omega)]
    exact List.mem_map_of_mem hname

/-! ### What a scope has read -/

theorem mem_recordAt {t pattern : Node} {field : Field} {c : Option Class} (hfield : t.childByField field = some pattern)
    (hname : name ∈ names pattern) (hheight : pattern.height ≤ maxSubtreeDepth) :
    (name, if pattern.kind = .identifier then c else none) ∈ recordAt t field c := by
  rw [recordAt, hfield]
  exact mem_record hname hheight

section Way

variable {b : Node} {q : Place} (hn : file.get? n.place = some n.node) (hscope : file.get? scope.place = some scope.node)
include hn hscope

/-- The way leads from the body to the node. -/
theorem get?_of_way (hway : way scope n = some (b, q)) : bodyOf scope.node = some b ∧ b.get? q = some n.node := by
  obtain ⟨body, hbody, hway⟩ := Option.bind_eq_some_iff.mp hway
  split_ifs at hway with hbelow
  obtain ⟨rfl, rfl⟩ := Prod.mk.inj (Option.some.inj hway)
  obtain ⟨q, hq⟩ := hbelow
  have hget : bodyOf scope.node = some body.node ∧ file.get? body.place = some body.node := by
    unfold bodyAt at hbody
    rw [bodyOf]
    split_ifs at hbody with hprogram
    · obtain rfl := Option.some.inj hbody
      exact ⟨if_pos hprogram, hscope⟩
    · exact ⟨(if_neg hprogram).trans (Located.node_of_childByField hbody),
        Located.get?_of_childByField hscope hbody⟩
  refine ⟨hget.1, ?_⟩
  rw [← hq, List.drop_left, ← get?_append hget.2, hq]
  exact hn

theorem mem_of_inOwn (h : inOwn scope n = true) {a : Name × Option Class} (ha : a ∈ own fromPackage n.node) :
    a ∈ scopeBindings fromPackage scope.node := by
  obtain ⟨⟨b, q⟩, hway, h⟩ := (Option.any_eq_true _ _).mp h
  obtain ⟨hgate, hlength⟩ := Bool.and_eq_true_iff.mp h
  have hlength : q.length ≤ maxSubtreeDepth := of_decide_eq_true hlength
  obtain ⟨hbody, hget⟩ := get?_of_way hn hscope hway
  rw [scopeBindings, hbody]
  exact List.mem_append_right _ (mem_gatherWithin ha hget (Option.isNone_iff_eq_none.mp hgate) (by omega))

theorem mem_of_inNested (h : inNested scope n = true) {a : Name × Option Class} (ha : a ∈ assigned fromPackage n.node) :
    a ∈ scopeBindings fromPackage scope.node := by
  obtain ⟨⟨b, q⟩, hway, h⟩ := (Option.any_eq_true _ _).mp h
  obtain ⟨⟨c, rest⟩, hgate, h⟩ := (Option.any_eq_true _ _).mp h
  obtain ⟨hlength, hrest⟩ : q.length ≤ maxSubtreeDepth + rest.length + 1 ∧ rest.length ≤ maxSubtreeDepth :=
    of_decide_eq_true h
  obtain ⟨hbody, hget⟩ := get?_of_way hn hscope hway
  have hc : c.get? rest = some n.node := by
    rw [← get?_of_gate hgate]
    exact hget
  rw [scopeBindings, hbody]
  refine List.mem_append_right _ (mem_gatherWithin_border ?_ hgate (by simpa using hlength))
  exact List.mem_append_right _ (mem_gatherWithin ha hc (gate_open c rest) (by omega))

theorem mem_of_isNestedIn (h : isNestedIn scope n = true) {x : Node} (hx : n.node.childByField .name = some x)
    (hk : x.kind = .identifier) : (x.text, none) ∈ scopeBindings fromPackage scope.node := by
  obtain ⟨⟨b, q⟩, hway, h⟩ := (Option.any_eq_true _ _).mp h
  obtain ⟨⟨c, rest⟩, hgate, h⟩ := (Option.any_eq_true _ _).mp h
  obtain ⟨rfl, hlength⟩ : rest = [] ∧ q.length ≤ maxSubtreeDepth + 1 := of_decide_eq_true h
  obtain ⟨hbody, hget⟩ := get?_of_way hn hscope hway
  have hc : c = n.node := by
    rw [get?_of_gate hgate] at hget
    exact Option.some.inj hget
  subst hc
  rw [scopeBindings, hbody]
  refine List.mem_append_right _ (mem_gatherWithin_border ?_ hgate (by simpa using hlength))
  refine List.mem_append_left _ ?_
  rw [hx, Option.filter_some, if_pos (decide_eq_true hk)]
  show _ ∈ record x none
  rw [record, if_pos hk]
  exact List.mem_singleton_self _

end Way

/-! ### Writes that are read -/

theorem reads_iff : reads scope w = true ↔ w.pattern.height ≤ maxSubtreeDepth ∧ readsAs scope w w.form = true := by
  rw [reads, Bool.and_eq_true, decide_eq_true_iff]

theorem mem_writeAt {form : Form} {field : Field} {c : Option Class} (h : w ∈ writeAt n form field c) :
    w.node = n ∧ w.form = form ∧ w.cls = c ∧ n.node.childByField field = some w.pattern := by
  obtain ⟨pattern, hpattern, rfl⟩ := Option.map_eq_some_iff.mp (Option.mem_toList.mp h)
  exact ⟨rfl, rfl, rfl, hpattern⟩

/-- A write to one of a node's fields is recorded where that field is. -/
theorem mem_recordAt_of_writeAt {form : Form} {field : Field} {c : Option Class} (h : w ∈ writeAt n form field c)
    (hform : form ≠ .name) (hname : name ∈ w.names) (hheight : w.pattern.height ≤ maxSubtreeDepth) :
    (name, w.givenClass) ∈ recordAt n.node field c := by
  obtain ⟨-, rfl, rfl, hfield⟩ := mem_writeAt h
  rw [Write.names, if_neg hform] at hname
  exact mem_recordAt hfield hname hheight

theorem mem_of_patternWrites (hn : file.get? n.place = some n.node) (hscope : file.get? scope.place = some scope.node)
    (h : w ∈ patternWrites fromPackage n) (hname : name ∈ w.names) (hreads : reads scope w = true) :
    (name, w.givenClass) ∈ scopeBindings fromPackage scope.node := by
  obtain ⟨hheight, hreads⟩ := reads_iff.mp hreads
  unfold patternWrites at h
  -- one case for each kind of node that writes: the scope has it in its own walk or in the nested one
  split at h
  · next hk =>
    obtain ⟨rfl, hform, -⟩ := mem_writeAt h
    rw [hform] at hreads
    refine mem_of_inOwn hn hscope hreads ?_
    rw [own, show w.node.node.kind = _ from hk]
    exact mem_recordAt_of_writeAt h (by decide) hname hheight
  · next hk =>
    obtain ⟨rfl, hform, -⟩ := mem_writeAt h
    rw [hform] at hreads
    have hmem := mem_recordAt_of_writeAt h (by decide) hname hheight
    -- both walks record an assignment
    rcases Bool.or_eq_true_iff.mp hreads with hown | hnested
    · refine mem_of_inOwn hn hscope hown ?_
      rw [own, show w.node.node.kind = _ from hk]
      exact hmem
    · refine mem_of_inNested hn hscope hnested ?_
      rw [assigned, show w.node.node.kind = _ from hk]
      exact hmem
  · next hk =>
    obtain ⟨rfl, hform, -⟩ := mem_writeAt h
    rw [hform] at hreads
    refine mem_of_inNested hn hscope hreads ?_
    rw [assigned, show w.node.node.kind = _ from hk]
    exact mem_recordAt_of_writeAt h (by decide) hname hheight
  · next hk =>
    obtain ⟨rfl, hform, -⟩ := mem_writeAt h
    rw [hform] at hreads
    exact absurd hreads Bool.false_ne_true
  · next hk =>
    obtain ⟨rfl, hform, -⟩ := mem_writeAt h
    rw [hform] at hreads
    refine mem_of_inOwn hn hscope hreads ?_
    rw [own, show w.node.node.kind = _ from hk]
    exact mem_recordAt_of_writeAt h (by decide) hname hheight
  · next hk =>
    obtain ⟨rfl, hform, -⟩ := mem_writeAt h
    rw [hform] at hreads
    refine mem_of_inOwn hn hscope hreads ?_
    rw [own, show w.node.node.kind = _ from hk]
    exact mem_recordAt_of_writeAt h (by decide) hname hheight
  · exact absurd h List.not_mem_nil

theorem mem_of_nameWrites (hn : file.get? n.place = some n.node) (hscope : file.get? scope.place = some scope.node)
    (h : w ∈ nameWrites n) (hname : name ∈ w.names) (hreads : reads scope w = true) :
    (name, w.givenClass) ∈ scopeBindings fromPackage scope.node := by
  unfold nameWrites at h
  split_ifs at h
  · obtain ⟨x, hx, rfl⟩ := Option.map_eq_some_iff.mp (Option.mem_toList.mp h)
    obtain ⟨hnested, hk⟩ := Bool.and_eq_true_iff.mp (reads_iff.mp hreads).2
    obtain rfl : name = x.text := List.mem_singleton.mp hname
    rw [show (⟨n, .name, x, none⟩ : Write).givenClass = none from ite_self _]
    exact mem_of_isNestedIn hn hscope hnested hx (of_decide_eq_true hk)
  · exact absurd h List.not_mem_nil

theorem mem_of_parameterWrites (hn : file.get? n.place = some n.node) (hscope : file.get? scope.place = some scope.node)
    (h : w ∈ parameterWrites fromPackage n) (hname : name ∈ w.names) (hreads : reads scope w = true) :
    (name, w.givenClass) ∈ scopeBindings fromPackage scope.node := by
  unfold parameterWrites at h
  split_ifs at h
  · obtain ⟨hheight, hreads⟩ := reads_iff.mp hreads
    have hnode (hplace : n.place = scope.place) : n.node = scope.node := by
      rw [hplace, hscope] at hn
      exact (Option.some.inj hn).symm
    rw [scopeBindings, parameterBindings]
    apply List.mem_append_left
    rcases List.mem_append.mp h with h | h
    · obtain ⟨p, hp, rfl⟩ := List.mem_map.mp h
      rw [← hnode (of_decide_eq_true hreads)]
      exact List.mem_append_left _ (List.mem_flatMap.mpr ⟨p, hp, mem_record hname hheight⟩)
    · obtain ⟨p, hp, rfl⟩ := Option.map_eq_some_iff.mp (Option.mem_toList.mp h)
      rw [← hnode (of_decide_eq_true hreads)]
      exact List.mem_append_right _ (mem_recordAt hp hname hheight)
  · exact absurd h List.not_mem_nil

theorem reads_of_importWrites (h : w ∈ importWrites n) : reads scope w = false := by
  have hform : w.form = .imported := by
    unfold importWrites at h
    split at h
    · obtain ⟨x, hx, rfl⟩ := Option.map_eq_some_iff.mp (Option.mem_toList.mp h)
      rfl
    · obtain ⟨x, hx, rfl⟩ := List.mem_map.mp h
      rfl
    · obtain ⟨x, hx, rfl⟩ := List.mem_map.mp h
      rfl
    · exact absurd h List.not_mem_nil
  rw [reads, hform]
  exact Bool.and_false _

/-- What a scope reads of a name is among what it has of it. -/
theorem mem_found (hscope : file.get? scope.place = some scope.node) (h : w ∈ writesTo fromPackage name file)
    (hreads : reads scope w = true) : w.givenClass ∈ found fromPackage name scope.node := by
  obtain ⟨h, hname⟩ := List.mem_filter.mp h
  obtain ⟨n, hn, h⟩ := List.mem_flatMap.mp h
  have hget := get?_place hn
  have hname := of_decide_eq_true hname
  have hmem : (name, w.givenClass) ∈ scopeBindings fromPackage scope.node := by
    rcases List.mem_append.mp h with h | h
    · rcases List.mem_append.mp h with h | h
      · rcases List.mem_append.mp h with h | h
        · exact mem_of_parameterWrites hget hscope h hname hreads
        · exact mem_of_nameWrites hget hscope h hname hreads
      · exact absurd ((reads_of_importWrites h).symm.trans hreads) Bool.false_ne_true
    · exact mem_of_patternWrites hget hscope h hname hreads
  exact List.mem_map.mpr ⟨_, List.mem_filter.mpr ⟨hmem, decide_eq_true rfl⟩, rfl⟩

theorem eq_of_agreed {given : List (Option Class)} (h : agreed given = some cls) : ∀ c ∈ given, c = some cls := by
  cases given with
  | nil => nomatch h
  | cons first rest =>
    cases first with
    | none => nomatch h
    | some c =>
      rw [agreed] at h
      split_ifs at h with hall
      obtain rfl := Option.some.inj h
      intro c' hc'
      rcases List.mem_cons.mp hc' with rfl | hc'
      · rfl
      · exact of_decide_eq_true (List.all_eq_true.mp hall c' hc')

theorem scopeWithin_suffix : ∀ {fuel : ℕ} {above : List Step}, scopeWithin fromPackage name fuel above = some scope →
    ∃ s, scope.node = s.node ∧ s :: scope.above <:+ above
  | fuel + 1, s :: outer, h => by
    rw [scopeWithin] at h
    split_ifs at h with hfound
    · obtain rfl := Option.some.inj h
      exact ⟨s, rfl, List.suffix_refl _⟩
    · obtain ⟨s', hs', hsuffix⟩ := scopeWithin_suffix h
      exact ⟨s', hs', hsuffix.trans (List.suffix_cons _ _)⟩

/-- The class of a name is that of its variable, where the scope that answers reads what is written to it. -/
theorem bindingType_given (hrooted : ∀ s outer, s :: outer <:+ above →
      file.get? (⟨outer, s.node⟩ : Located).place = some s.node)
    (hcovered : Covered fromPackage name file above) (h : bindingType fromPackage name above = some cls) :
    Given fromPackage name file above cls := by
  obtain ⟨scope, hscope, hagreed⟩ := Option.bind_eq_some_iff.mp h
  obtain ⟨s, hs, hsuffix⟩ := scopeWithin_suffix hscope
  have hget : file.get? scope.place = some scope.node := by
    rw [hs]
    exact hrooted s scope.above hsuffix
  obtain ⟨hne, hreads⟩ := hcovered scope hscope
  refine ⟨hne, fun w hw => ?_⟩
  exact eq_of_agreed hagreed _ (mem_found hget (List.mem_filter.mp hw).1 (hreads w hw))

/-- A receiver has the class that everything gives its variable. -/
theorem receiverType_given {f : Located} (hf : Located.Rooted file f) (hname : receiverName f = some name)
    (hcovered : Covered fromPackage name file f.above) (h : receiverType fromPackage f = some cls) :
    Given fromPackage name file f.above cls := by
  rw [receiverType, hname] at h
  exact bindingType_given hf.2 hcovered h

end CodeGraph.Parser.JsReceiver
