import CodeGraph.Lib.Sort
import CodeGraph.Pipeline.RecvType
import Mathlib.Data.Finset.Option
import Mathlib.Data.Finset.SymmDiff
import Mathlib.Data.Finset.Union
import Mathlib.Data.String.Basic

/-!
# The typed callers of a changed class structure

`CLASS_SHAPE_SELECT` and `typed_callers_of_class_drift` of `pipeline/resolve.rs`: which files a run has to
extract again because a class of its files changed. The rows of the class structure are compared before and
after the run; a row is a tuple here where the code joins its columns by U+001F.
-/

namespace CodeGraph.Pipeline.ClassDrift

open CodeGraph.Lib CodeGraph.Pipeline.RecvType

/-! ### `CLASS_SHAPE_SELECT` -/

/-- The rows by kind: `c`, `i`, `j`, `m` and `f`. -/
inductive ShapeRow
  | classRow (path language spelling : String) (nested : Bool)
  | subRow (path sub base : String)
  | baseRow (path sub base : String)
  | methodRow (path qualified returnType : String)
  | fieldRow (path cls field dotType arrowType : String)
  deriving DecidableEq

/-- The row of a class-like node. -/
def classRowOf (S : ClassIndex) (n : TypedNode) : ShapeRow :=
  .classRow n.path ((S.language n.path).getD "") n.spelling (S.enclosed n)

/-- The row of a method. -/
def methodRowOf (n : TypedNode) : ShapeRow :=
  .methodRow n.path (n.qualifiedName.getD "") (n.returnType.getD "")

/-- A function or method with a dot in its qualified name. -/
def IsMethod (n : TypedNode) : Prop :=
  (n.type = "function" ∨ n.type = "method") ∧ ∃ q ∈ n.qualifiedName, '.' ∈ q.toList

instance (n : TypedNode) : Decidable (IsMethod n) :=
  match h : n.qualifiedName with
  | none => isFalse (by simp [IsMethod, h])
  | some q => decidable_of_iff ((n.type = "function" ∨ n.type = "method") ∧ '.' ∈ q.toList) (by simp [IsMethod, h])

/-- Both ends of the `inherits` edges. -/
def inheritsEnds (S : ClassIndex) : List (TypedNode × TypedNode) :=
  S.inherits.filterMap fun e =>
    match S.node? e.1, S.node? e.2 with
    | some s, some t => some (s, t)
    | _, _ => none

/-- The rows of the fields of a class. -/
def fieldRowOf (S : ClassIndex) (P : Finset String) (f : CppField) : Option ShapeRow :=
  ((S.node? f.classId).filter fun n => n.path ∈ P).map fun n =>
    .fieldRow n.path n.name f.field (f.dotType.getD "") (f.arrowType.getD "")

/-- The arms of the query. -/
def shapeRows (P : Finset String) (S : ClassIndex) : List ShapeRow :=
  let classes : List ShapeRow := (S.nodes.filter fun n => n.path ∈ P ∧ n.ClassLike).map (classRowOf S)
  let subs : List ShapeRow := ((inheritsEnds S).filter fun e => e.1.path ∈ P).map fun e =>
    .subRow e.1.path e.1.name e.2.name
  let bases : List ShapeRow := ((inheritsEnds S).filter fun e => e.2.path ∈ P).map fun e =>
    .baseRow e.2.path e.1.name e.2.name
  let methods : List ShapeRow := (S.nodes.filter fun n => n.path ∈ P ∧ IsMethod n).map methodRowOf
  classes ++ subs ++ bases ++ methods ++ S.cppFields.filterMap (fieldRowOf S P)

/-- `UNION` leaves each row once. -/
def classShape (P : Finset String) (S : ClassIndex) : Finset ShapeRow := (shapeRows P S).toFinset

/-! ### What moved -/

/-- What `typed_callers_of_class_drift` collects from the rows that moved. -/
structure Drift where
  classes : Finset String
  linked : Finset String
  rebased : Finset String
  methods : Finset (String × String)
  fieldOwners : Finset String

/-- The owner and the method of a qualified name. -/
def methodOf (qualified : String) : Option (String × String) :=
  (rsplitOnce qualified '.').bind fun x => (last x.1).map fun owner => (owner, x.2)

def driftOf (moved : Finset ShapeRow) : Drift where
  classes := moved.biUnion fun
    | .classRow _ _ spelling _ => (last spelling).toFinset
    | _ => ∅
  linked := moved.biUnion fun
    | .subRow _ sub base => (last sub).toFinset ∪ (last base).toFinset
    | .baseRow _ sub base => (last sub).toFinset ∪ (last base).toFinset
    | _ => ∅
  rebased := moved.biUnion fun
    | .subRow _ sub _ => (last sub).toFinset
    | .baseRow _ sub _ => (last sub).toFinset
    | _ => ∅
  methods := moved.biUnion fun
    | .methodRow _ qualified _ => (methodOf qualified).toFinset
    | _ => ∅
  fieldOwners := moved.biUnion fun
    | .fieldRow _ cls _ _ _ => (last cls).toFinset
    | _ => ∅

/-- `unique`: one class-like node has the name. -/
def unique (S : ClassIndex) (name : String) : Bool := (S.byLast name).length = 1

/-- `bases`: the `inherits` edges between names. -/
def namePairs (S : ClassIndex) : List (String × String) :=
  (inheritsEnds S).filterMap fun e =>
    match last e.1.name, last e.2.name with
    | some sub, some base => some (sub, base)
    | _, _ => none

/-- The ancestors of a name, itself included. -/
def ancestors (S : ClassIndex) (names : Finset String) : Finset String := closure (namePairs S) (inOrder names)

/-- The descendants of a name, itself included. -/
def descendants (S : ClassIndex) (names : Finset String) : Finset String :=
  closure ((namePairs S).map Prod.swap) (inOrder names)

/-- `any`: the names of which every typed call is extracted again. -/
def anyMethod (S : ClassIndex) (D : Drift) : Finset String :=
  (ancestors S (D.classes ∪ D.linked)).filter (fun n => unique S n) ∪ D.classes ∪ descendants S D.rebased

/-- `per_method`: the names and methods of which typed calls are extracted again. -/
def perMethod (S : ClassIndex) (D : Drift) : Finset (String × String) :=
  D.methods.biUnion fun om =>
    ((ancestors S {om.1}).filter (fun n => n = om.1 ∨ unique S n) ∪ descendants S {om.1}).image fun n => (n, om.2)

/-! ### The calls -/

/-- A stored call, an edge or a pending row: its file, the name it calls, and members of its metadata. -/
structure CallRow where
  path : String
  language : Option String
  target : String
  q : Option String
  v : Option String
  fc : Option String
  vc : Option String
  rt : Option String
  own : Option String
  deriving DecidableEq, Repr

def CallRow.Typed (c : CallRow) : Prop := c.q = some "rtype" ∨ c.q = some "super"

instance (c : CallRow) : Decidable c.Typed := inferInstanceAs (Decidable (_ ∨ _))

/-- The calls that the query selects. -/
def CallRow.Selected (c : CallRow) : Prop :=
  (c.Typed ∧ c.own = none) ∨ c.fc.isSome ∨ c.vc.isSome ∨ c.rt.isSome

instance (c : CallRow) : Decidable c.Selected := inferInstanceAs (Decidable (_ ∨ _))

/-- The class of the call moved, or the method on it. -/
def byClass (S : ClassIndex) (D : Drift) (c : CallRow) : Prop :=
  c.Typed ∧ ∃ cls ∈ c.v.bind last, cls ∈ anyMethod S D ∨ (cls, c.target) ∈ perMethod S D

instance (S : ClassIndex) (D : Drift) (c : CallRow) : Decidable (byClass S D c) :=
  match h : c.v.bind last with
  | none => isFalse (by simp [byClass, h])
  | some cls => decidable_of_iff
      (c.Typed ∧ (cls ∈ anyMethod S D ∨ (cls, c.target) ∈ perMethod S D)) (by simp [byClass, h])

/-- A Rust receiver whose type or whose method of the name moved. -/
def byReceiver (D : Drift) (c : CallRow) : Bool :=
  c.rt.any fun t => t ∈ D.classes ||
    decide (∃ om ∈ D.methods, om.1 = t ∧ (om.2 = c.target ∨ om.2 ∈ ["deref", "deref_mut"]))

/-- The names that a C++ field, or a chain, is looked up through. -/
def fieldKeys (D : Drift) : Finset String := D.fieldOwners ∪ D.classes ∪ D.linked

def viaKeys (D : Drift) : Finset String := fieldKeys D ∪ D.methods.image Prod.fst

def throughField (S : ClassIndex) (D : Drift) (c : CallRow) : Bool :=
  (c.fc.bind last).any fun owner => (ancestors S {owner} ∩ fieldKeys D).Nonempty

/-- `names` reads the JSON list of `vc`. -/
def throughChain (names : String → Option (List String)) (S : ClassIndex) (D : Drift) (c : CallRow) : Bool :=
  (c.vc.bind names).any fun ns => ns.any fun n => (ancestors S {n} ∩ viaKeys D).Nonempty

/-- A Rust `self.m()` or `Self::m()` of a type whose `m` moved. -/
def bySelf (D : Drift) (c : CallRow) : Bool :=
  c.language = some "rust" && (c.q = some "self" || c.q = some "stype") &&
    (c.v.bind last).any fun ty => (ty, c.target) ∈ D.methods

/-- `typed_callers_of_class_drift`. -/
def typedCallersOfClassDrift (names : String → Option (List String)) (P : Finset String)
    (before : Finset ShapeRow) (after : ClassIndex) (calls : List CallRow) : List String :=
  let D := driftOf (symmDiff before (classShape P after))
  if D.classes = ∅ ∧ D.linked = ∅ ∧ D.methods = ∅ ∧ D.fieldOwners = ∅ then []
  else
    inOrder (((calls.filter fun c => c.path ∉ P ∧
      (c.Selected ∧ (byReceiver D c || throughField after D c || decide (byClass after D c) ||
        throughChain names after D c) ∨ bySelf D c)).map CallRow.path).toFinset)

end CodeGraph.Pipeline.ClassDrift
