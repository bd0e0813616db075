import CodeGraph.Parser.Python

/-!
# What a Python receiver type rests on

`scopeBindings` lists every binding of a name in a scope, of any form. The walk of the code finds those that are an
assignment of a value to the plain name, and the type it infers rests on them alone: on the only one there is, or on
the annotation of a parameter where there is none (`inferReceiver_rests`). A parameter and an augmented assignment
stand beside such an assignment without making a difference.
-/

namespace CodeGraph.Parser.Python

open CodeGraph.Lib CodeGraph.Lib.SyntaxTree

variable {isUppercase : Char → Bool} {recv : Text} {n root scope call p : Node} {above : List Node}

/-! ### Bindings -/

/-- A binding of a name, by its form. -/
inductive Binding
  /-- An assignment to the plain name, in a chain or with an annotation or not. -/
  | value (right : Node)
  | unpacked
  | augmented
  | walrus
  | loop
  /-- `with … as`, `except … as`. -/
  | alias
  | imported
  | deleted
  | defined
  | parameter (p : Node)

def isPattern : Kind → Bool
  | .patternList | .tuplePattern | .listPattern | .listSplatPattern | .dictionarySplatPattern | .asPatternTarget
  | .expressionList | .parenthesizedExpression | .tuple | .list => true
  | _ => false

mutual

/-- The plain names in a target. An attribute and a subscript bind none. -/
def targets : Node → List Text
  | .node k s cs => if k = .identifier then [s] else if isPattern k then targetsOfChildren cs else []

def targetsOfChildren : List (Option Field × Node) → List Text
  | [] => []
  | (_, t) :: cs => targets t ++ targetsOfChildren cs

end

/-- `import a.b` binds `a`, and `import a.b as c` binds `c`. -/
def importedName (n : Node) : Option Text :=
  if n.kind = .aliasedImport then (n.childByField .alias).map SyntaxTree.text
  else n.namedChildren.head?.map SyntaxTree.text

/-- The names in a field. -/
def targetsAt (field : Field) (n : Node) : List Text := ((n.childByField field).map targets).getD []

/-- The bindings of a name by a node itself. -/
def boundBy (recv : Text) (n : Node) : List Binding :=
  match n.kind with
  | .assignment =>
    match n.childByField .left, n.childByField .right with
    | some left, some right =>
      if left.kind = .identifier then (if left.text = recv then [.value right] else [])
      else if recv ∈ targets left then [.unpacked] else []
    -- an annotation without a value binds nothing
    | _, _ => []
  | .augmentedAssignment => if recv ∈ targetsAt .left n then [.augmented] else []
  | .namedExpression => if recv ∈ targetsAt .name n then [.walrus] else []
  | .forStatement => if recv ∈ targetsAt .left n then [.loop] else []
  | .asPattern => if recv ∈ targetsAt .alias n then [.alias] else []
  | .importStatement | .importFromStatement =>
    if recv ∈ ((n.children.filter fun c => c.1 = some .name).filterMap fun c => importedName c.2) then [.imported] else []
  | .deleteStatement => if recv ∈ n.namedChildren.flatMap targets then [.deleted] else []
  | .functionDefinition | .classDefinition => if recv ∈ targetsAt .name n then [.defined] else []
  | _ => []

/-- The bindings of a name in a block: of a `def` or a `class` in it, just its own name. -/
def bindings (recv : Text) (root : Node) : List Binding := gather (boundBy recv) (boundBy recv) isDefinition root

def paramNames (p : Node) : List Text :=
  match p.kind with
  | .identifier => [p.text]
  | .defaultParameter => targetsAt .name p
  | .typedDefaultParameter => (p.childByField .name).toList.map SyntaxTree.text
  -- `w: T`, `*args`, `**kwargs`
  | _ => p.namedChildren.flatMap targets

def parameterBindings (recv : Text) (scope : Node) : List Binding :=
  ((((scope.childByField .parameters).map namedChildren).getD []).filter fun p => recv ∈ paramNames p).map .parameter

/-- The bindings of a name in a function, its parameters first, or in a module. -/
def scopeBindings (recv : Text) (scope : Node) : List Binding :=
  (if scope.kind = .functionDefinition then parameterBindings recv scope else []) ++
    ((scanRoot scope).map (bindings recv)).getD []

/-! ### What the walk finds -/

def Binding.assigned : Binding → Option Node
  | .value right => some right
  | _ => none

theorem filterMap_boundBy (n : Node) : (boundBy recv n).filterMap Binding.assigned = assignedTo recv n := by
  -- a binding that assigns nothing leaves nothing
  have hother : ∀ (c : Prop) [Decidable c] (b : Binding), b.assigned = none →
      (if c then [b] else []).filterMap Binding.assigned = [] := by
    intro c _ b hb
    split_ifs
    · rw [List.filterMap_cons_none hb, List.filterMap_nil]
    · rfl
  unfold boundBy assignedTo
  cases hkind : n.kind with
  | assignment =>
    dsimp only
    rw [if_pos rfl]
    rcases n.childByField .left with _ | left
    · rfl
    rcases n.childByField .right with _ | right
    · dsimp only
      split_ifs
      · rfl
      · rfl
    dsimp only
    by_cases hleft : left.kind = .identifier
    · by_cases htext : left.text = recv
      · rw [if_pos hleft, if_pos htext, if_pos ⟨hleft, htext⟩]
        rfl
      · rw [if_pos hleft, if_neg htext, if_neg fun h => htext h.2]
        rfl
    · rw [if_neg hleft]
      refine (hother _ _ rfl).trans (if_neg ?_).symm
      exact fun h => hleft h.1
  | augmentedAssignment | namedExpression | forStatement | asPattern | importStatement | importFromStatement
  | deleteStatement | functionDefinition | classDefinition =>
    exact (hother _ _ rfl).trans (if_neg (by simp)).symm
  | _ => exact (if_neg (by simp)).symm

/-- In a tree that is no higher than the walk goes, the walk finds every assignment to the plain name. -/
theorem collect_eq (h : root.height ≤ maxSubtreeDepth) :
    collectPyRecvAssignmentRhs root recv = (bindings recv root).filterMap Binding.assigned := by
  unfold collectPyRecvAssignmentRhs bindings
  rw [gatherWithin_eq root 0 (by omega), filterMap_gather]
  refine (gather_congr (fun t => filterMap_boundBy t) (fun t hclosed => ?_) root).symm
  -- of a definition that is not entered the walk takes nothing
  rw [filterMap_boundBy]
  refine if_neg fun hkind => ?_
  unfold isDefinition at hclosed
  rw [hkind] at hclosed
  cases hclosed

theorem filterMap_scopeBindings (h : scanRoot scope = some root) (hheight : root.height ≤ maxSubtreeDepth) :
    (scopeBindings recv scope).filterMap Binding.assigned = collectPyRecvAssignmentRhs root recv := by
  have hparameters : (parameterBindings recv scope).filterMap Binding.assigned = [] := by
    unfold parameterBindings
    rw [List.filterMap_map]
    exact List.filterMap_eq_nil_iff.mpr fun p _ => rfl
  unfold scopeBindings
  rw [h, List.filterMap_append, collect_eq hheight]
  split_ifs
  · rw [hparameters]
    rfl
  · rfl

/-! ### What a type rests on -/

/-- The node is a call of the plain name. -/
def Constructs (n : Node) (C : Text) : Prop :=
  n.kind = .call ∧ ∃ f, n.childByField .function = some f ∧ f.kind = .identifier ∧ f.text = C

/-- The annotation of the parameter is the plain name. -/
def Annotated (p : Node) (C : Text) : Prop :=
  ∃ ty, p.childByField .type = some ty ∧ ∃ name : Node, (name = ty ∨ ty.namedChildren.head? = some name) ∧
    name.kind = .identifier ∧ name.text = C

theorem className_eq {C : Text} (h : className isUppercase n = some C) : n.kind = .identifier ∧ n.text = C := by
  unfold className at h
  split_ifs at h with hkind
  refine ⟨hkind, ?_⟩
  cases htext : n.text with
  | nil =>
    rw [htext] at h
    cases h
  | cons c rest =>
    rw [htext] at h
    dsimp only at h
    split_ifs at h
    exact Option.some_inj.mp h

theorem constructs_of_some {C : Text} (h : pyConstructorTypeName isUppercase n = some C) : Constructs n C := by
  unfold pyConstructorTypeName at h
  split_ifs at h with hkind
  obtain ⟨f, hf, hname⟩ := Option.bind_eq_some_iff.mp h
  exact ⟨hkind, f, hf, className_eq hname⟩

theorem targets_identifier (h : n.kind = .identifier) : targets n = [n.text] := by
  obtain ⟨k, s, cs⟩ := n
  rw [targets]
  exact if_pos h

/-- The name that the code reads off a typed parameter is one that the parameter binds. -/
theorem typedParam_binds {name ty : Node} (h : typedParam p = some (name, ty)) :
    name.text ∈ paramNames p ∧ p.childByField .type = some ty := by
  unfold typedParam at h
  by_cases htyped : p.kind = .typedParameter
  · rw [if_pos htyped] at h
    obtain ⟨name', hname, h⟩ := Option.bind_eq_some_iff.mp h
    obtain ⟨ty', hty, heq⟩ := Option.map_eq_some_iff.mp h
    obtain ⟨rfl, rfl⟩ := Prod.mk.inj heq
    refine ⟨?_, hty⟩
    unfold paramNames
    rw [htyped]
    refine List.mem_flatMap.mpr ⟨name', List.mem_of_find?_eq_some hname, ?_⟩
    rw [targets_identifier (by simpa using List.find?_some hname)]
    exact List.mem_singleton_self _
  · rw [if_neg htyped] at h
    split_ifs at h with hdefault
    obtain ⟨name', hname, h⟩ := Option.bind_eq_some_iff.mp h
    obtain ⟨ty', hty, heq⟩ := Option.map_eq_some_iff.mp h
    obtain ⟨rfl, rfl⟩ := Prod.mk.inj heq
    refine ⟨?_, hty⟩
    unfold paramNames
    rw [hdefault, hname]
    exact List.mem_singleton_self _

theorem annotated_of_some {C : Text} {name ty : Node} (htyped : typedParam p = some (name, ty))
    (h : pyAnnotationTypeName isUppercase ty = some C) : Annotated p C := by
  obtain ⟨inner, hinner, hname⟩ := Option.bind_eq_some_iff.mp h
  refine ⟨ty, (typedParam_binds htyped).2, inner, ?_, className_eq hname⟩
  split_ifs at hinner with hkind
  · exact .inr hinner
  · exact .inl (Option.some_inj.mp hinner).symm

theorem param_of_some {C : Text} (hkind : scope.kind = .functionDefinition)
    (h : pyParamAnnotationType isUppercase scope recv = some C) :
    ∃ p, Binding.parameter p ∈ scopeBindings recv scope ∧ Annotated p C := by
  obtain ⟨params, hparams, h⟩ := Option.bind_eq_some_iff.mp h
  obtain ⟨⟨name, ty⟩, hfound, hname⟩ := Option.bind_eq_some_iff.mp h
  obtain ⟨p, hp, htyped⟩ := List.mem_filterMap.mp (List.mem_of_find?_eq_some hfound)
  have htext : name.text = recv := by simpa using List.find?_some hfound
  refine ⟨p, ?_, annotated_of_some htyped hname⟩
  unfold scopeBindings parameterBindings
  rw [if_pos hkind, hparams]
  refine List.mem_append_left _ (List.mem_map_of_mem (List.mem_filter.mpr ⟨hp, ?_⟩))
  rw [decide_eq_true_eq, ← htext]
  exact (typedParam_binds htyped).1

/-- A type that is inferred for a receiver other than `self` and `cls` rests on the only assignment of a value to its
plain name in the scope, in any block, and that is a call of the type's name; or, where there is no such assignment, on
the annotation of a parameter. -/
theorem inferReceiver_rests {C : Text} (hrecv : receiverOf call = some recv) (hself : recv ≠ ['s', 'e', 'l', 'f'])
    (hcls : recv ≠ ['c', 'l', 's']) (hscope : nearestPyScope above = some scope) (hroot : scanRoot scope = some root)
    (hheight : root.height ≤ maxSubtreeDepth) (h : inferPythonCallReceiverType isUppercase above call = some C) :
    (∃ r, (scopeBindings recv scope).filterMap Binding.assigned = [r] ∧ Constructs r C) ∨
      ((scopeBindings recv scope).filterMap Binding.assigned = [] ∧
        ∃ p, Binding.parameter p ∈ scopeBindings recv scope ∧ Annotated p C) := by
  unfold inferPythonCallReceiverType at h
  rw [hrecv, Option.bind_some, if_neg (not_or.mpr ⟨hself, hcls⟩), hscope, Option.bind_some, hroot, Option.bind_some] at h
  rw [filterMap_scopeBindings hroot hheight]
  rcases hcollected : collectPyRecvAssignmentRhs root recv with _ | ⟨r, _ | ⟨r', rest⟩⟩
  · rw [hcollected] at h
    dsimp only at h
    split_ifs at h with hkind
    exact .inr ⟨rfl, param_of_some hkind h⟩
  · rw [hcollected] at h
    exact .inl ⟨r, rfl, constructs_of_some h⟩
  · rw [hcollected] at h
    cases h

/-! ### Other bindings beside it -/

/-- The type rests on the only binding of the name in the scope, of whatever form. -/
def OnlyBinding (recv : Text) (scope : Node) (C : Text) : Prop :=
  (∃ r, scopeBindings recv scope = [.value r] ∧ Constructs r C) ∨
    ∃ p, scopeBindings recv scope = [.parameter p] ∧ Annotated p C

def ident (s : Text) : Node := .node .identifier s []

/-- `C()`. -/
def construct (C : Text) : Node := .node .call [] [(some .function, ident C), (some .arguments, .node (.other []) [] [])]

/-- `w.run()`. -/
def runCall : Node :=
  .node .call [] [(some .function,
    .node .attribute [] [(some .object, ident ['w']), (some .attribute, ident ['r', 'u', 'n'])])]

/-- `w = C()`. -/
def assign (C : Text) : Node :=
  .node .assignment [] [(some .left, ident ['w']), (some .right, construct C)]

def statement (n : Node) : Node := .node (.other []) [] [(none, n)]

/-- `w = A()`, `w += x`, `w.run()`. -/
def augmentedModule : Node :=
  .node .module [] [(none, statement (assign ['A'])),
    (none, statement (.node .augmentedAssignment [] [(some .left, ident ['w']), (some .right, ident ['x'])])),
    (none, statement runCall)]

/-- `w = B(); w.run()`. -/
def overridingBody : Node := .node .block [] [(none, statement (assign ['B'])), (none, statement runCall)]

/-- `def f(w: A):` with that body. -/
def overridingFunction : Node :=
  .node .functionDefinition [] [(some .name, ident ['f']),
    (some .parameters, .node (.other []) [] [(none,
      .node .typedParameter [] [(none, ident ['w']), (some .type, .node .type [] [(none, ident ['A'])])])]),
    (some .body, overridingBody)]

theorem inferReceiver_rests_augmented :
    (∃ r, (scopeBindings ['w'] augmentedModule).filterMap Binding.assigned = [r] ∧ Constructs r ['A']) ∨
      ((scopeBindings ['w'] augmentedModule).filterMap Binding.assigned = [] ∧
        ∃ p, Binding.parameter p ∈ scopeBindings ['w'] augmentedModule ∧ Annotated p ['A']) :=
  inferReceiver_rests (show receiverOf runCall = some ['w'] from rfl) (by decide) (by decide)
    (show nearestPyScope [statement runCall, augmentedModule] = some augmentedModule from rfl) rfl (by decide)
    (show inferPythonCallReceiverType Char.isUpper _ _ = some ['A'] from rfl)

/-- An augmented assignment does not count, and an assignment overrides the annotation of a parameter. -/
theorem inferReceiver_beside :
    (inferPythonCallReceiverType Char.isUpper [statement runCall, augmentedModule] runCall = some ['A'] ∧
      ¬OnlyBinding ['w'] augmentedModule ['A']) ∧
    (inferPythonCallReceiverType Char.isUpper [statement runCall, overridingBody, overridingFunction] runCall = some ['B'] ∧
      ¬OnlyBinding ['w'] overridingFunction ['B']) := by
  have hlength : ∀ recv scope C, (scopeBindings recv scope).length = 2 → ¬OnlyBinding recv scope C := by
    rintro recv scope C htwo (⟨r, hone, -⟩ | ⟨p, hone, -⟩)
    · rw [hone] at htwo
      cases htwo
    · rw [hone] at htwo
      cases htwo
  exact ⟨⟨rfl, hlength _ _ _ rfl⟩, rfl, hlength _ _ _ rfl⟩

end CodeGraph.Parser.Python
