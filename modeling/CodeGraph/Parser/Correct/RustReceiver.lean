import CodeGraph.Parser.RustReceiver
import Mathlib.Data.List.TakeWhile

/-!
# The binding that a Rust receiver refers to

`resolve` is Rust's lexical scoping: outwards from a name, the first scope that binds it. A block binds what its `let`s
before the place bind, and its items wherever they stand; a function hides the locals around it, not the items; a
module ends the walk. A name has one binding but where a file declares an item twice.

The walk of `binding_type` types a name by the binding it resolves to wherever it sees the bindings on the way
(`identifierType_resolved`). It does not see a field's shorthand in a pattern, the earlier operands of a `let` chain, a
`const` parameter, and the items of a block that stand behind the place or around the function.
-/

namespace CodeGraph.Parser.RustReceiver

open CodeGraph.Lib CodeGraph.Lib.SyntaxTree

/-! ### Patterns that bind -/

/-- The path of a struct and the guard of an arm are no patterns. -/
def outside (k : Kind) (field : Option Field) : Bool :=
  match k with
  | .tupleStructPattern | .structPattern => field = some .type
  | .matchPattern => field = some .condition
  | _ => false

mutual

/-- A field's shorthand binds as an identifier does. An identifier that names a constant in scope is compared with it
instead, and then what it is compared with has the constant's type. -/
def patternBinds (name : Name) : Node → Bool
  | .node k s cs =>
    match k with
    | .identifier | .shorthandFieldIdentifier => s = name
    | .scopedIdentifier | .genericPattern | .rangePattern | .macroInvocation | .constBlock => false
    | _ => anyPatternBinds name k cs

def anyPatternBinds (name : Name) (k : Kind) : List (Option Field × Node) → Bool
  | [] => false
  | (field, t) :: cs => !outside k field && patternBinds name t || anyPatternBinds name k cs

end

mutual

/-- A condition binds by its `let`, or by those of its chain. -/
def conditionBinds (name : Name) : Node → Bool
  | .node k s cs =>
    match k with
    | .letCondition => ((SyntaxTree.node k s cs).childByField .pattern).any (patternBinds name)
    | .letChain => anyConditionBinds name cs
    | _ => false

def anyConditionBinds (name : Name) : List (Option Field × Node) → Bool
  | [] => false
  | (_, t) :: cs => conditionBinds name t || anyConditionBinds name cs

end

def letBinds (name : Name) (stmt : Node) : Bool :=
  stmt.kind = .letDeclaration ∧ (stmt.childByField .pattern).any (patternBinds name)

def parameterBinds (name : Name) (p : Node) : Bool := (parameterPattern p).any (patternBinds name)

/-! ### Bindings -/

inductive Binding
  | declaration (decl : Located)
  | parameter (p : Located)
  /-- A pattern of a `for`, of an arm or of a condition. -/
  | pattern (of : Located)
  | item (item : Located)
  /-- A `const` parameter. -/
  | generic (p : Located)

section

variable {τ : Type} (written : Located → τ) (valueType : Located → Option τ)

def itemType (item : Located) : Option τ :=
  if item.kind = .staticItem ∨ item.kind = .constItem then (item.childByField .type).map written else none

/-- The type that the file gives a binding. -/
def Binding.type (name : Name) : Binding → Option τ
  | declaration decl => declared written valueType decl name
  | parameter p => annotated written p name
  | pattern _ => none
  | item i => itemType written i
  | generic p => (p.childByField .type).map written

end

section

variable (imports : Name → Located → Bool)

/-- An item that gives the name a value. What a `use` brings in is a parameter. -/
def itemNamed (name : Name) (item : Located) : Bool :=
  match item.kind with
  | .staticItem | .constItem | .functionItem | .functionSignatureItem => named name item.node
  | .structItem => named name item.node ∧ (item.node.childByField .body).all fun b => b.kind ≠ .fieldDeclarationList
  | .useDeclaration => imports name item
  | _ => false

/-- The items of a block or a module. Those of an `extern` block are the module's. -/
def items (name : Name) (scope : Located) : List Located :=
  (scope.children.flatMap fun c =>
    if c.kind = .foreignModItem then ((c.childByField .body).map SyntaxTree.Located.children).getD [] else [c]).filter
    (itemNamed imports name)

/-! ### Scopes -/

def patternAt (name : Name) (s : Step) : Bool := (s.node.childByField .pattern).any (patternBinds name)

/-- The guard of an arm. -/
def guardBinds (name : Name) (s : Step) : Bool :=
  ((s.node.childByField .pattern).bind fun p => p.childByField .condition).any (conditionBinds name)

/-- The local that a node binds for one of its children. -/
def localBinding (name : Name) (s : Step) (outer : List Step) : Option Binding :=
  match s.node.kind with
  | .block => ((before s outer).reverse.find? fun stmt => letBinds name stmt.node).map .declaration
  | .forExpression => if within s .body ∧ patternAt name s then some (.pattern (scope s outer)) else none
  | .matchArm =>
    if patternAt name s ∨ within s .value ∧ guardBinds name s then some (.pattern (scope s outer)) else none
  | .ifExpression | .whileExpression =>
    if guarded s ∧ (s.node.childByField .condition).any (conditionBinds name) then some (.pattern (scope s outer))
    else none
  | .letChain =>
    if (s.node.namedChildren.take s.index).any (conditionBinds name) then some (.pattern (scope s outer)) else none
  | .closureExpression | .functionItem =>
    if within s .body then
      ((parametersOf (scope s outer)).find? fun p => parameterBinds name p.node).map .parameter
    else none
  | _ => none

def hasGenerics (k : Kind) : Bool := k = .functionItem ∨ k = .implItem ∨ k = .traitItem

/-- The `const` parameter that a node binds. -/
def genericBinding (name : Name) (s : Step) (outer : List Step) : Option Binding :=
  if hasGenerics s.node.kind then
    (((scope s outer).childByField .typeParameters).bind fun ps =>
      ps.children.find? fun p => p.kind = .constParameter ∧ named name p.node).map .generic
  else none

/-- What a node binds. The locals are hidden behind the border of a function. -/
def bindings (name : Name) (locals : Bool) (s : Step) (outer : List Step) : List Binding :=
  match (if locals then localBinding name s outer else none) <|> genericBinding name s outer with
  | some b => [b]
  | none =>
    if s.node.kind = .block ∨ isModule s outer then (items imports name (scope s outer)).map .item else []

/-- The bodies of functions and of `impl`s see no locals from around them. -/
def border (s : Step) : Bool := s.node.kind = .functionItem ∨ s.node.kind = .declarationList

/-- What a name refers to. A module does not inherit names. -/
def resolve (name : Name) (locals : Bool) : List Step → List Binding
  | [] => []
  | s :: outer =>
    if bindings imports name locals s outer ≠ [] then bindings imports name locals s outer
    else if isModule s outer then []
    else resolve name (locals && !border s) outer

/-! ### Bindings that the walk sees -/

section

variable {τ : Type} (written : Located → τ)

/-- The items have one type. -/
def Agree (its : List Located) : Prop := ∀ i ∈ its, ∀ j ∈ its, itemType written i = itemType written j

/-- The statements of a block between the child and the last one that the walk takes to bind the name. -/
def passed (name : Name) (s : Step) (outer : List Step) : List Located :=
  (before s outer).reverse.takeWhile fun stmt => !binds name stmt.node

/-- What the walk comes to in a block: a `let`, or an item where no `let` before the child binds the name and the items
have one type, or nothing where there is no such item. -/
def TakenSeen (name : Name) (s : Step) (outer : List Step) : Option Located → Prop
  | some decl => decl.kind = .letDeclaration ∨
      (∀ stmt ∈ before s outer, ¬letBinds name stmt.node) ∧ Agree written (items imports name (scope s outer))
  | none => items imports name (scope s outer) = []

/-- No `let` that binds the name is passed. From inside a function, no item of the blocks around it is seen. -/
def BlockSeen (name : Name) (locals : Bool) (s : Step) (outer : List Step) : Prop :=
  if locals then
    (∀ stmt ∈ passed name s outer, ¬letBinds name stmt.node) ∧
      TakenSeen imports written name s outer (lastBinding s outer name)
  else items imports name (scope s outer) = []

instance [DecidableEq τ] (its : List Located) : Decidable (Agree written its) :=
  inferInstanceAs (Decidable (∀ i ∈ its, ∀ j ∈ its, itemType written i = itemType written j))

instance [DecidableEq τ] (name : Name) (s : Step) (outer : List Step) :
    ∀ taken, Decidable (TakenSeen imports written name s outer taken)
  | some _ => inferInstanceAs (Decidable (_ ∨ _))
  | none => inferInstanceAs (Decidable (_ = []))

instance [DecidableEq τ] (name : Name) (locals : Bool) (s : Step) (outer : List Step) :
    Decidable (BlockSeen imports written name locals s outer) :=
  inferInstanceAs (Decidable (ite _ _ _))

/-- A parameter is not seen from the signature. -/
def ParametersSeen (name : Name) (s : Step) (outer : List Step) : Prop :=
  if within s .body then
    ∀ p ∈ parametersOf (scope s outer), parameterBinds name p.node → mentions name (parameterPattern p.node)
  else ∀ p ∈ parametersOf (scope s outer), ¬mentions name (parameterPattern p.node)

instance (name : Name) (s : Step) (outer : List Step) : Decidable (ParametersSeen name s outer) :=
  inferInstanceAs (Decidable (ite _ _ _))

/-- The walk sees what a node of the kind binds. -/
def SeenAs (name : Name) (locals : Bool) (s : Step) (outer : List Step) : Kind → Prop
  | .block => BlockSeen imports written name locals s outer
  | .forExpression => locals → within s .body → patternAt name s → mentions name (s.node.childByField .pattern)
  | .matchArm =>
    locals → patternAt name s ∨ within s .value ∧ guardBinds name s → mentions name (s.node.childByField .pattern)
  | .ifExpression | .whileExpression =>
    locals → guarded s → (s.node.childByField .condition).any (conditionBinds name) →
      (s.node.childByField .condition).any (bindsInLetConditions name · 0)
  | .letChain => locals → ¬(s.node.namedChildren.take s.index).any (conditionBinds name)
  | .closureExpression => locals → ParametersSeen name s outer
  | .functionItem => (locals → ParametersSeen name s outer) ∧ genericBinding name s outer = none
  | .implItem | .traitItem => genericBinding name s outer = none
  | .sourceFile | .declarationList => isModule s outer → Agree written (items imports name (scope s outer))
  | _ => True

def Seen (name : Name) (locals : Bool) (s : Step) (outer : List Step) : Prop :=
  SeenAs imports written name locals s outer s.node.kind

instance [DecidableEq τ] (name : Name) (locals : Bool) (s : Step) (outer : List Step) :
    ∀ k, Decidable (SeenAs imports written name locals s outer k)
  | .block => inferInstanceAs (Decidable (BlockSeen ..))
  | .forExpression | .matchArm | .ifExpression | .whileExpression | .letChain | .closureExpression | .sourceFile
  | .declarationList => inferInstanceAs (Decidable (_ → _))
  | .functionItem => inferInstanceAs (Decidable (_ ∧ _))
  | .implItem | .traitItem => inferInstanceAs (Decidable (_ = none))
  | .modItem | .functionSignatureItem | .structItem | .fieldDeclarationList | .foreignModItem | .useDeclaration
  | .staticItem | .constItem | .letDeclaration | .letCondition | .matchPattern | .parameter | .constParameter
  | .identifier | .shorthandFieldIdentifier | .mutPattern | .tupleStructPattern | .structPattern | .genericPattern
  | .scopedIdentifier | .rangePattern | .macroInvocation | .constBlock | .other _ => isTrue trivial

instance [DecidableEq τ] (name : Name) (locals : Bool) (s : Step) (outer : List Step) :
    Decidable (Seen imports written name locals s outer) :=
  inferInstanceAs (Decidable (SeenAs ..))

/-- The walk past the locals takes the name to be bound by the node. -/
def ends (name : Name) (s : Step) (outer : List Step) : Bool :=
  match s.node.kind with
  | .block => (lastBinding s outer name).isSome
  | .forExpression => within s .body ∧ mentions name (s.node.childByField .pattern)
  | .matchArm => mentions name (s.node.childByField .pattern)
  | .ifExpression | .whileExpression =>
    guarded s ∧ (s.node.childByField .condition).any (bindsInLetConditions name · 0)
  | .closureExpression | .functionItem =>
    (parametersOf (scope s outer)).any fun p => mentions name (parameterPattern p.node)
  | _ => false

/-- The walk sees what binds the name, up to the scope that it resolves in or to the end of the walk. -/
def Clear (name : Name) (locals : Bool) : List Step → Prop
  | [] => True
  | s :: outer =>
    Seen imports written name locals s outer ∧
      (bindings imports name locals s outer = [] → ¬isModule s outer → ¬(locals && ends name s outer) →
        Clear name (locals && !border s) outer)

instance decidableClear [DecidableEq τ] (name : Name) : ∀ (locals : Bool) (path : List Step),
    Decidable (Clear imports written name locals path)
  | _, [] => isTrue trivial
  | locals, s :: outer =>
    have : Decidable (Clear imports written name (locals && !border s) outer) := decidableClear name _ outer
    inferInstanceAs (Decidable (_ ∧ _))

end

end

variable {τ : Type} {written : Located → τ} {valueType : Located → Option τ} {imports : Name → Located → Bool} {name : Name}
  {s : Step} {outer : List Step} {locals : Bool} {t : τ}

/-! ### What one node binds -/

theorem anyPatternBinds_of_mem {k : Kind} {c : Option Field × Node} (hfield : outside k c.1 = false)
    (hc : patternBinds name c.2 = true) :
    ∀ {cs : List (Option Field × Node)}, c ∈ cs → anyPatternBinds name k cs = true
  | c' :: cs, hmem => by
    rw [anyPatternBinds, Bool.or_eq_true, Bool.and_eq_true]
    rcases List.mem_cons.mp hmem with rfl | hmem
    · exact .inl ⟨by rw [hfield]; rfl, hc⟩
    · exact .inr (anyPatternBinds_of_mem hfield hc hmem)

theorem patternBinds_identifier {pat : Node} (hk : pat.kind = .identifier) (hs : pat.text = name) :
    patternBinds name pat = true := by
  cases pat with
  | node k s cs =>
    obtain rfl : k = .identifier := hk
    rw [patternBinds]
    exact decide_eq_true hs

/-- A plain binding is one. -/
theorem patternBinds_of_plainBinding {pat : Node} (h : plainBinding pat name = true) : patternBinds name pat = true := by
  unfold plainBinding at h
  split_ifs at h with hk
  · exact patternBinds_identifier hk (of_decide_eq_true h)
  · obtain ⟨hmut, hany⟩ := of_decide_eq_true h
    obtain ⟨c, hc, hident⟩ := List.any_eq_true.mp hany
    obtain ⟨hident, htext⟩ := of_decide_eq_true hident
    obtain ⟨⟨field, c⟩, hmem, rfl⟩ := List.mem_map.mp hc
    cases pat with
    | node k s cs =>
      obtain rfl : k = .mutPattern := hmut
      have hbinds : patternBinds name (node .mutPattern s cs) = anyPatternBinds name .mutPattern cs := by
        simp [patternBinds]
      rw [hbinds]
      exact anyPatternBinds_of_mem rfl (patternBinds_identifier hident htext) hmem

theorem letBinds_of_declared {decl : Located} (hlet : decl.kind = .letDeclaration)
    (h : declared written valueType decl name = some t) : letBinds name decl.node = true := by
  unfold declared at h
  split_ifs at h with hplain
  · have hany : (decl.node.childByField .pattern).any (plainBinding · name) = true := by
      by_contra hno
      exact hplain ⟨hlet, hno⟩
    obtain ⟨pat, hpat, hbinding⟩ := (Option.any_eq_true _ _).mp hany
    exact decide_eq_true ⟨hlet, (Option.any_eq_true _ _).mpr ⟨pat, hpat, patternBinds_of_plainBinding hbinding⟩⟩

theorem parameterBinds_of_annotated {p : Located} (h : annotated written p name = some t) :
    parameterBinds name p.node = true := by
  unfold annotated at h
  split_ifs at h with hany
  obtain ⟨pat, hpat, hbinding⟩ := (Option.any_eq_true _ _).mp hany
  exact (Option.any_eq_true _ _).mpr ⟨pat, hpat, patternBinds_of_plainBinding hbinding⟩

theorem itemType_static {item : Located} (h : staticNamed name item.node = true) :
    itemType written item = (item.childByField .type).map written :=
  if_pos (show item.kind = .staticItem ∨ item.kind = .constItem from (of_decide_eq_true h).1)

/-- What a `static` or `const` is declared with is its type. -/
theorem declared_static {decl : Located} (h : staticNamed name decl.node = true) :
    declared written valueType decl name = itemType written decl := by
  obtain ⟨hkind, -⟩ := of_decide_eq_true h
  have hlet : ¬decl.kind = .letDeclaration := by
    intro hlet
    rcases hkind with hkind | hkind <;> exact absurd (hlet.symm.trans hkind) (by decide)
  rw [declared, if_neg fun hc => hlet hc.1, itemType_static h]
  cases decl.childByField .type with
  | none => exact if_neg hlet
  | some ty => rfl

/-! ### What a name resolves to -/

/-- The bindings have the one type. -/
def Typed (written : Located → τ) (valueType : Located → Option τ) (name : Name) (bs : List Binding) (t : τ) : Prop :=
  bs ≠ [] ∧ ∀ b ∈ bs, b.type written valueType name = some t

instance [DecidableEq τ] (bs : List Binding) : Decidable (Typed written valueType name bs t) :=
  inferInstanceAs (Decidable (_ ∧ _))

theorem typed_singleton {b : Binding} (h : b.type written valueType name = some t) :
    Typed written valueType name [b] t :=
  ⟨List.cons_ne_nil _ _, fun b' hb' => by rwa [List.mem_singleton.mp hb']⟩

theorem resolve_of_typed (h : Typed written valueType name (bindings imports name locals s outer) t) :
    Typed written valueType name (resolve imports name locals (s :: outer)) t := by
  rw [resolve, if_pos h.1]
  exact h

theorem resolve_outwards (hnone : bindings imports name locals s outer = []) (hmodule : ¬isModule s outer) :
    resolve imports name locals (s :: outer) = resolve imports name (locals && !border s) outer := by
  rw [resolve, if_neg fun hne => hne hnone, if_neg hmodule]

theorem bindings_of_local {b : Binding} (h : localBinding name s outer = some b) :
    bindings imports name true s outer = [b] := by
  unfold bindings
  rw [if_pos rfl, h]
  rfl

/-- Where no local and no parameter is bound, the items are. -/
theorem bindings_of_items (hlocal : locals = true → localBinding name s outer = none)
    (hgeneric : genericBinding name s outer = none) :
    bindings imports name locals s outer =
      if s.node.kind = .block ∨ isModule s outer then (items imports name (scope s outer)).map .item else [] := by
  unfold bindings
  cases locals with
  | false =>
    rw [if_neg Bool.false_ne_true, hgeneric]
    rfl
  | true =>
    rw [if_pos rfl, hlocal rfl, hgeneric]
    rfl

theorem genericBinding_eq_none (h : hasGenerics s.node.kind = false) : genericBinding name s outer = none := by
  rw [genericBinding, if_neg (by rw [h]; exact Bool.false_ne_true)]

theorem mem_items_of_static {item : Located} (hmem : item ∈ (scope s outer).children)
    (h : staticNamed name item.node = true) : item ∈ items imports name (scope s outer) := by
  obtain ⟨hkind, hname⟩ := of_decide_eq_true h
  refine List.mem_filter.mpr ⟨List.mem_flatMap.mpr ⟨item, hmem, ?_⟩, ?_⟩
  · have hforeign : ¬item.kind = .foreignModItem := by
      intro hforeign
      rcases hkind with hkind | hkind <;> exact absurd (hforeign.symm.trans hkind) (by decide)
    rw [if_neg hforeign]
    exact List.mem_singleton_self _
  · unfold itemNamed
    rcases hkind with hkind | hkind <;>
    · rw [show item.kind = _ from hkind]
      exact hname

/-- Items of one type have the type of each. -/
theorem typed_items {item : Located} (hagree : Agree written (items imports name (scope s outer)))
    (hmem : item ∈ items imports name (scope s outer)) (ht : itemType written item = some t) :
    Typed written valueType name ((items imports name (scope s outer)).map .item) t := by
  refine ⟨List.ne_nil_of_mem (List.mem_map_of_mem hmem), ?_⟩
  rintro b hb
  obtain ⟨i, hi, rfl⟩ := List.mem_map.mp hb
  exact (hagree i hi item hmem).trans ht

theorem kind_of_isModule (h : isModule s outer) : s.node.kind = .sourceFile ∨ s.node.kind = .declarationList := by
  rcases h with h | h
  · exact .inl h
  · exact .inr h.1

/-! ### The items of modules -/

theorem localBinding_of_module (h : s.node.kind = .sourceFile ∨ s.node.kind = .declarationList) :
    localBinding name s outer = none := by
  unfold localBinding
  rcases h with h | h <;> rw [h]

theorem bindings_of_module (h : isModule s outer) :
    bindings imports name locals s outer = (items imports name (scope s outer)).map .item := by
  have hkind := kind_of_isModule h
  have hgeneric : hasGenerics s.node.kind = false := by
    rcases hkind with hkind | hkind <;> rw [hkind] <;> rfl
  rw [bindings_of_items (fun _ => localBinding_of_module hkind) (genericBinding_eq_none hgeneric), if_pos (.inr h)]

/-- The walk over the modules passes a node that is none, where nothing but items can be seen. -/
theorem bindings_nil_of_seen (hseen : Seen imports written name false s outer) (hmodule : ¬isModule s outer) :
    bindings imports name false s outer = [] := by
  have hgeneric : genericBinding name s outer = none := by
    by_cases hk : hasGenerics s.node.kind = true
    · unfold Seen at hseen
      rcases of_decide_eq_true hk with hk | hk | hk <;> rw [hk] at hseen
      · exact hseen.2
      · exact hseen
      · exact hseen
    · exact genericBinding_eq_none (Bool.eq_false_iff.mpr hk)
  rw [bindings_of_items (fun h => absurd h Bool.false_ne_true) hgeneric]
  by_cases hblock : s.node.kind = .block
  · unfold Seen at hseen
    rw [hblock] at hseen
    have hitems : items imports name (scope s outer) = [] := hseen
    rw [if_pos (.inl hblock), hitems]
    rfl
  · rw [if_neg (not_or.mpr ⟨hblock, hmodule⟩)]

theorem typed_of_module (hmodule : isModule s outer) (hseen : Seen imports written name locals s outer)
    (h : moduleItemType written name (s :: outer) = some t) :
    Typed written valueType name (resolve imports name locals (s :: outer)) t := by
  rw [moduleItemType, if_pos hmodule] at h
  obtain ⟨item, hfind, htype⟩ := Option.bind_eq_some_iff.mp h
  have hstatic : staticNamed name item.node = true := by simpa using List.find?_some hfind
  have hagree : Agree written (items imports name (scope s outer)) := by
    unfold Seen at hseen
    rcases kind_of_isModule hmodule with hk | hk <;> rw [hk] at hseen <;> exact hseen hmodule
  apply resolve_of_typed
  rw [bindings_of_module hmodule]
  refine typed_items hagree (mem_items_of_static (List.mem_of_find?_eq_some hfind) hstatic) ?_
  rw [itemType_static hstatic]
  exact htype

theorem typed_of_moduleItemType : ∀ {path : List Step}, Clear imports written name false path →
    moduleItemType written name path = some t → Typed written valueType name (resolve imports name false path) t
  | [], _, h => nomatch h
  | s :: outer, ⟨hseen, hrest⟩, h => by
    by_cases hmodule : isModule s outer
    · exact typed_of_module hmodule hseen h
    · have hnone := bindings_nil_of_seen hseen hmodule
      rw [moduleItemType, if_neg hmodule] at h
      rw [resolve_outwards hnone hmodule]
      exact typed_of_moduleItemType (hrest hnone hmodule Bool.false_ne_true) h

/-! ### The walk past the locals -/

/-- An element that a search for more finds is found by the narrower search as well. -/
theorem find?_of_imp {α : Type} {p q : α → Bool} {a : α} : ∀ {l : List α}, (∀ x ∈ l, q x = true → p x = true) →
    l.find? p = some a → q a = true → l.find? q = some a
  | x :: l, himp, hfind, hq => by
    cases hp : p x with
    | true =>
      rw [List.find?_cons_of_pos hp] at hfind
      obtain rfl := Option.some.inj hfind
      exact List.find?_cons_of_pos hq
    | false =>
      rw [List.find?_cons_of_neg (by rw [hp]; exact Bool.false_ne_true)] at hfind
      have hnot : ¬q x = true := fun hq' => absurd ((himp x List.mem_cons_self hq').symm.trans hp) (by decide)
      rw [List.find?_cons_of_neg hnot]
      exact find?_of_imp (fun y hy => himp y (List.mem_cons_of_mem _ hy)) hfind hq

/-- An element that two searches would take, and before it nothing but what both of them pass. -/
theorem find?_of_passed {α : Type} {p q : α → Bool} {a : α} {l : List α}
    (hpassed : ∀ x ∈ l.takeWhile fun x => !p x, ¬q x = true) (hfind : l.find? p = some a) (hq : q a = true) :
    l.find? q = some a := by
  obtain ⟨hp, front, back, rfl, hfront⟩ := List.find?_eq_some_iff_append.mp hfind
  have htaken : (front ++ a :: back).takeWhile (fun x => !p x) = front := by
    rw [List.takeWhile_append_of_pos hfront, List.takeWhile_cons_of_neg (by rw [hp]; exact Bool.false_ne_true),
      List.append_nil]
  rw [htaken] at hpassed
  rw [List.find?_append, List.find?_eq_none.mpr hpassed, List.find?_cons_of_pos hq]
  rfl

theorem find?_eq_none_of_imp {α : Type} {p q : α → Bool} {l : List α} (himp : ∀ x ∈ l, q x = true → p x = true)
    (hfind : l.find? p = none) : l.find? q = none := by
  rw [List.find?_eq_none] at hfind ⊢
  exact fun x hx hq => hfind x hx (himp x hx hq)

theorem genericBinding_block (hblock : s.node.kind = .block) : genericBinding name s outer = none :=
  genericBinding_eq_none (by rw [hblock]; rfl)

theorem localBinding_block (hblock : s.node.kind = .block) : localBinding name s outer =
    ((before s outer).reverse.find? fun stmt => letBinds name stmt.node).map .declaration := by
  unfold localBinding
  rw [hblock]

/-- The last statement that binds the name: a `let` that the name refers to, or an item of the block. -/
theorem typed_of_declared (hblock : s.node.kind = .block) (hseen : BlockSeen imports written name true s outer)
    {decl : Located} (hlast : lastBinding s outer name = some decl)
    (h : declared written valueType decl name = some t) :
    Typed written valueType name (bindings imports name true s outer) t := by
  obtain ⟨hpassed, htaken⟩ : (∀ stmt ∈ passed name s outer, ¬letBinds name stmt.node) ∧
    TakenSeen imports written name s outer (lastBinding s outer name) := hseen
  rw [hlast] at htaken
  by_cases hlet : decl.node.kind = .letDeclaration
  · -- the `let` binds the name, and none behind it does
    have hfind := find?_of_passed (q := fun stmt : Located => letBinds name stmt.node) hpassed hlast
      (letBinds_of_declared hlet h)
    have hlocal : localBinding name s outer = some (.declaration decl) := by
      rw [localBinding_block hblock, hfind]
      rfl
    rw [bindings_of_local hlocal]
    exact typed_singleton h
  · obtain ⟨hlets, hagree⟩ := htaken.resolve_left hlet
    have hstatic : staticNamed name decl.node = true := by
      have hbinds : binds name decl.node = true := by simpa using List.find?_some hlast
      rwa [binds, if_neg hlet] at hbinds
    have hmem : decl ∈ (before s outer).reverse := List.mem_of_find?_eq_some hlast
    have hchild : decl ∈ (scope s outer).children := List.mem_of_mem_take (List.mem_reverse.mp hmem)
    have hlocal : localBinding name s outer = none := by
      rw [localBinding_block hblock, List.find?_eq_none.mpr fun stmt hstmt => hlets stmt (List.mem_reverse.mp hstmt)]
      rfl
    rw [bindings_of_items (fun _ => hlocal) (genericBinding_block hblock), if_pos (.inl hblock)]
    refine typed_items hagree (mem_items_of_static hchild hstatic) ?_
    have htype : declared written valueType decl name = itemType written decl := declared_static hstatic
    rw [← htype]
    exact h

/-- A block whose statements before the child bind nothing has no item of the name either. -/
theorem bindings_nil_of_block (hblock : s.node.kind = .block) (hseen : BlockSeen imports written name true s outer)
    (hlast : lastBinding s outer name = none) : bindings imports name true s outer = [] := by
  obtain ⟨hpassed, hitems⟩ : (∀ stmt ∈ passed name s outer, ¬letBinds name stmt.node) ∧
    TakenSeen imports written name s outer (lastBinding s outer name) := hseen
  rw [hlast] at hitems
  have hall : passed name s outer = (before s outer).reverse := by
    refine List.takeWhile_eq_self_iff.mpr fun stmt hstmt => ?_
    rw [Bool.not_eq_true', Bool.eq_false_iff]
    exact List.find?_eq_none.mp hlast stmt hstmt
  rw [hall] at hpassed
  have hlocal : localBinding name s outer = none := by
    rw [localBinding_block hblock, List.find?_eq_none.mpr hpassed]
    rfl
  rw [bindings_of_items (fun _ => hlocal) (genericBinding_block hblock), if_pos (.inl hblock)]
  exact congrArg (List.map Binding.item) hitems

theorem localBinding_parameters (hkind : s.node.kind = .closureExpression ∨ s.node.kind = .functionItem) :
    localBinding name s outer =
      if within s .body then ((parametersOf (scope s outer)).find? fun p => parameterBinds name p.node).map .parameter
      else none := by
  unfold localBinding
  rcases hkind with hkind | hkind <;> rw [hkind]

theorem typed_of_annotated (hkind : s.node.kind = .closureExpression ∨ s.node.kind = .functionItem)
    (hseen : ParametersSeen name s outer) {p : Located}
    (hfind : (parametersOf (scope s outer)).find? (fun p => mentions name (parameterPattern p.node)) = some p)
    (h : annotated written p name = some t) : Typed written valueType name (bindings imports name true s outer) t := by
  unfold ParametersSeen at hseen
  split_ifs at hseen with hbody
  · have hfirst := find?_of_imp (q := fun p : Located => parameterBinds name p.node) hseen hfind
      (parameterBinds_of_annotated h)
    have hlocal : localBinding name s outer = some (.parameter p) := by
      rw [localBinding_parameters hkind, if_pos hbody, hfirst]
      rfl
    rw [bindings_of_local hlocal]
    exact typed_singleton h
  · exact absurd (List.find?_some hfind) (hseen p (List.mem_of_find?_eq_some hfind))

theorem localBinding_nil_of_parameters (hkind : s.node.kind = .closureExpression ∨ s.node.kind = .functionItem)
    (hseen : ParametersSeen name s outer)
    (hfind : (parametersOf (scope s outer)).find? (fun p => mentions name (parameterPattern p.node)) = none) :
    localBinding name s outer = none := by
  rw [localBinding_parameters hkind]
  unfold ParametersSeen at hseen
  split_ifs at hseen ⊢ with hbody
  · rw [find?_eq_none_of_imp (q := fun p : Located => parameterBinds name p.node) hseen hfind]
    rfl
  · rfl

theorem not_isModule (hfile : s.node.kind ≠ .sourceFile) (hlist : s.node.kind ≠ .declarationList) : ¬isModule s outer :=
  fun h => (kind_of_isModule h).elim hfile hlist

theorem bindings_nil (hblock : s.node.kind ≠ .block) (hmodule : ¬isModule s outer)
    (hlocal : localBinding name s outer = none) (hgeneric : genericBinding name s outer = none) :
    bindings imports name true s outer = [] := by
  rw [bindings_of_items (fun _ => hlocal) hgeneric, if_neg (not_or.mpr ⟨hblock, hmodule⟩)]

theorem localBinding_for (hk : s.node.kind = .forExpression) (hseen : Seen imports written name true s outer)
    (h : ¬(within s .body ∧ mentions name (s.node.childByField .pattern))) : localBinding name s outer = none := by
  rw [Seen, hk] at hseen
  rw [localBinding, hk]
  exact if_neg fun hbound => h ⟨hbound.1, hseen rfl hbound.1 hbound.2⟩

theorem localBinding_arm (hk : s.node.kind = .matchArm) (hseen : Seen imports written name true s outer)
    (h : ¬mentions name (s.node.childByField .pattern)) : localBinding name s outer = none := by
  rw [Seen, hk] at hseen
  rw [localBinding, hk]
  exact if_neg fun hbound => h (hseen rfl hbound)

theorem localBinding_guarded (hk : s.node.kind = .ifExpression ∨ s.node.kind = .whileExpression)
    (hseen : Seen imports written name true s outer)
    (h : ¬(guarded s ∧ (s.node.childByField .condition).any (bindsInLetConditions name · 0))) :
    localBinding name s outer = none := by
  rcases hk with hk | hk
  all_goals
    rw [Seen, hk] at hseen
    rw [localBinding, hk]
    exact if_neg fun hbound => h ⟨hbound.1, hseen rfl hbound.1 hbound.2⟩

/-- Nodes that the walk passes without a look bind nothing that is not seen. -/
theorem localBinding_other (hseen : Seen imports written name true s outer) (hblock : s.node.kind ≠ .block)
    (hfor : s.node.kind ≠ .forExpression) (harm : s.node.kind ≠ .matchArm) (hif : s.node.kind ≠ .ifExpression)
    (hwhile : s.node.kind ≠ .whileExpression) (hclosure : s.node.kind ≠ .closureExpression)
    (hfunction : s.node.kind ≠ .functionItem) : localBinding name s outer = none := by
  unfold localBinding
  split
  · next hk => exact absurd hk hblock
  · next hk => exact absurd hk hfor
  · next hk => exact absurd hk harm
  · next hk => exact absurd hk hif
  · next hk => exact absurd hk hwhile
  · next hk =>
    rw [Seen, hk] at hseen
    exact if_neg (hseen rfl)
  · next hk => exact absurd hk hclosure
  · next hk => exact absurd hk hfunction
  · rfl

theorem ends_parameters (hkind : s.node.kind = .closureExpression ∨ s.node.kind = .functionItem)
    (hfind : (parametersOf (scope s outer)).find? (fun p => mentions name (parameterPattern p.node)) = none) :
    ends name s outer = false := by
  have hnone := List.any_eq_false.mpr (List.find?_eq_none.mp hfind)
  unfold ends
  rcases hkind with hkind | hkind <;> rw [hkind] <;> exact hnone

theorem ends_other (hblock : s.node.kind ≠ .block) (hfor : s.node.kind ≠ .forExpression) (harm : s.node.kind ≠ .matchArm)
    (hif : s.node.kind ≠ .ifExpression) (hwhile : s.node.kind ≠ .whileExpression)
    (hclosure : s.node.kind ≠ .closureExpression) (hfunction : s.node.kind ≠ .functionItem) :
    ends name s outer = false := by
  unfold ends
  split
  · next hk => exact absurd hk hblock
  · next hk => exact absurd hk hfor
  · next hk => exact absurd hk harm
  · next hk => exact absurd hk hif
  · next hk => exact absurd hk hwhile
  · next hk => exact absurd hk hclosure
  · next hk => exact absurd hk hfunction
  · rfl

theorem genericBinding_other (hseen : Seen imports written name locals s outer) (hfunction : s.node.kind ≠ .functionItem) :
    genericBinding name s outer = none := by
  by_cases hk : hasGenerics s.node.kind = true
  · unfold Seen at hseen
    rcases of_decide_eq_true hk with hk | hk | hk
    · exact absurd hk hfunction
    · rwa [hk] at hseen
    · rwa [hk] at hseen
  · exact genericBinding_eq_none (Bool.eq_false_iff.mpr hk)

theorem typed_of_bindingType : ∀ {path : List Step}, Clear imports written name true path →
    bindingType written valueType name path = some t → Typed written valueType name (resolve imports name true path) t
  | [], _, h => nomatch h
  | s :: outer, ⟨hseen, hrest⟩, h => by
    have hclear (hends : ends name s outer = false) (hnone : bindings imports name true s outer = [])
        (hmodule : ¬isModule s outer) : Clear imports written name (!border s) outer :=
      hrest hnone hmodule (by rw [hends]; exact Bool.false_ne_true)
    have houtwards (hborder : border s = false) (hends : ends name s outer = false)
        (hnone : bindings imports name true s outer = []) (hmodule : ¬isModule s outer)
        (h : bindingType written valueType name outer = some t) :
        Typed written valueType name (resolve imports name true (s :: outer)) t := by
      have hclear := hclear hends hnone hmodule
      rw [resolve_outwards hnone hmodule]
      rw [hborder] at hclear ⊢
      exact typed_of_bindingType hclear h
    -- a node of another kind than a block, a module and a function, whose local the walk would have seen
    have hpass (hborder : border s = false) (hblock : s.node.kind ≠ .block) (hfile : s.node.kind ≠ .sourceFile)
        (hends : ends name s outer = false) (hlocal : localBinding name s outer = none)
        (h : bindingType written valueType name outer = some t) :
        Typed written valueType name (resolve imports name true (s :: outer)) t := by
      have hplain := not_or.mp (of_decide_eq_false hborder)
      have hmodule : ¬isModule s outer := not_isModule hfile hplain.2
      exact houtwards hborder hends (bindings_nil hblock hmodule hlocal (genericBinding_other hseen hplain.1)) hmodule h
    rw [bindingType] at h
    split at h
    · next hk =>
      have hblockSeen : BlockSeen imports written name true s outer := by
        unfold Seen at hseen
        rwa [hk] at hseen
      cases hlast : lastBinding s outer name with
      | some decl =>
        rw [hlast] at h
        exact resolve_of_typed (typed_of_declared hk hblockSeen hlast h)
      | none =>
        rw [hlast] at h
        have hmodule : ¬isModule s outer := not_isModule (by rw [hk]; decide) (by rw [hk]; decide)
        have hends : ends name s outer = false := by rw [ends, hk, hlast]; rfl
        exact houtwards (by rw [border, hk]; rfl) hends (bindings_nil_of_block hk hblockSeen hlast) hmodule h
    · next hk =>
      split_ifs at h with hbody
      have hends : ends name s outer = false := by rw [ends, hk]; exact decide_eq_false hbody
      exact hpass (by rw [border, hk]; rfl) (by rw [hk]; decide) (by rw [hk]; decide) hends
        (localBinding_for hk hseen hbody) h
    · next hk =>
      split_ifs at h with hmentions
      have hends : ends name s outer = false := by rw [ends, hk]; exact Bool.eq_false_iff.mpr hmentions
      exact hpass (by rw [border, hk]; rfl) (by rw [hk]; decide) (by rw [hk]; decide) hends
        (localBinding_arm hk hseen hmentions) h
    · next hk =>
      split_ifs at h with hguarded
      have hends : ends name s outer = false := by rw [ends, hk]; exact decide_eq_false hguarded
      exact hpass (by rw [border, hk]; rfl) (by rw [hk]; decide) (by rw [hk]; decide) hends
        (localBinding_guarded (.inl hk) hseen hguarded) h
    · next hk =>
      split_ifs at h with hguarded
      have hends : ends name s outer = false := by rw [ends, hk]; exact decide_eq_false hguarded
      exact hpass (by rw [border, hk]; rfl) (by rw [hk]; decide) (by rw [hk]; decide) hends
        (localBinding_guarded (.inr hk) hseen hguarded) h
    · next hk =>
      have hparameters : ParametersSeen name s outer := by
        unfold Seen at hseen
        rw [hk] at hseen
        exact hseen rfl
      split at h
      · next p hfind => exact resolve_of_typed (typed_of_annotated (.inl hk) hparameters hfind h)
      · next hfind =>
        exact hpass (by rw [border, hk]; rfl) (by rw [hk]; decide) (by rw [hk]; decide) (ends_parameters (.inl hk) hfind)
          (localBinding_nil_of_parameters (.inl hk) hparameters hfind) h
    · next hk =>
      obtain ⟨hparameters, hgeneric⟩ : ParametersSeen name s outer ∧ genericBinding name s outer = none := by
        unfold Seen at hseen
        rw [hk] at hseen
        exact ⟨hseen.1 rfl, hseen.2⟩
      split at h
      · next p hfind => exact resolve_of_typed (typed_of_annotated (.inr hk) hparameters hfind h)
      · next hfind =>
        -- the items around the function, not its locals
        have hmodule : ¬isModule s outer := not_isModule (by rw [hk]; decide) (by rw [hk]; decide)
        have hnone : bindings imports name true s outer = [] := bindings_nil (by rw [hk]; decide) hmodule
          (localBinding_nil_of_parameters (.inr hk) hparameters hfind) hgeneric
        have hclear := hclear (ends_parameters (.inr hk) hfind) hnone hmodule
        rw [moduleItemType, if_neg hmodule] at h
        rw [resolve_outwards hnone hmodule]
        rw [show border s = true by rw [border, hk]; rfl] at hclear ⊢
        exact typed_of_moduleItemType hclear h
    · next hk => exact typed_of_module (.inl hk) hseen h
    · next hk =>
      by_cases hmodule : isModule s outer
      · exact typed_of_module hmodule hseen h
      · -- the body of an `impl` or a `trait`
        have hlocal : localBinding name s outer = none := localBinding_of_module (.inr hk)
        have hgeneric : genericBinding name s outer = none := genericBinding_eq_none (by rw [hk]; rfl)
        have hnone : bindings imports name true s outer = [] :=
          bindings_nil (by rw [hk]; decide) hmodule hlocal hgeneric
        have hclear := hclear (by rw [ends, hk]) hnone hmodule
        rw [moduleItemType, if_neg hmodule] at h
        rw [resolve_outwards hnone hmodule]
        rw [show border s = true by rw [border, hk]; rfl] at hclear ⊢
        exact typed_of_moduleItemType hclear h
    · next hblock hfor harm hif hwhile hclosure hfunction hfile hlist =>
      exact hpass (decide_eq_false (not_or.mpr ⟨hfunction, hlist⟩)) hblock hfile
        (ends_other hblock hfor harm hif hwhile hclosure hfunction)
        (localBinding_other hseen hblock hfor harm hif hwhile hclosure hfunction) h

/-! ### The type of a receiver -/

def ClearAt (imports : Name → Located → Bool) (written : Located → τ) (file : Node) (place : List ℕ) : Prop :=
  match SyntaxTree.Located.descend ⟨[], file⟩ place with
  | some x => Clear imports written x.text true x.above
  | none => True

instance [DecidableEq τ] (file : Node) (place : List ℕ) : Decidable (ClearAt imports written file place) :=
  match h : SyntaxTree.Located.descend ⟨[], file⟩ place with
  | some x => decidable_of_iff (Clear imports written x.text true x.above) (by rw [ClearAt, h])
  | none => isTrue (by rw [ClearAt, h]; trivial)

/-- What the name at a place refers to. -/
def resolveAt (imports : Name → Located → Bool) (file : Node) (place : List ℕ) : List Binding :=
  match SyntaxTree.Located.descend ⟨[], file⟩ place with
  | some x => resolve imports x.text true x.above
  | none => []

def nameAt (file : Node) (place : List ℕ) : Name := ((SyntaxTree.Located.descend ⟨[], file⟩ place).map (·.text)).getD []

theorem identifierType_resolved (file : Node) (place : List ℕ) (hclear : ClearAt imports written file place) :
    ∀ t, identifierType written valueType file place = some t →
      Typed written valueType (nameAt file place) (resolveAt imports file place) t := by
  intro t ht
  unfold identifierType at ht
  unfold ClearAt at hclear
  unfold nameAt resolveAt
  split at ht
  · next x hx =>
    rw [hx] at hclear ⊢
    split_ifs at ht
    exact typed_of_bindingType hclear ht
  · nomatch ht

def ident (x : Name) : Node := .node .identifier x []

def typeIdent (x : Name) : Node := .node (.other "type_identifier".toList) x []

def typedParameter (x ty : Name) : Option Field × Node :=
  (none, .node .parameter [] [(some .pattern, ident x), (some .type, typeIdent ty)])

/-- `x.m()`, where the place of `x` is `[0, 0]`. -/
def methodCall (x m : Name) : Node := .node (.other "call_expression".toList) []
  [(none, .node (.other "field_expression".toList) []
    [(some .value, ident x), (none, .node (.other "field_identifier".toList) m [])])]

/-- A file of one function. -/
def fileOf (parameters : List (Option Field × Node)) (body : List Node) : Node := .node .sourceFile []
  [(none, .node .functionItem [] [(some .name, ident "f".toList),
    (some .parameters, .node (.other "parameters".toList) [] parameters),
    (some .body, .node .block [] (body.map fun stmt => (none, stmt)))])]

/-- `let P { c } = p;` -/
def fieldLet : Node := .node .letDeclaration []
  [(some .pattern, .node .structPattern [] [(some .type, typeIdent "P".toList),
    (none, .node (.other "field_pattern".toList) [] [(some .name, .node .shorthandFieldIdentifier "c".toList [])])]),
    (some .value, ident "p".toList)]

/-- `fn f(c: A, p: P) { let P { c } = p; let c: B = c.n(); c.m() }` -/
theorem identifierType_resolved_shadowed :
    Typed SyntaxTree.Located.text (fun _ => none) "c".toList (resolveAt (fun _ _ => false)
      (fileOf [typedParameter "c".toList "A".toList, typedParameter "p".toList "P".toList]
        [fieldLet, .node .letDeclaration [] [(some .pattern, ident "c".toList), (some .type, typeIdent "B".toList),
          (some .value, methodCall "c".toList "n".toList)], methodCall "c".toList "m".toList]) [0, 2, 2, 0, 0])
      "B".toList :=
  identifierType_resolved _ [0, 2, 2, 0, 0] (by decide) _ (by decide)

/-- `fn f(c: A, p: P) { let P { c } = p; c.m() }`: the name is the field's, which the pattern binds by its shorthand. -/
theorem not_identifierType_resolved :
    ¬∀ (file : Node) (place : List ℕ) (t : List Char),
      identifierType SyntaxTree.Located.text (fun _ => none) file place = some t →
        Typed SyntaxTree.Located.text (fun _ => none) (nameAt file place) (resolveAt (fun _ _ => false) file place) t := by
  intro hall
  have h := hall
    (fileOf [typedParameter "c".toList "A".toList, typedParameter "p".toList "P".toList]
      [fieldLet, methodCall "c".toList "m".toList])
    [0, 2, 1, 0, 0] "A".toList (by decide)
  exact absurd h (by decide)

end CodeGraph.Parser.RustReceiver
