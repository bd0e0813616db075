import CodeGraph.Parser.JsExportEntries
import Mathlib.Data.Option.Basic

/-!
# The CommonJS entries against Node

A program of top-level CommonJS statements is run over a heap: `module.exports` and `exports` each hold an object, the
same one at first. A whole assignment makes an object, or takes the one that a required module is; what a name holds
remembers which whole assignment it comes from. An object keeps its writes, the newest first, back to the last spread.

The reader's two lists mirror the heap (`Mirrors`): each represents what was written through the assignment its name
holds, but for method shorthands, which the reader passes over. So the entries are the right ones exactly when no write
that is passed over decides a property (`jsExportEntries_follows_iff`).
-/

namespace CodeGraph.Parser.JsExports

open CodeGraph.Lib

/-! ### The language -/

/-- A string literal without escapes, with no quote next to its own. -/
structure Literal where
  quote : Char
  content : Text
  quoted : quote = '\x22' ∨ quote = '\x27'
  starts : ∀ c ∈ content.head?, isQuote c = false
  ends : ∀ c ∈ content.getLast?, isQuote c = false
  plain : '\\' ∉ content

def Literal.text (l : Literal) : Text := l.quote :: (l.content ++ [l.quote])

def Literal.node (l : Literal) : Node := .node .string l.text []

/-- A module specifier. -/
structure Spec extends Literal where
  nonempty : content ≠ []

/-- `require('spec')`. -/
def Spec.requireNode (s : Spec) : Node :=
  .node .callExpression (requireName ++ '(' :: (s.text ++ [')']))
    [(some .function, .node .identifier requireName []),
      (some .arguments, .node .arguments ('(' :: (s.text ++ [')'])) [(none, s.node)])]

def CallsRequire (n : Node) : Prop :=
  n.kind = .callExpression ∧
    ∃ f, n.childByField .function = some f ∧ f.kind = .identifier ∧ f.text = requireName

/-- The value is no binding, no `require(..)` and no member of a `require(..)`. -/
structure Own (n : Node) : Prop where
  unnamed : n.kind ≠ .identifier ∧ n.kind ≠ .shorthandPropertyIdentifier
  unrequired : ¬CallsRequire n
  noMember : n.kind = .memberExpression → ∀ object, n.childByField .object = some object → ¬CallsRequire object

inductive Value
  | binding (name : Text)
  | required (spec : Spec)
  | requiredMember (spec : Spec) (property : Text)
  | own (value : Node) (h : Own value)

def Value.node : Value → Node
  | .binding name => .node .identifier name []
  | .required spec => spec.requireNode
  | .requiredMember spec property =>
    .node .memberExpression (spec.requireNode.text ++ '.' :: property)
      [(some .object, spec.requireNode), (some .property, .node .propertyIdentifier property [])]
  | .own value _ => value

/-- What the value forwards of another module. -/
def Value.forwards (imported : Bindings) : Value → Option Imported
  | .binding name => imported name
  | .required spec => some ⟨spec.content, none⟩
  | .requiredMember spec property => some ⟨spec.content, some property⟩
  | .own _ _ => none

/-- The key of a property. -/
inductive Key
  | identifier (name : Text)
  | literal (l : Literal)

def Key.node : Key → Node
  | .identifier name => .node .propertyIdentifier name []
  | .literal l => l.node

def Key.name : Key → Text
  | .identifier name => name
  | .literal l => l.content

section Language

variable (imported : Bindings)

/-- The namespace of a module, required in place or bound to a name. -/
inductive Namespace
  | required (spec : Spec)
  | binding (name spec : Text) (named : name ≠ exportsName ∧ name ≠ moduleExportsName)
      (bound : imported name = some ⟨spec, none⟩)

inductive Property
  | shorthand (name : Text)
  | pair (key : Key) (value : Value)
  | method (key : Key) (text : Text) (rest : List (Option Field × Node))
  | spread (module : Namespace imported)

inductive Target
  | exports
  | moduleExports
  deriving DecidableEq

/-- What a chain of assignments ends in. -/
inductive Whole
  | target (t : Target)
  | module (m : Namespace imported)
  | object (properties : List (Property imported))

inductive Statement
  | assign (first : Target) (rest : List Target) (value : Whole imported)
  | write (target : Target) (property : Text) (value : Value)

/-- A top-level statement; a declaration writes no export. -/
inductive Item
  | declaration (d : Node) (h : d.kind ≠ .exportStatement ∧ d.kind ≠ .expressionStatement)
  | statement (s : Statement imported)

end Language

variable {imported : Bindings}

def Namespace.spec : Namespace imported → Text
  | .required s => s.content
  | .binding _ spec _ _ => spec

def Namespace.node : Namespace imported → Node
  | .required s => s.requireNode
  | .binding name _ _ _ => .node .identifier name []

def Property.node : Property imported → Node
  | .shorthand name => .node .shorthandPropertyIdentifier name []
  | .pair key value =>
    .node .pair (key.node.text ++ ':' :: ' ' :: value.node.text) [(some .key, key.node), (some .value, value.node)]
  | .method key text rest => .node .methodDefinition text ((some .name, key.node) :: rest)
  | .spread m => .node .spreadElement ('.' :: '.' :: '.' :: m.node.text) [(none, m.node)]

def Target.text : Target → Text
  | .exports => exportsName
  | .moduleExports => moduleExportsName

def Target.node : Target → Node
  | .exports => .node .identifier exportsName []
  | .moduleExports =>
    .node .memberExpression moduleExportsName
      [(some .object, .node .identifier ['m', 'o', 'd', 'u', 'l', 'e'] []),
        (some .property, .node .propertyIdentifier exportsName [])]

def Whole.node : Whole imported → Node
  | .target t => t.node
  | .module m => m.node
  | .object properties =>
    .node .object ('\x7b' :: ((properties.flatMap fun p => p.node.text ++ [',']) ++ ['\x7d']))
      (properties.map fun p => (none, p.node))

def assignNode (left right : Node) : Node :=
  .node .assignmentExpression (left.text ++ ' ' :: '=' :: ' ' :: right.text) [(some .left, left), (some .right, right)]

def Statement.node : Statement imported → Node
  | .assign first rest value =>
    assignNode first.node (rest.foldr (fun t right => assignNode t.node right) value.node)
  | .write target property value =>
    assignNode (.node .memberExpression (target.text ++ '.' :: property)
      [(some .object, target.node), (some .property, .node .propertyIdentifier property [])]) value.node

def Item.node : Item imported → Node
  | .declaration d _ => d
  | .statement s => .node .expressionStatement (s.node.text ++ [';']) [(none, s.node)]

/-- A file of such statements, with the bindings that its items import. -/
structure Program where
  imported : Bindings
  items : List (Item imported)
  binds : (items.map Item.node).foldl collectImported (fun _ => none) = imported

def Program.node (p : Program) : Node := .node .program [] (p.items.map fun i => (none, i.node))

/-! ### The heap -/

/-- A write of a property: what it forwards, whether a method shorthand made it, and the whole assignments that the
written name held and that were made so far. -/
structure Write where
  forwards : Option Imported
  shorthandMethod : Bool
  through : ℕ
  time : ℕ

/-- The writes to an object since its last spread, the newest first. -/
abbrev Writes := List (Text × Write)

def Writes.last (l : Writes) (property : Text) : Option Write := (l.find? fun w => w.1 = property).map Prod.snd

/-- An object is one that the file makes, or what a module exports. -/
inductive Place (Module : Type)
  | made (n : ℕ)
  | required (m : Module)
  deriving DecidableEq

/-- What a name holds: the object, the whole assignment it comes from, and the namespaces this assignment spreads. -/
structure Held (Module : Type) where
  place : Place Module
  since : ℕ
  stars : List Text

structure Heap (Module : Type) where
  objects : Place Module → Writes
  time : ℕ
  held : Target → Held Module

section Semantics

variable {Module : Type} [DecidableEq Module] (resolve : Text → Module)

/-- Both names hold one object at first. -/
def Heap.initial : Heap Module := ⟨fun _ => [], 0, fun _ => ⟨.made 0, 0, []⟩⟩

/-- One property of an object literal, over the namespaces and the writes so far. A spread overrides what precedes
it. -/
def Property.evaluate (now : ℕ) (o : List Text × Writes) : Property imported → List Text × Writes
  | .shorthand name => (o.1, (name, ⟨imported name, false, now, now⟩) :: o.2)
  | .pair key value => (o.1, (key.name, ⟨value.forwards imported, false, now, now⟩) :: o.2)
  | .method key _ _ => (o.1, (key.name, ⟨none, true, now, now⟩) :: o.2)
  | .spread m => (o.1 ++ [m.spec], [])

def Whole.evaluate (h : Heap Module) : Whole imported → Held Module × Heap Module
  | .target t => (h.held t, h)
  | .module m => (⟨.required (resolve m.spec), h.time + 1, [m.spec]⟩, { h with time := h.time + 1 })
  | .object properties =>
    let o := properties.foldl (Property.evaluate (h.time + 1)) ([], [])
    (⟨.made (h.time + 1), h.time + 1, o.1⟩,
      { h with time := h.time + 1, objects := Function.update h.objects (.made (h.time + 1)) o.2 })

def Heap.write (h : Heap Module) (target : Target) (property : Text) (forwards : Option Imported) : Heap Module :=
  let x := h.held target
  let writes := (property, ⟨forwards, false, x.since, h.time⟩) :: h.objects x.place
  { h with objects := Function.update h.objects x.place writes }

def Statement.run (h : Heap Module) : Statement imported → Heap Module
  | .assign first rest value =>
    let (x, h') := value.evaluate resolve h
    { h' with held := fun t => if t ∈ first :: rest then x else h'.held t }
  | .write target property value => h.write target property (value.forwards imported)

def Item.run (h : Heap Module) : Item imported → Heap Module
  | .declaration _ _ => h
  | .statement s => s.run resolve h

/-- The heap when the file has run. -/
def Program.run (p : Program) : Heap Module := p.items.foldl (Item.run resolve) .initial

/-- The writes to the exported object after its whole assignment. -/
def Heap.exported (h : Heap Module) : Writes :=
  (h.objects (h.held .moduleExports).place).filter fun w => (h.held .moduleExports).since ≤ w.2.time

def JsExportEntry.starSpec : JsExportEntry → Option Text
  | .star spec => some spec
  | _ => none

/-- The entries are what Node exports. -/
structure Follows (p : Program) : Prop where
  indirect : ∀ (property spec : Text) (name : Option Text),
    JsExportEntry.indirect property spec name ∈ jsExportEntries p.node ↔
      ∃ w, (p.run resolve).exported.last property = some w ∧ w.forwards = some ⟨spec, name⟩
  star : (jsExportEntries p.node).filterMap JsExportEntry.starSpec = ((p.run resolve).held .moduleExports).stars

/-- The write is no method shorthand and was made through the whole assignment that the name holds. -/
def Write.readBy (since : ℕ) (w : Write) : Bool := !w.shorthandMethod && w.through = since

/-- A write that is passed over decides the property, and the last one that is not forwards something else. -/
def Lost (p : Program) (property : Text) : Prop :=
  let h := p.run resolve
  ∃ w, h.exported.last property = some w ∧ w.readBy (h.held .moduleExports).since = false ∧
    w.forwards ≠
      (Writes.last (h.exported.filter fun v => v.2.readBy (h.held .moduleExports).since) property).bind Write.forwards

end Semantics

/-! ### What the reader makes of a node -/

theorem unquote_text (l : Literal) : unquote l.text = l.content := by
  have hquote : isQuote l.quote = true := by
    rcases l.quoted with h | h <;> rw [h] <;> rfl
  rw [unquote, Literal.text, List.dropWhile_cons_of_pos hquote]
  cases hc : l.content with
  | nil => simp [hquote]
  | cons c rest =>
    have hstarts : isQuote c = false := l.starts c (by simp [hc])
    rw [List.cons_append, List.dropWhile_cons_of_neg (by simp [hstarts]), ← List.cons_append,
      List.rdropWhile_concat_pos _ _ _ hquote, List.rdropWhile_eq_self_iff]
    intro hne
    have hends := l.ends ((c :: rest).getLast hne) (by rw [hc, List.getLast?_eq_some_getLast hne]; rfl)
    simpa using hends

theorem moduleExportName_key (k : Key) : moduleExportName k.node = k.name := by
  cases k with
  | identifier name => rfl
  | literal l => exact unquote_text l

theorem requireSpec_requireNode (s : Spec) : requireSpec s.requireNode = some s.content := by
  have hspec : unquote s.text = s.content := unquote_text s.toLiteral
  simp [requireSpec, Spec.requireNode, Literal.node, SyntaxTree.kind, SyntaxTree.childByField, SyntaxTree.children,
    SyntaxTree.namedChildren, SyntaxTree.text, hspec, s.nonempty]

/-- Only a call of `require` has a specifier. -/
theorem requireSpec_eq_none {n : Node} (h : ¬CallsRequire n) : requireSpec n = none := by
  by_contra hne
  obtain ⟨spec, hspec⟩ := Option.ne_none_iff_exists'.mp hne
  apply h
  simp only [requireSpec, Option.bind_eq_bind, Option.bind_eq_some_iff, Option.guard_eq_some'] at hspec
  obtain ⟨-, hkind, f, hf, -, hname, -⟩ := hspec
  exact ⟨hkind, f, hf, hname.1, hname.2⟩

theorem forwardedValue_node (property : Text) (v : Value) :
    forwardedValue property v.node imported =
      (v.forwards imported).map fun i => .indirect property i.spec i.imported := by
  cases v with
  | binding name => rfl
  | required spec =>
    rw [Value.node, forwardedValue, if_neg (by simp [Spec.requireNode, SyntaxTree.kind]), requiredValue,
      requireSpec_requireNode]
    rfl
  | requiredMember spec member =>
    have hmember : requireSpec (Value.requiredMember spec member).node = none := rfl
    rw [forwardedValue, if_neg (by simp [Value.node, SyntaxTree.kind]), requiredValue, hmember]
    simp [Value.node, SyntaxTree.kind, SyntaxTree.childByField, SyntaxTree.children, SyntaxTree.text,
      requireSpec_requireNode, Value.forwards]
  | own n h =>
    rw [Value.node, forwardedValue, if_neg (by simp [h.unnamed.1, h.unnamed.2]), requiredValue,
      requireSpec_eq_none h.unrequired]
    -- a value of its own is no `require`, and no member of one
    suffices hnone : (do
        guard (n.kind = .memberExpression)
        let object ← n.childByField .object
        let property ← n.childByField .property
        let spec ← requireSpec object
        return (⟨spec, some property.text⟩ : Imported)) = none by
      rw [hnone]
      rfl
    by_contra hne
    obtain ⟨i, hi⟩ := Option.ne_none_iff_exists'.mp hne
    simp only [Option.bind_eq_bind, Option.bind_eq_some_iff, Option.guard_eq_some'] at hi
    obtain ⟨-, hkind, object, hobject, -, -, spec, hspec, -⟩ := hi
    rw [requireSpec_eq_none (h.noMember hkind object hobject)] at hspec
    simp at hspec

theorem forwardedValue_shorthand (name : Text) :
    forwardedValue name (Property.shorthand name : Property imported).node imported =
      (imported name).map fun i => .indirect name i.spec i.imported := rfl

theorem forwardedNamespace_node (m : Namespace imported) : forwardedNamespace m.node imported = some m.spec := by
  cases m with
  | required s => rw [Namespace.node, forwardedNamespace, requireSpec_requireNode]; rfl
  | binding name spec named bound =>
    have hnone : requireSpec (Namespace.binding name spec named bound).node = none := rfl
    rw [forwardedNamespace, hnone]
    simp [Namespace.node, SyntaxTree.kind, SyntaxTree.text, bound, Namespace.spec]

/-! ### One list of entries -/

@[simp] theorem Writes.last_cons (name property : Text) (w : Write) (l : Writes) :
    Writes.last ((name, w) :: l) property = if name = property then some w else Writes.last l property := by
  rw [Writes.last, List.find?_cons]
  by_cases h : name = property <;> simp [h, Writes.last]

/-- A write that passes the filter is the last of those that do. -/
theorem Writes.last_filter {f : Text × Write → Bool} {property : Text} {w : Write} : ∀ {l : Writes},
    l.last property = some w → f (property, w) = true → Writes.last (l.filter f) property = some w
  | (name, v) :: l, h, hf => by
    rw [Writes.last_cons] at h
    by_cases hname : name = property
    · subst hname
      obtain rfl := Option.some.inj ((if_pos rfl).symm.trans h)
      rw [List.filter_cons_of_pos hf, Writes.last_cons, if_pos rfl]
    · rw [if_neg hname] at h
      have ih := Writes.last_filter h hf
      rw [List.filter_cons]
      split_ifs
      · rw [Writes.last_cons, if_neg hname, ih]
      · exact ih

theorem Writes.last_filter_none {f : Text × Write → Bool} {property : Text} {l : Writes}
    (h : l.last property = none) : Writes.last (l.filter f) property = none := by
  rw [Writes.last, Option.map_eq_none_iff, List.find?_eq_none] at h ⊢
  exact fun w hw => h w (List.mem_of_mem_filter hw)

/-- The entries are what the writes that are read leave, and the namespaces. -/
structure Represents (entries : List JsExportEntry) (since : ℕ) (stars : List Text) (l : Writes) : Prop where
  indirect : ∀ (property spec : Text) (name : Option Text), JsExportEntry.indirect property spec name ∈ entries ↔
    ∃ w, Writes.last (l.filter fun v => v.2.readBy since) property = some w ∧ w.forwards = some ⟨spec, name⟩
  star : entries.filterMap JsExportEntry.starSpec = stars

theorem mem_writeExport {entries : List JsExportEntry} {exported : Text} {value : Node} {f : Option Imported}
    (hf : forwardedValue exported value imported = f.map fun i => .indirect exported i.spec i.imported)
    (property spec : Text) (name : Option Text) :
    JsExportEntry.indirect property spec name ∈ writeExport entries exported value imported ↔
      if exported = property then f = some ⟨spec, name⟩ else .indirect property spec name ∈ entries := by
  rw [writeExport, hf, List.mem_append, List.mem_filter, Option.mem_toList]
  by_cases h : exported = property
  · subst h
    cases f with
    | none => simp [JsExportEntry.exportsIndirectly]
    | some i =>
      cases i
      simp [JsExportEntry.exportsIndirectly]
  · cases f <;> simp [JsExportEntry.exportsIndirectly, h, Ne.symm h]

theorem starSpec_writeExport {entries : List JsExportEntry} {exported : Text} {value : Node} {f : Option Imported}
    (hf : forwardedValue exported value imported = f.map fun i => .indirect exported i.spec i.imported) :
    (writeExport entries exported value imported).filterMap JsExportEntry.starSpec =
      entries.filterMap JsExportEntry.starSpec := by
  have hkept : ∀ e : JsExportEntry,
      (if (!e.exportsIndirectly exported) = true then e.starSpec else none) = e.starSpec := by
    intro e
    cases e <;> simp [JsExportEntry.exportsIndirectly, JsExportEntry.starSpec]
  rw [writeExport, List.filterMap_append, List.filterMap_filter, funext hkept, hf]
  cases f <;> simp [JsExportEntry.starSpec]

namespace Represents

variable {entries : List JsExportEntry} {since : ℕ} {stars : List Text} {l : Writes}

/-- A write that is read. -/
theorem write (h : Represents entries since stars l) {exported : Text} {value : Node} {f : Option Imported}
    (hf : forwardedValue exported value imported = f.map fun i => .indirect exported i.spec i.imported) (time : ℕ) :
    Represents (writeExport entries exported value imported) since stars
      ((exported, ⟨f, false, since, time⟩) :: l) := by
  refine ⟨fun property spec name => ?_, (starSpec_writeExport hf).trans h.star⟩
  rw [mem_writeExport hf, List.filter_cons_of_pos (by simp [Write.readBy]), Writes.last_cons]
  split_ifs with heq
  · simp
  · exact h.indirect property spec name

/-- A write that is passed over. -/
theorem pass (h : Represents entries since stars l) {exported : Text} {w : Write} (hw : w.readBy since = false) :
    Represents entries since stars ((exported, w) :: l) := by
  refine ⟨fun property spec name => ?_, h.star⟩
  rw [List.filter_cons_of_neg (by simp [hw])]
  exact h.indirect property spec name

/-- A spread, or the namespace itself. -/
theorem spread (h : Represents entries since stars l) (spec : Text) :
    Represents (entries.filter JsExportEntry.isStar ++ [.star spec]) since (stars ++ [spec]) [] := by
  constructor
  · intro property spec name
    simp [Writes.last, JsExportEntry.isStar]
  · have hkept : ∀ e : JsExportEntry, (if e.isStar = true then e.starSpec else none) = e.starSpec := by
      intro e
      cases e <;> simp [JsExportEntry.isStar, JsExportEntry.starSpec]
    rw [List.filterMap_append, List.filterMap_filter, funext hkept, h.star]
    rfl

theorem nil (since : ℕ) : Represents [] since [] [] := ⟨by simp [Writes.last], rfl⟩

/-- Writes that are all older than the assignment are not read. -/
theorem module (spec : Text) (hold : ∀ w ∈ l, w.2.through < since) : Represents [.star spec] since [spec] l := by
  have hnone : (l.filter fun v => v.2.readBy since) = [] := by
    rw [List.filter_eq_nil_iff]
    intro w hw
    have := hold w hw
    simp [Write.readBy]
    omega
  refine ⟨fun property spec name => ?_, rfl⟩
  rw [hnone]
  simp [Writes.last]

end Represents

/-! ### Object literals -/

theorem propertyEntries_spread (entries : List JsExportEntry) (m : Namespace imported) :
    propertyEntries imported entries (Property.spread m).node = match forwardedNamespace m.node imported with
      | some spec => entries.filter JsExportEntry.isStar ++ [.star spec]
      | none => entries := rfl

theorem propertyEntries_represents {entries : List JsExportEntry} {now : ℕ} {o : List Text × Writes}
    (h : Represents entries now o.1 o.2) (p : Property imported) :
    Represents (propertyEntries imported entries p.node) now (p.evaluate now o).1 (p.evaluate now o).2 := by
  cases p with
  | shorthand name => exact h.write (forwardedValue_shorthand name) now
  | pair key value =>
    have hentries : propertyEntries imported entries (Property.pair key value : Property imported).node =
        writeExport entries key.name value.node imported := by
      rw [← moduleExportName_key key]
      cases key <;> rfl
    rw [hentries]
    exact h.write (forwardedValue_node key.name value) now
  | method key text rest => exact h.pass rfl
  | spread m =>
    have hentries : propertyEntries imported entries (Property.spread m).node =
        entries.filter JsExportEntry.isStar ++ [.star m.spec] := by
      rw [propertyEntries_spread, forwardedNamespace_node]
    rw [hentries]
    exact h.spread m.spec

theorem properties_represents {now : ℕ} : ∀ (properties : List (Property imported)) {entries : List JsExportEntry}
    {o : List Text × Writes}, Represents entries now o.1 o.2 →
    Represents ((properties.map Property.node).foldl (propertyEntries imported) entries) now
      (properties.foldl (Property.evaluate now) o).1 (properties.foldl (Property.evaluate now) o).2
  | [], _, _, h => h
  | p :: properties, _, _, h => properties_represents properties (propertyEntries_represents h p)

/-! ### Statements -/

theorem name_text_ne : exportsName ≠ moduleExportsName := by decide

theorem Target.node_text (t : Target) : t.node.text = t.text := by cases t <;> rfl

theorem Target.node_kind (t : Target) : t.node.kind ≠ .assignmentExpression := by
  cases t <;> simp [Target.node, SyntaxTree.kind]

theorem Target.text_eq (t : Target) : t.text = moduleExportsName ∨ t.text = exportsName := by
  cases t
  · exact .inr rfl
  · exact .inl rfl

theorem Whole.node_kind (value : Whole imported) : value.node.kind ≠ .assignmentExpression := by
  cases value with
  | target t => exact t.node_kind
  | module m => cases m <;> simp [Whole.node, Namespace.node, Spec.requireNode, SyntaxTree.kind]
  | object properties => simp [Whole.node, SyntaxTree.kind]

theorem Namespace.node_text (m : Namespace imported) : m.node.text ≠ exportsName ∧ m.node.text ≠ moduleExportsName := by
  cases m with
  | required s =>
    constructor <;>
    · intro h
      have hhead := congrArg List.head? h
      simp [Namespace.node, Spec.requireNode, SyntaxTree.text, requireName, exportsName, moduleExportsName] at hhead
  | binding name spec named bound => exact named

theorem assignNode_kind (left right : Node) : (assignNode left right).kind = .assignmentExpression := rfl

theorem exportsChain_assignNode (left right : Node) (module aliased : Bool) :
    exportsChain (assignNode left right) module aliased =
      if left.text = moduleExportsName then
        if right.kind = .assignmentExpression then exportsChain right true aliased else some (right, true, aliased)
      else if left.text = exportsName then
        if right.kind = .assignmentExpression then exportsChain right module true else some (right, module, true)
      else none := by
  rw [exportsChain]
  rfl

/-- One name of a chain. -/
theorem exportsChain_target (t : Target) (right : Node) (module aliased : Bool) :
    exportsChain (assignNode t.node right) module aliased =
      if right.kind = .assignmentExpression then
        exportsChain right (module || t = .moduleExports) (aliased || t = .exports)
      else some (right, module || t = .moduleExports, aliased || t = .exports) := by
  rw [exportsChain_assignNode, t.node_text]
  cases t
  · have hne : Target.exports.text ≠ moduleExportsName := name_text_ne
    have hexports : Target.exports.text = exportsName := rfl
    rw [if_neg hne, if_pos hexports]
    simp
  · have hmodule : Target.moduleExports.text = moduleExportsName := rfl
    rw [if_pos hmodule]
    simp

/-- The chain sets the names it is made of. -/
theorem exportsChain_node (value : Whole imported) : ∀ (rest : List Target) (first : Target) (module aliased : Bool),
    exportsChain (assignNode first.node (rest.foldr (fun t right => assignNode t.node right) value.node))
        module aliased =
      some (value.node, module || decide (.moduleExports ∈ first :: rest), aliased || decide (.exports ∈ first :: rest))
  | [], first, module, aliased => by
    rw [List.foldr_nil, exportsChain_target, if_neg value.node_kind]
    simp [eq_comm]
  | t :: rest, first, module, aliased => by
    rw [List.foldr_cons, exportsChain_target, if_pos (assignNode_kind _ _), exportsChain_node value rest t]
    simp [Bool.or_assoc, eq_comm]

/-- An assignment to `exports` or to `module.exports` is read as a chain. -/
theorem assignment_chain (c : CommonJs) (first : Target) (right : Node) :
    c.assignment imported (assignNode first.node right) =
      match exportsChain (assignNode first.node right) false false with
      | some (value, module, aliased) => c.wholeAssignment imported value module aliased
      | none => c := by
  have hleft : first.node.text = moduleExportsName ∨ first.node.text = exportsName := by
    rw [first.node_text]
    exact first.text_eq
  exact if_pos hleft

/-- What a whole assignment does to the reader's lists. -/
theorem assignment_assign (c : CommonJs) (first : Target) (rest : List Target) (value : Whole imported) :
    c.assignment imported (Statement.assign first rest value).node =
      c.wholeAssignment imported value.node (decide (.moduleExports ∈ first :: rest))
        (decide (.exports ∈ first :: rest)) := by
  have hchain := exportsChain_node value rest first false false
  rw [Bool.false_or, Bool.false_or] at hchain
  exact (assignment_chain c first _).trans (by rw [hchain])

theorem assignment_write (c : CommonJs) (target : Target) (property : Text) (value : Value) :
    c.assignment imported (Statement.write target property value : Statement imported).node =
      c.memberWrite imported target.text property value.node := by
  have hne : ¬(target.text ++ '.' :: property = moduleExportsName ∨ target.text ++ '.' :: property = exportsName) := by
    rintro (h | h) <;> cases target <;> simp [Target.text, exportsName, moduleExportsName] at h
  show (if target.text ++ '.' :: property = moduleExportsName ∨ target.text ++ '.' :: property = exportsName then _
    else c.memberWrite imported target.node.text property value.node) = _
  rw [if_neg hne, target.node_text]

/-! ### Heap and lists -/

section Mirror

variable {Module : Type}

/-- The entries represent what was written through the assignment that a name holds. -/
def Heap.Shows (h : Heap Module) (entries : List JsExportEntry) (x : Held Module) : Prop :=
  Represents entries x.since x.stars (h.objects x.place)

/-- The lists stand for the objects that the names hold. The numbers of assignments only grow, and an object that the
file makes is numbered by the one that made it. -/
structure Mirrors (c : CommonJs) (h : Heap Module) : Prop where
  exported : h.Shows c.entries (h.held .moduleExports)
  aliased : (c.aliasEntries = none ∧ h.held .exports = h.held .moduleExports) ∨
    ∃ a, c.aliasEntries = some a ∧ (h.held .exports).since ≠ (h.held .moduleExports).since ∧
      h.Shows a (h.held .exports)
  since_le : ∀ t : Target, (h.held t).since ≤ h.time
  made_le : ∀ (t : Target) (n : ℕ), (h.held t).place = .made n → n ≤ h.time
  through_le : ∀ (place : Place Module), ∀ w ∈ h.objects place, w.2.through ≤ w.2.time ∧ w.2.time ≤ h.time

theorem Mirrors.initial : Mirrors {} (Heap.initial : Heap Module) where
  exported := Represents.nil 0
  aliased := .inl ⟨rfl, rfl⟩
  since_le _ := le_rfl
  made_le _ n h := by
    obtain rfl : 0 = n := Place.made.inj h
    exact le_rfl
  through_le _ _ hw := by simp [Heap.initial] at hw

variable {c : CommonJs} {h h' : Heap Module} {x : Held Module} {entries : List JsExportEntry}

/-- What `exports` holds is represented, whichever list stands for it. -/
theorem Mirrors.shows_exports (hm : Mirrors c h) : h.Shows (c.aliasEntries.getD c.entries) (h.held .exports) := by
  rcases hm.aliased with ⟨hnone, heq⟩ | ⟨a, hsome, -, hshows⟩
  · rw [hnone, heq]
    exact hm.exported
  · rw [hsome]
    exact hshows

/-- The value of a whole assignment that is no other name: nothing that a name held is touched. -/
structure Fresh (h h' : Heap Module) (x : Held Module) (entries : List JsExportEntry) : Prop where
  held : h'.held = h.held
  time : h'.time = h.time + 1
  since : x.since = h.time + 1
  made_le : ∀ n : ℕ, x.place = .made n → n ≤ h.time + 1
  objects : ∀ t : Target, h'.objects (h.held t).place = h.objects (h.held t).place
  through_le : ∀ (place : Place Module), ∀ w ∈ h'.objects place, w.2.through ≤ w.2.time ∧ w.2.time ≤ h.time + 1
  shows : h'.Shows entries x

/-- The names `targets` now hold `x`. -/
def Heap.assign (h : Heap Module) (targets : List Target) (x : Held Module) : Heap Module :=
  { h with held := fun t => if t ∈ targets then x else h.held t }

theorem Mirrors.assign_fresh (hm : Mirrors c h) (hf : Fresh h h' x entries) {targets : List Target} {c' : CommonJs}
    (hexported : (h'.assign targets x).Shows c'.entries ((h'.assign targets x).held .moduleExports))
    (haliased : (c'.aliasEntries = none ∧
        (h'.assign targets x).held .exports = (h'.assign targets x).held .moduleExports) ∨
      ∃ a, c'.aliasEntries = some a ∧
        ((h'.assign targets x).held .exports).since ≠ ((h'.assign targets x).held .moduleExports).since ∧
        (h'.assign targets x).Shows a ((h'.assign targets x).held .exports)) :
    Mirrors c' (h'.assign targets x) where
  exported := hexported
  aliased := haliased
  since_le t := by
    show (if t ∈ targets then x else h'.held t).since ≤ h'.time
    rw [hf.time, hf.held]
    split_ifs
    · exact hf.since.le
    · exact (hm.since_le t).trans (Nat.le_succ _)
  made_le t n hplace := by
    show n ≤ h'.time
    change (if t ∈ targets then x else h'.held t).place = _ at hplace
    rw [hf.time]
    rw [hf.held] at hplace
    split_ifs at hplace
    · exact hf.made_le n hplace
    · exact (hm.made_le t n hplace).trans (Nat.le_succ _)
  through_le place w hw := by
    show _ ∧ w.2.time ≤ h'.time
    rw [hf.time]
    exact hf.through_le place w hw

theorem Heap.assign_held_mem {targets : List Target} {t : Target} (ht : t ∈ targets) :
    (h.assign targets x).held t = x := if_pos ht

theorem Heap.assign_held_notMem {targets : List Target} {t : Target} (ht : t ∉ targets) :
    (h.assign targets x).held t = h.held t := if_neg ht

/-- A name that the chain leaves out still shows what it did. -/
theorem Fresh.shows_old (hf : Fresh h h' x entries) {old : List JsExportEntry} {t : Target} {targets : List Target}
    (ht : t ∉ targets) (hs : h.Shows old (h.held t)) :
    (h'.assign targets x).Shows old ((h'.assign targets x).held t) := by
  rw [Heap.assign_held_notMem ht, hf.held]
  show Represents old _ _ (h'.objects (h.held t).place)
  rw [hf.objects t]
  exact hs

theorem Fresh.shows_new (hf : Fresh h h' x entries) {t : Target} {targets : List Target} (ht : t ∈ targets) :
    (h'.assign targets x).Shows entries ((h'.assign targets x).held t) := by
  rw [Heap.assign_held_mem ht]
  exact hf.shows

theorem Mirrors.since_ne (hm : Mirrors c h) (hf : Fresh h h' x entries) {targets : List Target} {new old : Target}
    (hnew : new ∈ targets) (hold : old ∉ targets) :
    ((h'.assign targets x).held old).since ≠ ((h'.assign targets x).held new).since := by
  rw [Heap.assign_held_mem hnew, Heap.assign_held_notMem hold, hf.held, hf.since]
  have := hm.since_le old
  omega

/-- A whole assignment of a namespace or an object literal. -/
theorem Mirrors.wholeAssignment_fresh (hm : Mirrors c h) {value : Node}
    (htext : value.text ≠ exportsName ∧ value.text ≠ moduleExportsName)
    (hf : Fresh h h' x (wholeExportsEntries value imported)) (first : Target) (rest : List Target) :
    Mirrors (c.wholeAssignment imported value (decide (.moduleExports ∈ first :: rest))
      (decide (.exports ∈ first :: rest))) (h'.assign (first :: rest) x) := by
  rw [CommonJs.wholeAssignment, if_neg (fun hc => htext.1 hc.1), if_neg (fun hc => htext.2 hc.1),
    if_neg (fun hc => hc.elim htext.1 htext.2)]
  simp only [decide_eq_true_eq]
  by_cases hmodule : Target.moduleExports ∈ first :: rest
  · by_cases hexports : Target.exports ∈ first :: rest
    · -- Both names hold the new object.
      rw [if_pos ⟨hmodule, hexports⟩]
      refine hm.assign_fresh hf (hf.shows_new hmodule) (.inl ⟨rfl, ?_⟩)
      rw [Heap.assign_held_mem hmodule, Heap.assign_held_mem hexports]
    · -- `exports` goes on naming what it named.
      rw [if_neg (fun hc => hexports hc.2), if_pos hmodule]
      exact hm.assign_fresh hf (hf.shows_new hmodule)
        (.inr ⟨_, rfl, hm.since_ne hf hmodule hexports, hf.shows_old hexports hm.shows_exports⟩)
  · have hexports : Target.exports ∈ first :: rest := by
      cases first
      · exact List.mem_cons_self
      · exact absurd List.mem_cons_self hmodule
    rw [if_neg (fun hc => hmodule hc.1), if_neg hmodule]
    exact hm.assign_fresh hf (hf.shows_old hmodule hm.exported)
      (.inr ⟨_, rfl, (hm.since_ne hf hexports hmodule).symm, hf.shows_new hexports⟩)

/-- The names hold what one of them held. -/
theorem Mirrors.assign_held (hm : Mirrors c h) (t : Target) {targets : List Target} {c' : CommonJs}
    (hexported : h.Shows c'.entries ((h.assign targets (h.held t)).held .moduleExports))
    (haliased : (c'.aliasEntries = none ∧
        (h.assign targets (h.held t)).held .exports = (h.assign targets (h.held t)).held .moduleExports) ∨
      ∃ a, c'.aliasEntries = some a ∧ ((h.assign targets (h.held t)).held .exports).since ≠
          ((h.assign targets (h.held t)).held .moduleExports).since ∧
        h.Shows a ((h.assign targets (h.held t)).held .exports)) :
    Mirrors c' (h.assign targets (h.held t)) where
  exported := hexported
  aliased := haliased
  since_le s := by
    show (if s ∈ targets then h.held t else h.held s).since ≤ h.time
    split_ifs
    · exact hm.since_le t
    · exact hm.since_le s
  made_le s n hplace := by
    change (if s ∈ targets then h.held t else h.held s).place = _ at hplace
    split_ifs at hplace
    · exact hm.made_le t n hplace
    · exact hm.made_le s n hplace
  through_le := hm.through_le

/-- Assigning what a name already holds to it. -/
theorem Heap.assign_self (t : Target) {targets : List Target} (h' : ∀ s ∈ targets, s = t) :
    h.assign targets (h.held t) = h := by
  have hheld : (fun s => if s ∈ targets then h.held t else h.held s) = h.held := by
    funext s
    by_cases hs : s ∈ targets
    · rw [if_pos hs, h' s hs]
    · rw [if_neg hs]
  rw [Heap.assign, hheld]

/-- A whole assignment of a name. -/
theorem Mirrors.wholeAssignment_target (hm : Mirrors c h) (t : Target) (first : Target) (rest : List Target) :
    Mirrors (c.wholeAssignment imported t.node (decide (.moduleExports ∈ first :: rest))
      (decide (.exports ∈ first :: rest))) (h.assign (first :: rest) (h.held t)) := by
  rw [CommonJs.wholeAssignment, t.node_text]
  cases t with
  | exports =>
    by_cases hmodule : Target.moduleExports ∈ first :: rest
    · -- The module exports what `exports` names.
      have hexports : (h.assign (first :: rest) (h.held .exports)).held .exports = h.held .exports := by
        show (if Target.exports ∈ first :: rest then _ else _) = _
        split_ifs <;> rfl
      have heq : (h.assign (first :: rest) (h.held .exports)).held .exports =
          (h.assign (first :: rest) (h.held .exports)).held .moduleExports := by
        rw [hexports, Heap.assign_held_mem hmodule]
      rw [if_pos ⟨rfl, decide_eq_true hmodule⟩]
      rcases haliased : c.aliasEntries with _ | a
      · refine hm.assign_held .exports ?_ (.inl ⟨haliased, heq⟩)
        rw [← heq, hexports]
        have hshows := hm.shows_exports
        rwa [haliased] at hshows
      · refine hm.assign_held .exports ?_ (.inl ⟨rfl, heq⟩)
        rw [← heq, hexports]
        have hshows := hm.shows_exports
        rwa [haliased] at hshows
    · have hself : ∀ s ∈ first :: rest, s = Target.exports := by
        intro s hs
        cases s
        · rfl
        · exact absurd hs hmodule
      rw [if_neg (fun hc => hmodule (of_decide_eq_true hc.2)), if_neg (fun hc => name_text_ne hc.1),
        if_pos (.inl rfl), Heap.assign_self _ hself]
      exact hm
  | moduleExports =>
    have hne : Target.moduleExports.text ≠ exportsName := Ne.symm name_text_ne
    rw [if_neg (fun hc => hne hc.1)]
    by_cases hexports : Target.exports ∈ first :: rest
    · -- `exports` names the exported object again.
      have hmodule : (h.assign (first :: rest) (h.held .moduleExports)).held .moduleExports =
          h.held .moduleExports := by
        show (if Target.moduleExports ∈ first :: rest then _ else _) = _
        split_ifs <;> rfl
      rw [if_pos ⟨rfl, decide_eq_true hexports⟩]
      refine hm.assign_held .moduleExports ?_ (.inl ⟨rfl, ?_⟩)
      · rw [hmodule]
        exact hm.exported
      · rw [hmodule, Heap.assign_held_mem hexports]
    · have hself : ∀ s ∈ first :: rest, s = Target.moduleExports := by
        intro s hs
        cases s
        · exact absurd hs hexports
        · rfl
      rw [if_neg (fun hc => hexports (of_decide_eq_true hc.2)), if_pos (.inr rfl), Heap.assign_self _ hself]
      exact hm

/-! ### One statement -/

theorem wholeExportsEntries_module (m : Namespace imported) :
    wholeExportsEntries m.node imported = [.star m.spec] := by
  rw [wholeExportsEntries, forwardedNamespace_node]

theorem wholeExportsEntries_object (properties : List (Property imported)) :
    wholeExportsEntries (Whole.object properties).node imported =
      (properties.map Property.node).foldl (propertyEntries imported) [] := by
  have hnamespace : forwardedNamespace (Whole.object properties).node imported = none := rfl
  have hchildren : (Whole.object properties).node.namedChildren = properties.map Property.node := by
    show (properties.map _).map Prod.snd = _
    rw [List.map_map]
    rfl
  rw [wholeExportsEntries, hnamespace, ← hchildren]
  rfl

theorem Mirrors.fresh_module (hm : Mirrors c h) (place : Place Module) (hplace : ∀ n : ℕ, place ≠ .made n)
    (spec : Text) : Fresh h { h with time := h.time + 1 } ⟨place, h.time + 1, [spec]⟩ [.star spec] where
  held := rfl
  time := rfl
  since := rfl
  made_le n hn := absurd hn (hplace n)
  objects _ := rfl
  through_le at_ w hw := by
    obtain ⟨hthrough, htime⟩ := hm.through_le at_ w hw
    exact ⟨hthrough, htime.trans (Nat.le_succ _)⟩
  shows := by
    apply Represents.module
    intro w hw
    obtain ⟨hthrough, htime⟩ := hm.through_le place w hw
    show w.2.through < h.time + 1
    omega

/-- The writes of a literal are made now. -/
theorem Property.evaluate_through {now : ℕ} {o : List Text × Writes}
    (ho : ∀ w ∈ o.2, w.2.through ≤ w.2.time ∧ w.2.time ≤ now) (p : Property imported) :
    ∀ w ∈ (p.evaluate now o).2, w.2.through ≤ w.2.time ∧ w.2.time ≤ now := by
  cases p with
  | spread m =>
    intro w hw
    exact absurd hw List.not_mem_nil
  | shorthand name | pair key value | method key text rest =>
    intro w hw
    rcases List.mem_cons.mp hw with rfl | hw
    · exact ⟨le_rfl, le_rfl⟩
    · exact ho w hw

theorem Property.evaluate_foldl_through {now : ℕ} : ∀ (properties : List (Property imported))
    {o : List Text × Writes}, (∀ w ∈ o.2, w.2.through ≤ w.2.time ∧ w.2.time ≤ now) →
    ∀ w ∈ (properties.foldl (Property.evaluate now) o).2, w.2.through ≤ w.2.time ∧ w.2.time ≤ now
  | [], _, ho => ho
  | p :: properties, _, ho => Property.evaluate_foldl_through properties (p.evaluate_through ho)

section Resolve

variable [DecidableEq Module] (resolve : Text → Module)

theorem Mirrors.fresh_object (hm : Mirrors c h) (properties : List (Property imported)) :
    Fresh h ((Whole.object properties).evaluate resolve h).2 ((Whole.object properties).evaluate resolve h).1
      ((properties.map Property.node).foldl (propertyEntries imported) []) where
  held := rfl
  time := rfl
  since := rfl
  made_le n hn := (Place.made.inj hn).ge
  objects t := by
    apply Function.update_of_ne
    intro hplace
    have := hm.made_le t _ hplace
    omega
  through_le place w hw := by
    change w ∈ Function.update h.objects (.made (h.time + 1)) _ place at hw
    by_cases hplace : place = .made (h.time + 1)
    · rw [hplace, Function.update_self] at hw
      exact Property.evaluate_foldl_through properties (fun v hv => absurd hv List.not_mem_nil) w hw
    · rw [Function.update_of_ne hplace] at hw
      obtain ⟨hthrough, htime⟩ := hm.through_le place w hw
      exact ⟨hthrough, htime.trans (Nat.le_succ _)⟩
  shows := by
    show Represents _ _ _ (Function.update h.objects (.made (h.time + 1)) _ (.made (h.time + 1)))
    rw [Function.update_self]
    exact properties_represents properties (Represents.nil (h.time + 1))

theorem Mirrors.assign (hm : Mirrors c h) (first : Target) (rest : List Target) (value : Whole imported) :
    Mirrors (c.assignment imported (Statement.assign first rest value).node)
      ((Statement.assign first rest value).run resolve h) := by
  rw [assignment_assign]
  cases value with
  | target t => exact hm.wholeAssignment_target t first rest
  | module m =>
    have hf := hm.fresh_module (.required (resolve m.spec)) (by simp) m.spec
    rw [← wholeExportsEntries_module m] at hf
    exact hm.wholeAssignment_fresh m.node_text hf first rest
  | object properties =>
    have htext : (Whole.object properties).node.text ≠ exportsName ∧
        (Whole.object properties).node.text ≠ moduleExportsName := by
      constructor <;>
      · intro heq
        have hhead := congrArg List.head? heq
        simp [Whole.node, SyntaxTree.text, exportsName, moduleExportsName] at hhead
    have hf := hm.fresh_object resolve properties
    rw [← wholeExportsEntries_object properties] at hf
    exact hm.wholeAssignment_fresh htext hf first rest

/-- A write through the name itself. -/
theorem Heap.Shows.write {t : Target} (hs : h.Shows entries (h.held t)) (property : Text) (value : Value) :
    (h.write t property (value.forwards imported)).Shows (writeExport entries property value.node imported)
      (h.held t) := by
  show Represents _ _ _ (Function.update h.objects (h.held t).place _ (h.held t).place)
  rw [Function.update_self]
  exact Represents.write hs (forwardedValue_node property value) h.time

/-- A write through another assignment. -/
theorem Heap.Shows.write_ne {t : Target} (hs : h.Shows entries x) (hne : x.since ≠ (h.held t).since)
    (property : Text) (forwards : Option Imported) : (h.write t property forwards).Shows entries x := by
  show Represents _ _ _ (Function.update h.objects (h.held t).place _ x.place)
  by_cases hplace : x.place = (h.held t).place
  · rw [hplace, Function.update_self, ← hplace]
    exact Represents.pass hs (by simp [Write.readBy, Ne.symm hne])
  · rw [Function.update_of_ne hplace]
    exact hs

theorem Mirrors.write_heap (hm : Mirrors c h) (t : Target) (property : Text) (forwards : Option Imported)
    {c' : CommonJs} (hexported : (h.write t property forwards).Shows c'.entries (h.held .moduleExports))
    (haliased : (c'.aliasEntries = none ∧ h.held .exports = h.held .moduleExports) ∨
      ∃ a, c'.aliasEntries = some a ∧ (h.held .exports).since ≠ (h.held .moduleExports).since ∧
        (h.write t property forwards).Shows a (h.held .exports)) :
    Mirrors c' (h.write t property forwards) where
  exported := hexported
  aliased := haliased
  since_le := hm.since_le
  made_le := hm.made_le
  through_le place w hw := by
    change w ∈ Function.update h.objects (h.held t).place _ place at hw
    by_cases hplace : place = (h.held t).place
    · rw [hplace, Function.update_self] at hw
      rcases List.mem_cons.mp hw with rfl | hw
      · exact ⟨hm.since_le t, le_rfl⟩
      · exact hm.through_le _ w hw
    · rw [Function.update_of_ne hplace] at hw
      exact hm.through_le place w hw

theorem memberWrite_exports (c : CommonJs) (property : Text) (value : Node) :
    c.memberWrite imported Target.exports.text property value = match c.aliasEntries with
      | none => { c with entries := writeExport c.entries property value imported }
      | some a => { c with aliasEntries := some (writeExport a property value imported) } := rfl

theorem Mirrors.write (hm : Mirrors c h) (t : Target) (property : Text) (value : Value) :
    Mirrors (c.assignment imported (Statement.write t property value : Statement imported).node)
      (h.write t property (value.forwards imported)) := by
  rw [assignment_write]
  cases t with
  | moduleExports =>
    refine hm.write_heap .moduleExports property _ (hm.exported.write property value) ?_
    rcases hm.aliased with ⟨hnone, heq⟩ | ⟨a, hsome, hne, hshows⟩
    · exact .inl ⟨hnone, heq⟩
    · exact .inr ⟨a, hsome, hne, hshows.write_ne hne property _⟩
  | exports =>
    rw [memberWrite_exports]
    rcases hm.aliased with ⟨hnone, heq⟩ | ⟨a, hsome, hne, hshows⟩
    · -- One object: the write through `exports` is one through `module.exports`.
      have hexports : h.Shows c.entries (h.held .exports) := heq ▸ hm.exported
      rw [hnone]
      refine hm.write_heap .exports property _ ?_ (.inl ⟨rfl, heq⟩)
      rw [← heq]
      exact hexports.write property value
    · rw [hsome]
      exact hm.write_heap .exports property _ (hm.exported.write_ne hne.symm property _)
        (.inr ⟨_, rfl, hne, hshows.write property value⟩)

theorem Mirrors.item (hm : Mirrors c h) (i : Item imported) :
    ∃ c', statementEntries imported ([], c) i.node = ([], c') ∧ Mirrors c' (i.run resolve h) := by
  cases i with
  | declaration d hd =>
    refine ⟨c, ?_, hm⟩
    unfold statementEntries
    dsimp only [Item.node]
    split
    · exact absurd ‹_› hd.1
    · exact absurd ‹_› hd.2
    · rfl
  | statement s =>
    refine ⟨c.assignment imported s.node, ?_, ?_⟩
    · cases s <;> rfl
    · cases s with
      | assign first rest value => exact hm.assign resolve first rest value
      | write t property value => exact hm.write t property value

/-- The lists mirror the heap after every run. -/
theorem Mirrors.items : ∀ (items : List (Item imported)) {c : CommonJs} {h : Heap Module}, Mirrors c h →
    ∃ c', (items.map Item.node).foldl (statementEntries imported) ([], c) = ([], c') ∧
      Mirrors c' (items.foldl (Item.run resolve) h)
  | [], c, _, hm => ⟨c, rfl, hm⟩
  | i :: items, _, _, hm => by
    obtain ⟨c', hc', hm'⟩ := hm.item resolve i
    rw [List.map_cons, List.foldl_cons, hc']
    exact Mirrors.items items hm'

end Resolve

end Mirror

/-! ### The exported object -/

variable {Module : Type}

/-- A write that is read comes after the whole assignment. -/
theorem Mirrors.filter_exported {c : CommonJs} {h : Heap Module} (hm : Mirrors c h) :
    (h.exported.filter fun v => v.2.readBy (h.held .moduleExports).since) =
      (h.objects (h.held .moduleExports).place).filter fun v => v.2.readBy (h.held .moduleExports).since := by
  rw [Heap.exported, List.filter_filter]
  apply List.filter_congr
  intro w hw
  obtain ⟨hthrough, -⟩ := hm.through_le _ w hw
  cases hread : w.2.readBy (h.held .moduleExports).since with
  | false => rfl
  | true =>
    have hsince : w.2.through = (h.held .moduleExports).since := by
      simp only [Write.readBy, Bool.and_eq_true, decide_eq_true_eq] at hread
      exact hread.2
    rw [Bool.true_and, decide_eq_true_eq]
    omega

variable [DecidableEq Module] (resolve : Text → Module)

/-- The entries of a program are those of a pair of lists that mirrors its run. -/
theorem Program.mirrors (p : Program) :
    ∃ c : CommonJs, jsExportEntries p.node = c.entries ∧ Mirrors c (p.run resolve) := by
  have hchildren : p.node.namedChildren = p.items.map Item.node := by
    show (p.items.map _).map Prod.snd = _
    rw [List.map_map]
    rfl
  obtain ⟨c, hc, hm⟩ := Mirrors.items resolve p.items Mirrors.initial
  refine ⟨c, ?_, hm⟩
  rw [jsExportEntries, hchildren, p.binds]
  simp only [hc]
  rfl

/-- The write that decides a property is read, or nothing hangs on its being passed over. -/
theorem not_lost_iff (p : Program) (property : Text) : ¬Lost resolve p property ↔
    (Writes.last ((p.run resolve).exported.filter fun v =>
        v.2.readBy ((p.run resolve).held .moduleExports).since) property).bind Write.forwards =
      ((p.run resolve).exported.last property).bind Write.forwards := by
  generalize hsince : ((p.run resolve).held .moduleExports).since = since
  rw [Lost]
  simp only [hsince]
  cases hlast : (p.run resolve).exported.last property with
  | none =>
    rw [Writes.last_filter_none hlast]
    simp
  | some w =>
    cases hread : w.readBy since with
    | true =>
      rw [Writes.last_filter hlast hread]
      refine iff_of_true ?_ rfl
      rintro ⟨v, hv, hpassed, -⟩
      obtain rfl := Option.some.inj hv
      rw [hread] at hpassed
      exact absurd hpassed (by simp)
    | false =>
      constructor
      · intro hkept
        by_contra hne
        exact hkept ⟨w, rfl, hread, fun heq => hne heq.symm⟩
      · rintro heq ⟨v, hv, -, hne⟩
        obtain rfl := Option.some.inj hv
        exact hne heq.symm

/-- The entries are what Node exports exactly when no property hangs on a write that is passed over: a method
shorthand, or a write to the same required module through an assignment of its own. -/
theorem jsExportEntries_follows_iff (resolve : Text → Module) (p : Program) :
    Follows resolve p ↔ ∀ property : Text, ¬Lost resolve p property := by
  obtain ⟨c, hentries, hm⟩ := p.mirrors resolve
  have hread := hm.filter_exported
  have hindirect : ∀ (property spec : Text) (name : Option Text),
      JsExportEntry.indirect property spec name ∈ jsExportEntries p.node ↔
        (Writes.last ((p.run resolve).exported.filter fun v =>
          v.2.readBy ((p.run resolve).held .moduleExports).since) property).bind Write.forwards =
            some ⟨spec, name⟩ := by
    intro property spec name
    rw [hentries, hread, Option.bind_eq_some_iff]
    exact hm.exported.indirect property spec name
  constructor
  · intro hf property
    rw [not_lost_iff]
    apply Option.ext
    rintro ⟨spec, name⟩
    rw [← hindirect, hf.indirect, ← Option.bind_eq_some_iff]
  · intro hkept
    refine ⟨fun property spec name => ?_, ?_⟩
    · rw [hindirect, (not_lost_iff resolve p property).mp (hkept property), Option.bind_eq_some_iff]
    · rw [hentries]
      exact hm.exported.star

section Samples

/-- `'./a'`. -/
def specA : Spec where
  quote := '\x27'
  content := ['.', '/', 'a']
  quoted := .inr rfl
  starts := by simp [isQuote]
  ends := by simp [isQuote]
  plain := by decide
  nonempty := by decide

/-- `module.exports = { f: require('./a').f, f() {} }`. -/
def methodLast : Program where
  imported := fun _ => none
  items := [.statement (.assign .moduleExports [] (.object
    [.pair (.identifier ['f']) (.requiredMember specA ['f']),
      .method (.identifier ['f']) ['f', '(', ')', ' ', '\x7b', '\x7d'] []]))]
  binds := rfl

/-- `module.exports = require('./a'); exports = require('./a'); exports.f = require('./a').g`. -/
def moduleTwice : Program where
  imported := fun _ => none
  items := [.statement (.assign .moduleExports [] (.module (.required specA))),
    .statement (.assign .exports [] (.module (.required specA))),
    .statement (.write .exports ['f'] (.requiredMember specA ['g']))]
  binds := rfl

/-- The own method `f` is the last write of `f`, and the entry for the `f` before it stays. And a write to the exported
module through `exports` gives no entry. -/
theorem jsExportEntries_not_follows : ¬Follows id methodLast ∧ ¬Follows id moduleTwice := by
  constructor
  · intro hf
    obtain ⟨c, hentries, hm⟩ := methodLast.mirrors id
    have hentry : JsExportEntry.indirect ['f'] ['.', '/', 'a'] (some ['f']) ∈ jsExportEntries methodLast.node := by
      rw [hentries]
      exact (hm.exported.indirect _ _ _).mpr ⟨⟨some ⟨['.', '/', 'a'], some ['f']⟩, false, 1, 1⟩, rfl, rfl⟩
    obtain ⟨w, hlast, hforwards⟩ := (hf.indirect _ _ _).mp hentry
    have hmethod : (methodLast.run id).exported.last ['f'] = some ⟨none, true, 1, 1⟩ := rfl
    obtain rfl := Option.some.inj (hlast.symm.trans hmethod)
    exact absurd hforwards (by simp)
  · intro hf
    obtain ⟨c, hentries, hm⟩ := moduleTwice.mirrors id
    have hentry := (hf.indirect ['f'] ['.', '/', 'a'] (some ['g'])).mpr
      ⟨⟨some ⟨['.', '/', 'a'], some ['g']⟩, false, 2, 2⟩, rfl, rfl⟩
    rw [hentries] at hentry
    obtain ⟨w, hlast, -⟩ := (hm.exported.indirect _ _ _).mp hentry
    have hnone : Writes.last (((moduleTwice.run id).objects ((moduleTwice.run id).held .moduleExports).place).filter
        fun v => v.2.readBy ((moduleTwice.run id).held .moduleExports).since) ['f'] = none := rfl
    rw [hnone] at hlast
    exact absurd hlast (by simp)

end Samples

end CodeGraph.Parser.JsExports
