import CodeGraph.Parser.Correct.CppReceiver
import CodeGraph.Parser.Correct.JsReceiver

/-!
# Receiver classes are provable

Both walks flatten a function's blocks, and answer for the variable of a receiver where they read what is written to it
(`receivers_given`). A block's own variable of the name answers for an outer one (`not_receivers_given`).
-/

namespace CodeGraph.Parser

open CodeGraph.Lib CodeGraph.Lib.SyntaxTree

theorem receivers_given (fromPackage : JsReceiver.Name → Bool) (isWhitespace : Char → Bool)
    (brings : CppReceiver.Name → CppReceiver.Located → Bool) (jsFile : JsReceiver.Node) (cppFile : CppReceiver.Node)
    (place : List ℕ) :
    (∀ f name cls, Located.descend ⟨[], jsFile⟩ place = some f → JsReceiver.receiverName f = some name →
      JsReceiver.Covered fromPackage name jsFile f.above → JsReceiver.receiverType fromPackage f = some cls →
        JsReceiver.Given fromPackage name jsFile f.above cls) ∧
    ∀ f name arrow cls, Located.descend ⟨[], cppFile⟩ place = some f → CppReceiver.receiverName f = some (name, arrow) →
      (∀ func ∈ CppReceiver.functionAround (CppReceiver.maxSubtreeDepth * 4) f.above,
        CppReceiver.Covered brings name cppFile f.place func) →
      CppReceiver.receiverType isWhitespace f = some cls → CppReceiver.Given brings name cppFile f.place arrow cls := by
  constructor
  · intro f name cls hf hname hcovered h
    exact JsReceiver.receiverType_given (Located.rooted_of_descend hf) hname hcovered h
  · intro f name arrow cls hf hname hcovered h
    exact CppReceiver.receiverType_given (Located.rooted_of_descend hf) hname hcovered h

section Js

open JsReceiver

def jsIdent (x : Name) : JsReceiver.Node := .node .identifier x []

/-- `new T()` -/
def newOf (cls : Name) : JsReceiver.Node := .node .newExpression [] [(some .constructor, jsIdent cls)]

/-- `let x = new T()` -/
def newLet (x cls : Name) : JsReceiver.Node := .node .lexicalDeclaration []
  [(none, .node .variableDeclarator [] [(some .name, jsIdent x), (some .value, newOf cls)])]

/-- `x = new T()` -/
def newAssigned (x cls : Name) : JsReceiver.Node := .node .assignmentExpression []
  [(some .left, jsIdent x), (some .right, newOf cls)]

/-- `x.m` -/
def jsMember (x : Name) : JsReceiver.Node := .node .memberExpression []
  [(some .object, jsIdent x), (none, .node (.other "property_identifier".toList) "m".toList [])]

/-- A declaration, and a function behind it. -/
def jsFile (outer : JsReceiver.Node) (body : List JsReceiver.Node) : JsReceiver.Node := .node .program []
  [(none, outer), (none, .node .functionDeclaration [] [(some .name, jsIdent "f".toList),
    (some .body, .node .statementBlock [] (body.map fun stmt => (none, stmt)))])]

end Js

section Cpp

open CppReceiver

def cppIdent (k : CppReceiver.Kind) (x : Name) : CppReceiver.Node := .node k x []

/-- `T x;`, by the kind of the declaration and of its name. -/
def typedDeclaration (k ident : CppReceiver.Kind) (cls x : Name) : CppReceiver.Node := .node k []
  [(some .type, cppIdent .typeIdentifier cls), (some .declarator, cppIdent ident x)]

/-- `x.m` -/
def cppMember (x : Name) : CppReceiver.Node := .node (.fieldExpression false) []
  [(some .argument, cppIdent .identifier x), (none, cppIdent .fieldIdentifier "m".toList)]

/-- A class with a field and a member function. -/
def cppFile (field : CppReceiver.Node) (body : List CppReceiver.Node) : CppReceiver.Node := .node .translationUnit []
  [(none, .node .structSpecifier [] [(some .name, cppIdent .typeIdentifier "S".toList),
    (some .body, .node .fieldDeclarationList [] [(none, field),
      (none, .node .functionDefinition []
        [(some .declarator, .node .functionDeclarator [] [(some .declarator, cppIdent .fieldIdentifier "f".toList)]),
          (some .body, .node .compoundStatement [] (body.map fun stmt => (none, stmt)))])])])]

end Cpp

/-- `let x = new B(); function f() { let x = new A(); x = new A(); x.m }`, and
`struct S { B x; void f() { A x; x.m } }`: the variable of the function hides the other one. -/
theorem receivers_given_hiding :
    (∃ f, Located.descend ⟨[], jsFile (newLet "x".toList "B".toList)
        [newLet "x".toList "A".toList, newAssigned "x".toList "A".toList, jsMember "x".toList]⟩ [1, 1, 2] = some f ∧
      JsReceiver.Given (fun _ => false) "x".toList (jsFile (newLet "x".toList "B".toList)
        [newLet "x".toList "A".toList, newAssigned "x".toList "A".toList, jsMember "x".toList]) f.above "A".toList) ∧
    ∃ f, Located.descend ⟨[], cppFile (typedDeclaration .fieldDeclaration .fieldIdentifier "B".toList "x".toList)
        [typedDeclaration .declaration .identifier "A".toList "x".toList, cppMember "x".toList]⟩ [0, 1, 1, 1, 1] = some f ∧
      CppReceiver.Given (fun _ _ => false) "x".toList
        (cppFile (typedDeclaration .fieldDeclaration .fieldIdentifier "B".toList "x".toList)
          [typedDeclaration .declaration .identifier "A".toList "x".toList, cppMember "x".toList])
        f.place false "A".toList :=
  ⟨⟨_, rfl, (receivers_given (fun _ => false) (fun _ => false) (fun _ _ => false) _
      (typedDeclaration .declaration .identifier [] []) [1, 1, 2]).1 _ "x".toList "A".toList rfl rfl (by decide) (by decide)⟩,
    ⟨_, rfl, (receivers_given (fun _ => false) (fun _ => false) (fun _ _ => false) (jsMember [])
      _ [0, 1, 1, 1, 1]).2 _ "x".toList false "A".toList rfl rfl (by decide) (by decide)⟩⟩

/-- `const x = new B(); function f() { { let x = new A() } x.m }`, and `struct S { B x; void f() { { A x; } x.m } }`: a
block's own variable answers for the one behind it. -/
theorem not_receivers_given :
    (¬∀ (fromPackage : JsReceiver.Name → Bool) (file : JsReceiver.Node) (place : List ℕ) (f : JsReceiver.Located)
        (name : JsReceiver.Name) (cls : JsReceiver.Class),
      Located.descend ⟨[], file⟩ place = some f → JsReceiver.receiverName f = some name →
      JsReceiver.receiverType fromPackage f = some cls → JsReceiver.Given fromPackage name file f.above cls) ∧
    ¬∀ (isWhitespace : Char → Bool) (brings : CppReceiver.Name → CppReceiver.Located → Bool) (file : CppReceiver.Node)
        (place : List ℕ) (f : CppReceiver.Located) (name : CppReceiver.Name) (arrow : Bool) (cls : CppReceiver.Class),
      Located.descend ⟨[], file⟩ place = some f → CppReceiver.receiverName f = some (name, arrow) →
      CppReceiver.receiverType isWhitespace f = some cls →
        CppReceiver.Given brings name file f.place arrow cls := by
  constructor
  · intro hall
    have h := hall (fun _ => false)
      (jsFile (newLet "x".toList "B".toList)
        [.node .statementBlock [] [(none, newLet "x".toList "A".toList)], jsMember "x".toList])
      [1, 1, 1] _ "x".toList "A".toList rfl rfl (by decide)
    exact absurd h (by decide)
  · intro hall
    have h := hall (fun _ => false) (fun _ _ => false)
      (cppFile (typedDeclaration .fieldDeclaration .fieldIdentifier "B".toList "x".toList)
        [.node .compoundStatement [] [(none, typedDeclaration .declaration .identifier "A".toList "x".toList)],
          cppMember "x".toList])
      [0, 1, 1, 1, 1] _ "x".toList false "A".toList rfl rfl (by decide)
    exact absurd h (by decide)

end CodeGraph.Parser
