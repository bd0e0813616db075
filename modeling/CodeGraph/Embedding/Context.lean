import Mathlib.Data.List.Basic

/-!
# The text of a node

`build_context_string` of `embedding/context.rs`: what a node's context string says.
-/

namespace CodeGraph.Embedding

structure NodeContext where
  nodeType : String
  name : String
  qualifiedName : Option String
  filePath : String
  language : Option String
  signature : Option String
  returnType : Option String
  paramTypes : Option String
  codeContent : Option String
  routes : List String
  callees : List String
  callers : List String
  inherits : List String
  imports : List String
  implements : List String
  exports : List String
  docComment : Option String

/-- `MAX_RELATIONS`. -/
def maxRelations : ℕ := 10

/-- The first entries of a list and how many were left out. -/
def relationLine (label : String) (items : List String) : String :=
  let suffix :=
    if maxRelations < items.length then " (+" ++ toString (items.length - maxRelations) ++ ")" else ""
  label ++ ": " ++ ", ".intercalate (items.take maxRelations) ++ suffix

/-- A labelled part, when there is something to say. -/
def part (label : String) (text : Option String) : List String :=
  (text.map fun t => label ++ ": " ++ t).toList

def buildContextString (info : NodeContext) : String :=
  let identity := info.nodeType ++ " " ++ info.qualifiedName.getD info.name
  let place := match info.language with
    | some language => language ++ " in " ++ info.filePath
    | none => "in " ++ info.filePath
  let relations := [("routes", info.routes), ("calls", info.callees), ("called_by", info.callers),
    ("inherits", info.inherits), ("imports", info.imports), ("implements", info.implements),
    ("exports", info.exports)]
  "\n".intercalate
    (part "signature" info.signature ++
      part "returns" (info.returnType.filter fun t => t ≠ "") ++
      part "params" (info.paramTypes.filter fun t => t ≠ "") ++
      [identity, place] ++
      (relations.filter fun r => r.2 ≠ []).map (fun r => relationLine r.1 r.2) ++
      part "doc" info.docComment ++ part "code" info.codeContent)

end CodeGraph.Embedding
