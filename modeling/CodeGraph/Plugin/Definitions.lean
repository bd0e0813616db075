import CodeGraph.Lib.Assoc
import CodeGraph.Lib.Determined
import CodeGraph.Lib.MatchAll
import CodeGraph.Lib.Sort
import CodeGraph.Lib.Texts
import CodeGraph.Plugin.Adopt
import Mathlib.Data.List.Lex

/-!
# The definitions in a text

`stop-impact.js`: the lines of a text on which something is defined, and the header of each definition. `allSignatures`
reads all definitions at once, `extractSignatures` those of one name. Both search with the same patterns, which have a
slot for the name.

A text is the list of its code units. A half of a surrogate pair, which none of this looks for, is the character that is
as far beyond U+FFFF as the half is beyond U+D7FF.
-/

namespace CodeGraph.Plugin.StopImpact

open CodeGraph.Lib
open CodeGraph.Plugin.Adopt (lineTerminator lineEnd endsLine blank jsSpace)

/-- `MAX_SIGNATURE_CHARS` -/
def maxSignatureChars : ℕ := 600

/-- `MAX_DEFINITION_LINE_CHARS` -/
def maxDefinitionLineChars : ℕ := 2000

/-! ### Pieces of patterns -/

def isWord (c : Char) : Bool := c.isAlphanum || c = '_'

/-- `[A-Za-z_]` -/
def typeStart (c : Char) : Bool := c.isAlpha || c = '_'

/-- `[A-Za-z_$]` -/
def nameStart (c : Char) : Bool := typeStart c || c = '$'

/-- `[\w$]` -/
def nameChar (c : Char) : Bool := isWord c || c = '$'

/-- `[\w<>\[\],.*&:?]` -/
def typeChar (c : Char) : Bool := isWord c || c ∈ ['<', '>', '[', ']', ',', '.', '*', '&', ':', '?']

def star (p : Pattern Char) : Pattern Char := .rep p 0 none .greedy

def plus (p : Pattern Char) : Pattern Char := .rep p 1 none .greedy

def upTo (n : ℕ) (p : Pattern Char) : Pattern Char := .rep p 0 (some n) .greedy

def opt (p : Pattern Char) : Pattern Char := upTo 1 p

def char (c : Char) : Pattern Char := .one (· = c)

/-- `\s` -/
def space : Pattern Char := .one jsSpace

/-- `\b` -/
def wordBoundary : Pattern Char := .look fun before behind => before.getLast?.any isWord != behind.head?.any isWord

/-- `^` with the flag `m` -/
def startOfLine : Pattern Char := .look fun before _ => before.isEmpty || endsLine before

/-- `$` with the flag `m` -/
def endOfLine : Pattern Char := .look fun _ behind => lineEnd behind

/-- `ANY_NAME` -/
def anyName : Pattern Char := .seq (.one nameStart) (star (.one nameChar))

/-- What is within brackets: `[^)\n]` up to `MAX_SIGNATURE_CHARS` times between `(` and `)`, and the same for others. -/
def bracketed (opener closer : Char) : Pattern Char :=
  .seq (char opener) (.seq (upTo maxSignatureChars (.one fun c => c ≠ closer ∧ c ≠ '\n')) (char closer))

/-! ### Languages -/

/-- A profile of `LANGS`. What `keywordOnly` says is for another hook. -/
structure Lang where
  keyword : Option (Pattern Char) := none
  receiver : Bool := false
  typeParams : Bool := false
  jsForms : Bool := false
  typed : Bool := false
  ends : List Char
  arrowEnds : Bool := false
  angles : Bool := false
  afterParams : Bool := false
  closeParen : Bool := false

def keyword (s : String) : Option (Pattern Char) := some (.word s.toList)

/-- `LANGS` -/
def langs : List (List String × Lang) :=
  [([".rs"], { keyword := keyword "fn", ends := ['{', ';'] }),
   ([".py", ".pyi"], { keyword := keyword "def", ends := [':'] }),
   ([".go"], { keyword := keyword "func", receiver := true, ends := ['{', ';', '\n'] }),
   ([".js", ".jsx", ".mjs", ".cjs", ".ts", ".tsx", ".mts", ".cts"],
    { keyword := some (.seq (.word "function".toList) (opt (char '*'))), jsForms := true, ends := ['{', ';'],
      arrowEnds := true, angles := true }),
   ([".php"], { keyword := keyword "function", ends := ['{', ';'] }),
   ([".c", ".h", ".cc", ".cpp", ".cxx", ".hpp", ".hh", ".hxx", ".java", ".cs"],
    { typed := true, ends := ['{', ';'], arrowEnds := true, afterParams := true }),
   ([".kt", ".kts"], { keyword := keyword "fun", typeParams := true, ends := ['{', '=', '\n'] }),
   ([".scala", ".sc"], { keyword := keyword "def", ends := ['{', '=', '\n'] }),
   ([".rb"], { keyword := keyword "def", ends := [';', '=', '\n'], closeParen := true }),
   ([".lua"], { keyword := keyword "function", ends := ['\n'], closeParen := true })]

/-- `LANGS.get` -/
def langOf (ext : List Char) : Option Lang := (langs.find? fun l => ext ∈ l.1.map String.toList).map Prod.snd

/-! ### Definition patterns -/

/-- `(?:\([^)\n]{0,600}\)\s*)?`, where the language has it. -/
def optBracketed (has : Bool) (opener closer : Char) : Pattern Char :=
  if has then opt (.seq (bracketed opener closer) (star space)) else .empty

/-- `keywordLead` -/
def keywordLead (lang : Lang) (keyword : Pattern Char) : Pattern Char :=
  .seq wordBoundary (.seq keyword (.seq (plus space)
    (.seq (optBracketed lang.receiver '(' ')') (optBracketed lang.typeParams '<' '>'))))

/-- `fn name` -/
def keywordPattern (lang : Lang) (keyword : Pattern Char) : Slotted Char :=
  { before := .empty
    lead := keywordLead lang keyword
    tail := wordBoundary }

/-- `const name = (…) =>` -/
def bindingPattern : Slotted Char where
  before := .empty
  lead := .seq wordBoundary (.seq (.words ["const".toList, "let".toList, "var".toList]) (plus space))
  tail := .seq (star space) (.seq (char '=') (.seq (star space)
    (.seq (opt (.seq (.word "async".toList) (plus space)))
      (.alt (.seq (.word "function".toList) wordBoundary)
        (.alt (.seq (bracketed '(' ')') (.seq (star space) (.word "=>".toList)))
          (.seq (.one nameStart) (.seq (star (.one nameChar)) (.seq (star space) (.word "=>".toList)))))))))

def modifiers : List (List Char) :=
  ["async", "static", "get", "set", "public", "private", "protected", "readonly", "override"].map String.toList

/-- A method on one line. -/
def methodPattern : Slotted Char where
  before := .empty
  lead := .seq startOfLine (.seq (star (.one blank))
    (.seq (upTo 4 (.seq (.words modifiers) (plus space))) (opt (char '*'))))
  tail := .seq (star space) (.seq (char '(') (.seq (star (.one fun c => c ∉ ['(', ')', '\n'])) (.seq (char ')')
    (.seq (star space)
      (.seq (opt (.seq (char ':') (.seq (star space) (plus (.one fun c => c ∉ ['{', ';', '=', '\n'])))))
        (.seq (char '{') (.seq (star (.one blank)) endOfLine)))))))

/-- `Type name(` -/
def typedPattern : Slotted Char where
  before := .seq startOfLine (star (.one blank))
  lead := plus (.seq (.one typeStart) (.seq (star (.one typeChar)) (plus (.one blank))))
  tail := .seq (star (.one blank)) (char '(')

/-- `definitionPatterns`, each with whether it is typed. -/
def definitionPatterns (lang : Lang) : List (Bool × Slotted Char) :=
  (lang.keyword.toList.map fun keyword => (false, keywordPattern lang keyword)) ++
    ((if lang.jsForms then [(false, bindingPattern), (false, methodPattern)] else []) ++
      if lang.typed then [(true, typedPattern)] else [])

/-! ### Where definitions start -/

/-- `text.slice(i, j)` -/
def slice (text : List Char) (i j : ℕ) : List Char := (text.take j).drop i

/-- `text.lastIndexOf('\n', i) + 1` -/
def lineStartAt (text : List Char) (i : ℕ) : ℕ :=
  (text.take (i + 1)).length - ((text.take (i + 1)).rtakeWhile (· ≠ '\n')).length

/-- `COMMENT_LINE` -/
def commentLine (line : List Char) : Bool :=
  ["//", "#", "*", "/*", "--", ";"].any fun mark => mark.toList <+: line.dropWhile jsSpace

/-- `NOT_A_TYPE` -/
def notAType : List (List Char) :=
  ["return", "new", "throw", "else", "await", "yield", "case", "delete", "typeof", "echo", "print", "puts", "if",
   "while", "for", "switch", "catch", "when", "not", "and", "or", "in", "is", "of", "do", "assert", "raise", "import",
   "from", "use", "let", "const", "var", "mut", "match", "go", "defer", "sizeof", "co_return", "co_await", "co_yield",
   "default", "goto"].map String.toList

/-- `NOT_A_NAME` -/
def notAName : List (List Char) :=
  ["if", "for", "while", "switch", "catch", "with", "function", "foreach", "elseif", "synchronized", "using", "lock",
   "fixed", "until", "unless", "return", "await", "yield", "typeof", "sizeof", "new", "super", "this"].map String.toList

/-- The first word of a line, which may be empty. -/
def firstWord (line : List Char) : List Char :=
  let line := (line.dropWhile jsSpace).rdropWhile jsSpace
  if line.head?.any typeStart then line.takeWhile isWord else []

/-- One of the tokens ends in a lone `:`. The tokens that are empty for a run of blanks do not. -/
def labelled (types : List Char) : Bool :=
  (types.splitOnP blank).any fun tok => tok.getLast? = some ':' ∧ tok.dropLast.getLast? ≠ some ':'

/-- The checks on a match: nothing on a line that is too long, otherwise where its line starts, if it is a definition. -/
def definitionLine (text : List Char) (typed : Bool) (m : Found) : Option (Option ℕ) :=
  let start := lineStartAt text m.start
  let line := (text.drop start).takeWhile (· ≠ '\n')
  if maxDefinitionLineChars < line.length then none
  else if commentLine line then some none
  else if typed ∧ (firstWord line ∈ notAType ∨ labelled (slice text m.group m.slot)) then some none
  else some (some start)

/-- The `Map` from names to `Set`s of line starts. -/
abbrev Starts := List (List Char × List ℕ)

/-- `Set.add` -/
def addLine (start : ℕ) (l : List ℕ) : List ℕ := if start ∈ l then l else l ++ [start]

/-- `out.get(name).add(start)`, with a new set where there is none. -/
def addStart (name : List Char) (start : ℕ) : Starts → Starts
  | [] => [(name, [start])]
  | x :: out => if x.1 = name then (name, addLine start x.2) :: out else x :: addStart name start out

/-- The body of the loop of `definitionStarts`. -/
def readMatch (text : List Char) (symbol : Option (List Char)) (out : Starts) (x : Bool × Found) : Option Starts :=
  (definitionLine text x.1 x.2).map fun start =>
    let name := symbol.getD (Slotted.text text x.2)
    if symbol = none ∧ name ∈ notAName then out
    else start.elim out (addStart name · out)

/-- The matches of all patterns. -/
def foundIn (text : List Char) (lang : Lang) (slot : Pattern Char) : List (Bool × Found) :=
  (definitionPatterns lang).flatMap fun d => (d.2.matchAll text slot).map (d.1, ·)

/-- `definitionStarts`: with a symbol the slot is the symbol, otherwise any name. -/
def definitionStarts (text : List Char) (lang : Lang) (symbol : Option (List Char)) : Option Starts :=
  (foundIn text lang (symbol.elim anyName fun s => .word s)).foldlM (readMatch text symbol) []

/-! ### Headers -/

structure HeaderState where
  depth : ℕ
  angle : ℕ
  sawParams : Bool
  /-- The last step has read this character too. -/
  skip : Bool

/-- The loop of `readHeader`, with the characters up to its limit still to read. -/
def headerLoop (lang : Lang) (text : List Char) (start : ℕ) : ℕ → HeaderState → ℕ → Option (List Char)
  | 0, _, _ =>
    let limit := min text.length (start + maxSignatureChars)
    if limit = text.length then some (slice text start limit) else none
  | n + 1, s, i =>
    let c := text[i]?
    let further (s : HeaderState) : Option (List Char) := headerLoop lang text start n s (i + 1)
    if s.skip then further { s with skip := false }
    else if c = some '=' ∧ text[i + 1]? = some '>' then
      if lang.arrowEnds ∧ s.depth = 0 ∧ s.angle = 0 then some (slice text start i) else further { s with skip := true }
    else if c = some '(' ∨ c = some '[' then further { s with depth := s.depth + 1 }
    else if c = some ')' ∨ c = some ']' then
      let s := { s with depth := s.depth - 1 }
      if c = some ')' ∧ s.depth = 0 then
        if lang.closeParen then some (slice text start (i + 1)) else further { s with sawParams := true }
      else further s
    else if s.depth ≠ 0 then further s
    else if lang.angles ∧ c = some '<' then further { s with angle := s.angle + 1 }
    else if lang.angles ∧ c = some '>' then further { s with angle := s.angle - 1 }
    else if s.angle ≠ 0 then further s
    else if c.any (· ∈ lang.ends) ∧ ¬(c = some '\n' ∧ i = start) then some (slice text start i)
    else if lang.afterParams ∧ s.sawParams ∧ c = some ':' ∧ text[i - 1]? ≠ some ':' ∧ text[i + 1]? ≠ some ':' then
      some (slice text start i)
    else further s

/-- `readHeader` -/
def readHeader (text : List Char) (start : ℕ) (lang : Lang) : Option (List Char) :=
  headerLoop lang text start (min text.length (start + maxSignatureChars) - start) ⟨0, 0, false, false⟩ start

/-- `header.replace(/,\)/g, ')')` -/
def dropTrailingCommas : List Char → List Char
  | ',' :: ')' :: rest => ')' :: dropTrailingCommas rest
  | c :: rest => c :: dropTrailingCommas rest
  | [] => []

def signatureKey (header : List Char) : List Char := dropTrailingCommas (header.filter fun c => !jsSpace c)

/-- The numbers of code units, by which `sort` goes. -/
def codes (s : List Char) : List ℕ := s.map fun c => if c.toNat < 0x10000 then c.toNat else c.toNat - 0x10000 + 0xD800

def headersAt (text : List Char) (lineStarts : List ℕ) (lang : Lang) : Option (List (List Char)) :=
  (lineStarts.mapM fun start => (readHeader text start lang).map signatureKey).map
    fun keys => keys.insertionSort fun a b => codes a ≤ codes b

/-! ### The two readers -/

section

variable (toLowerCase : List Char → List Char)

/-- `extractSignatures` -/
def extractSignatures (text symbol ext : List Char) : Option (List (List Char)) :=
  (langOf (toLowerCase ext)).bind fun lang =>
    if symbol = [] then some []
    else (definitionStarts text lang (some symbol)).bind fun starts =>
      headersAt text ((starts.lookup symbol).getD []) lang

/-- `Math.min` of the line starts of a name. -/
def firstStart (x : List Char × List ℕ) : ℕ := x.2.min?.getD 0

/-- An entry of the map that `allSignatures` returns: the keys of a name, if there are any. -/
def signaturesOf (text : List Char) (lang : Lang) (lineStarts : List ℕ) : Option (List (List Char)) :=
  (headersAt text lineStarts lang).filter (· ≠ [])

/-- `allSignatures` -/
def allSignatures (text ext : List Char) : Option (List (List Char × List (List Char))) :=
  (langOf (toLowerCase ext)).bind fun lang =>
    (definitionStarts text lang none).map fun starts =>
      (sortByKey firstStart starts).filterMap fun x => (signaturesOf text lang x.2).map (x.1, ·)

end

end CodeGraph.Plugin.StopImpact
