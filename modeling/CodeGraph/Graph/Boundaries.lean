import CodeGraph.Lib.Mask

/-!
# The masking lexer

`lex` of `graph/boundaries/mod.rs`: a source with its comments and string contents blanked, and the string
literals found. A text is a list of bytes. Every index and slice that the source takes is checked here, and an
out-of-range one is a `Fault`, as is a main loop that does not end within its fuel.
-/

namespace CodeGraph.Graph.Boundaries

open CodeGraph.Lib

inductive SingleQuote
  | str | char | rustChar
  deriving DecidableEq, Repr

/-- The part of `Syntax` that the lexer reads. -/
structure Syntax where
  slashComments : Bool := true
  hashComments : Bool := false
  nestedBlockComments : Bool := false
  singleQuote : SingleQuote := .char
  backtick : Bool := false
  templateInterp : Bool := false
  tripleQuotes : Bool := false
  rustRaw : Bool := false
  multilineDquote : Bool := false
  ruby : Bool := false
  dollarIdent : Bool := false
  deriving DecidableEq, Repr

/-- `syntax_for`. -/
def syntaxFor (language : String) : Option Syntax :=
  match language with
  | "javascript" | "typescript" | "tsx" =>
    some { singleQuote := .str, backtick := true, templateInterp := true, dollarIdent := true }
  | "go" => some { backtick := true }
  | "rust" =>
    some { nestedBlockComments := true, singleQuote := .rustChar, rustRaw := true, multilineDquote := true }
  | "java" | "c" | "cpp" | "csharp" => some {}
  | "kotlin" | "swift" => some { nestedBlockComments := true, tripleQuotes := true }
  | "dart" =>
    some { nestedBlockComments := true, singleQuote := .str, tripleQuotes := true, dollarIdent := true }
  | "php" => some { hashComments := true, singleQuote := .str, multilineDquote := true, dollarIdent := true }
  | "python" =>
    some { slashComments := false, hashComments := true, singleQuote := .str, tripleQuotes := true }
  | "ruby" =>
    some
      { slashComments := false, hashComments := true, singleQuote := .str, multilineDquote := true
        ruby := true }
  | _ => none

/-! ### Bytes and slices -/

/-- A byte of ASCII. -/
def ascii (c : Char) : UInt8 := c.toUInt8

def newline : UInt8 := 10
def space : UInt8 := 32
def doubleQuote : UInt8 := 34
def dollar : UInt8 := 36
def apostrophe : UInt8 := 39
def backslash : UInt8 := 92
def backquote : UInt8 := 96
def openBrace : UInt8 := 123
def closeBrace : UInt8 := 125

/-- What would stop a run: an index or a slice out of range, and a loop that does not end. -/
inductive Fault
  | outOfRange | outOfFuel
  deriving DecidableEq, Repr

/-- `src[i]`. -/
def byteAt (src : List UInt8) (i : ℕ) : Except Fault UInt8 :=
  match src[i]? with
  | some b => .ok b
  | none => .error .outOfRange

/-- `src[from..]`. -/
def sliceFrom (src : List UInt8) (lo : ℕ) : Except Fault (List UInt8) :=
  if lo ≤ src.length then .ok (src.drop lo) else .error .outOfRange

/-- `src[from..to]`. -/
def slice (src : List UInt8) (lo hi : ℕ) : Except Fault (List UInt8) :=
  if lo ≤ hi ∧ hi ≤ src.length then .ok ((src.take hi).drop lo) else .error .outOfRange

/-- `blank`. -/
def blank (masked : List UInt8) (lo hi : ℕ) : Except Fault (List UInt8) :=
  if lo ≤ hi ∧ hi ≤ masked.length then .ok (blankRange (· == newline) space lo hi masked)
  else .error .outOfRange

/-- `str::from_utf8(..).ok()`. -/
def fromUtf8 (bytes : List UInt8) : Option String := String.fromUTF8? bytes.toByteArray

/-- `is_ident_byte`. -/
def isIdentByte (b : UInt8) (syn : Syntax) : Bool :=
  (ascii 'a' ≤ b && b ≤ ascii 'z') || (ascii 'A' ≤ b && b ≤ ascii 'Z') || (ascii '0' ≤ b && b ≤ ascii '9') ||
    b == ascii '_' || 0x80 ≤ b || (syn.dollarIdent && b == dollar)

/-- `char_len`. -/
def charLen (src : List UInt8) (i : ℕ) : ℕ :=
  match src[i]? with
  | some b => if b < 0x80 then 1 else if 0xF0 ≤ b then 4 else if 0xE0 ≤ b then 3 else 2
  | none => 0

/-- `find_sub`. -/
def findSub (hay : List UInt8) (lo : ℕ) (needle : List UInt8) : Option ℕ :=
  if hay.length < lo ∨ needle = [] then none
  else ((hay.drop lo).tails.findIdx? needle.isPrefixOf).map (lo + ·)

/-- The index of the first newline from `i` on, or the end. -/
def lineEnd (src : List UInt8) (i : ℕ) : Except Fault ℕ := do
  let tail ← sliceFrom src i
  return match tail.findIdx? (· == newline) with
    | some p => i + p
    | none => src.length

/-- Whether `i` is the start of the text or the byte before it satisfies `q`. -/
def previousIs (src : List UInt8) (i : ℕ) (q : UInt8 → Bool) : Except Fault Bool :=
  if i = 0 then .ok true else q <$> byteAt src (i - 1)

/-- The end of the line of the next `=end`, or of the text. -/
def rubyCommentEnd (src : List UInt8) (i : ℕ) : Except Fault ℕ :=
  match findSub src i (newline :: "=end".toList.map ascii) with
  | some p => lineEnd src (p + 1)
  | none => .ok src.length

/-! ### Scans -/

/-- The end of a block comment, from inside it. -/
def blockCommentEnd (src : List UInt8) (nested : Bool) (depth j : ℕ) : ℕ :=
  if j < src.length ∧ 0 < depth then
    if nested ∧ src[j]? = some (ascii '/') ∧ src[j + 1]? = some (ascii '*') then
      blockCommentEnd src nested (depth + 1) (j + 2)
    else if src[j]? = some (ascii '*') ∧ src[j + 1]? = some (ascii '/') then
      blockCommentEnd src nested (depth - 1) (j + 2)
    else blockCommentEnd src nested depth (j + 1)
  else j
termination_by src.length - j

/-- `scan_quoted`: the closing quote, or the newline or the end that stops an unterminated literal. -/
def scanQuoted (src : List UInt8) (j : ℕ) (quote : UInt8) (multiline : Bool) : ℕ :=
  if h : j < src.length then
    if src[j] = backslash then scanQuoted src (j + 2) quote multiline
    else if src[j] = quote ∨ (multiline = false ∧ src[j] = newline) then j
    else scanQuoted src (j + 1) quote multiline
  else src.length
termination_by src.length - j

/-- What stops the scan of a template body. -/
inductive TemplateStop
  | close (j : ℕ)
  | interpolation (j : ℕ)
  | unterminated

/-- The loop of `scan_template`. -/
def templateStop (src : List UInt8) (j : ℕ) : TemplateStop :=
  if h : j < src.length then
    if src[j] = backslash then templateStop src (j + 2)
    else if src[j] = backquote then .close j
    else if src[j] = dollar ∧ src[j + 1]? = some openBrace then .interpolation j
    else templateStop src (j + 1)
  else .unterminated
termination_by src.length - j

/-! ### The lexer -/

structure StrLit where
  opening : ℕ
  closing : ℕ
  content : Option String

/-- The variables of `lex`. The innermost interpolation is the first of `interp`. -/
structure LexState where
  masked : List UInt8
  strings : List StrLit := []
  i : ℕ := 0
  interp : List ℕ := []

/-- Blank a range and go on at `next`. -/
def LexState.blankTo (st : LexState) (lo hi next : ℕ) : Except Fault LexState := do
  let masked ← blank st.masked lo hi
  return { st with masked := masked, i := next }

/-- `record`, then go on at `next`. -/
def LexState.record (src : List UInt8) (st : LexState) (opening closing : ℕ) (raw : Bool) (next : ℕ) :
    Except Fault LexState := do
  let closing := min closing src.length
  let body ← slice src (opening + 1) closing
  let masked ← blank st.masked (opening + 1) closing
  let content := if !raw && body.contains backslash then none else fromUtf8 body
  return { st with masked := masked, strings := st.strings ++ [⟨opening, closing, content⟩], i := next }

/-- `scan_template`, with `opening` for the first segment of a literal. -/
def scanTemplate (src : List UInt8) (st : LexState) (lo : ℕ) (opening : Option ℕ) :
    Except Fault LexState := do
  match templateStop src lo with
  | .close j =>
    let masked ← blank st.masked lo j
    match opening with
    | some o =>
      let body ← slice src lo j
      return { st with masked := masked, strings := st.strings ++ [⟨o, j, fromUtf8 body⟩], i := j + 1 }
    | none => return { st with masked := masked, i := j + 1 }
  | .interpolation j =>
    let masked ← blank st.masked lo j
    return { st with masked := masked, interp := 0 :: st.interp, i := j + 2 }
  | .unterminated => st.blankTo lo src.length src.length

/-- A form of comment or literal: what it makes of the byte at `st.i`, or nothing if it is not there. -/
abbrev Form := LexState → UInt8 → Except Fault (Option LexState)

section Forms

variable (src : List UInt8) (syn : Syntax)

def slashComment : Form := fun st c => do
  if syn.slashComments && c == ascii '/' && st.i + 1 < src.length then
    let d ← byteAt src (st.i + 1)
    if d == ascii '/' then
      let hi ← lineEnd src st.i
      some <$> st.blankTo st.i hi hi
    else if d == ascii '*' then
      let j := blockCommentEnd src syn.nestedBlockComments 1 (st.i + 2)
      some <$> st.blankTo st.i j j
    else return none
  else return none

def hashComment : Form := fun st c => do
  if syn.hashComments && c == ascii '#' then
    let hi ← lineEnd src st.i
    some <$> st.blankTo st.i hi hi
  else return none

/-- `=begin` at the start of a line, up to the end of the line of `=end`. -/
def rubyComment : Form := fun st c => do
  if syn.ruby && c == ascii '=' then
    let lineStart ← previousIs src st.i (· == newline)
    let tail ← sliceFrom src st.i
    if lineStart && ("=begin".toList.map ascii).isPrefixOf tail then
      let hi ← rubyCommentEnd src st.i
      some <$> st.blankTo st.i hi hi
    else return none
  else return none

def rawString : Form := fun st c => do
  if syn.rustRaw && c == ascii 'r' then
    let starts ← previousIs src st.i fun b => !isIdentByte b syn || b == ascii 'b'
    let hashes := ((src.drop (st.i + 1)).takeWhile (· == ascii '#')).length
    let j := st.i + 1 + hashes
    if starts && src[j]? == some doubleQuote then
      let term := doubleQuote :: List.replicate hashes (ascii '#')
      let close := (findSub src (j + 1) term).getD src.length
      some <$> st.record src j close true (min (close + term.length) src.length)
    else return none
  else return none

def tripleQuoted : Form := fun st c => do
  if syn.tripleQuotes && (c == doubleQuote || c == apostrophe) then
    let tail ← sliceFrom src st.i
    if [c, c, c].isPrefixOf tail then
      let close := (findSub src (st.i + 3) [c, c, c]).getD src.length
      let masked ← blank st.masked (st.i + 3) close
      return some { st with
        masked := masked
        strings := st.strings ++ [⟨st.i, close, none⟩]
        i := min (close + 3) src.length }
    else return none
  else return none

def doubleQuoted : Form := fun st c => do
  if c == doubleQuote then
    let close := scanQuoted src (st.i + 1) doubleQuote syn.multilineDquote
    some <$> st.record src st.i close false (min (close + 1) src.length)
  else return none

/-- A character literal is blanked and not recorded. -/
def charLiteral (st : LexState) : Except Fault LexState :=
  let close := scanQuoted src (st.i + 1) apostrophe false
  st.blankTo (st.i + 1) close (min (close + 1) src.length)

def singleQuoted : Form := fun st c => do
  if c == apostrophe then
    match syn.singleQuote with
    | .str =>
      let close := scanQuoted src (st.i + 1) apostrophe syn.multilineDquote
      some <$> st.record src st.i close false (min (close + 1) src.length)
    | .char => some <$> charLiteral src st
    | .rustChar =>
      -- anything else is a lifetime or a label, and code
      let isChar := match src[st.i + 1]? with
        | some b => b == backslash || src[st.i + 1 + charLen src (st.i + 1)]? == some apostrophe
        | none => false
      if isChar then some <$> charLiteral src st else return none
  else return none

def backtickQuoted : Form := fun st c => do
  if syn.backtick && c == backquote then
    if syn.templateInterp then some <$> scanTemplate src st (st.i + 1) (some st.i)
    else
      let tail ← sliceFrom src (st.i + 1)
      let close := match tail.findIdx? (· == backquote) with
        | some p => st.i + 1 + p
        | none => src.length
      some <$> st.record src st.i close true (min (close + 1) src.length)
  else return none

/-- The forms, in the order in which they are tried. -/
def forms : List Form :=
  [slashComment src syn, hashComment src syn, rubyComment src syn, rawString src syn, tripleQuoted src syn,
    doubleQuoted src syn, singleQuoted src syn, backtickQuoted src syn]

/-- The first form that is there, or one byte of code. -/
def firstForm (fs : List Form) (st : LexState) (c : UInt8) : Except Fault LexState :=
  match fs with
  | [] => .ok { st with i := st.i + 1 }
  | f :: fs => do
    match ← f st c with
    | some st' => return st'
    | none => firstForm fs st c

/-- The braces inside the innermost interpolation; nothing when it closes. -/
def countBrace (c : UInt8) : List ℕ → Option (List ℕ)
  | [] => some []
  | top :: rest =>
    if c == openBrace then some ((top + 1) :: rest)
    else if c == closeBrace then if top = 0 then none else some ((top - 1) :: rest)
    else some (top :: rest)

/-- One turn of the main loop. -/
def lexStep (st : LexState) : Except Fault LexState := do
  let c ← byteAt src st.i
  match countBrace c st.interp with
  | none => scanTemplate src { st with interp := st.interp.tail } (st.i + 1) none
  | some interp => firstForm (forms src syn) { st with interp := interp } c

/-- The main loop. -/
def lexLoop : ℕ → LexState → Except Fault LexState
  | 0, _ => .error .outOfFuel
  | fuel + 1, st => if st.i < src.length then do lexLoop fuel (← lexStep src syn st) else .ok st

end Forms

structure Lexed where
  masked : List UInt8
  strings : List StrLit

/-- `lex`. Each turn moves on, so one for each byte and one more are enough. -/
def lex (src : List UInt8) (syn : Syntax) : Except Fault Lexed := do
  let st ← lexLoop src syn (src.length + 1) { masked := src }
  return ⟨st.masked, st.strings⟩

end CodeGraph.Graph.Boundaries
