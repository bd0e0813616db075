import CodeGraph.Plugin.ShellWords

/-!
# Top-level segments of a command

`splitTopLevelSegmentsWithSeps` of `pre-grep-guide.js`: the loop that cuts a command at `;`, newlines, `&&` and `||` and
passes over comments and the bodies of here-documents, the control words that are cut out of what it leaves, and how the
separators around empty segments are joined.
-/

namespace CodeGraph.Plugin.Shell

open CodeGraph.Lib (trim)
open CodeGraph.Lib.Quoting (apostrophe)
open CodeGraph.Plugin.Adopt (jsSpace)

/-- The separator before a segment: `''`, `;`, a newline, `&&`, `||`, or a control word. -/
inductive Sep
  | first | semicolon | newline | both | either | ctrl
  deriving DecidableEq

/-- `SEP_RANK`. -/
def Sep.rank : Sep → ℕ
  | first => 0
  | semicolon | newline => 1
  | both | either => 2
  | ctrl => 3

/-- `joinSep`. -/
def joinSep (a : Option Sep) (b : Sep) : Sep :=
  match a with
  | none => b
  | some a =>
    if a.rank = 2 ∧ b.rank = 2 ∧ a ≠ b then .ctrl
    else if a.rank < b.rank then b else a

structure Segment where
  text : List Char
  sep : Sep
  deriving DecidableEq

/-! ### Here-documents -/

/-- The loop of `readHeredocDelim`: the delimiter, and how many characters it takes. -/
def delimLoop : ℕ → List Char → ℕ → List Char → Option (List Char × ℕ)
  | _, delim, n, [] => some (delim, n)
  | skip + 1, delim, n, _ :: rest => delimLoop skip delim (n + 1) rest
  | 0, delim, n, c :: rest =>
    if jsSpace c ∨ c ∈ [';', '&', '|', '<', '>', '(', ')'] then some (delim, n)
    else if c = '$' ∧ rest.head?.any isQuote then delimLoop 0 delim (n + 1) rest
    else if isQuote c then
      let quoted := rest.takeWhile (· ≠ c)
      if quoted.length = rest.length then none
      else delimLoop (quoted.length + 1) (delim ++ quoted) (n + 1) rest
    else if c = '\\' ∧ rest ≠ [] then delimLoop 1 (delim ++ rest.take 1) (n + 1) rest
    else delimLoop 0 (delim ++ [c]) (n + 1) rest

def readHeredocDelim (text : List Char) : Option (List Char × ℕ) :=
  (delimLoop 0 [] 0 text).bind fun (delim, n) => if delim = [] then none else some (delim, n)

structure Heredoc where
  delim : List Char
  stripTabs : Bool
  deriving DecidableEq

/-- The here-document whose delimiter stands behind a `<<`, and how many characters it takes there. -/
def heredocAt (text : List Char) : Option (Heredoc × ℕ) :=
  let stripTabs := text.head? = some '-'
  let dash := if stripTabs then 1 else 0
  let blanks := ((text.drop dash).takeWhile fun c => c = ' ' ∨ c = '\t').length
  (readHeredocDelim (text.drop (dash + blanks))).map fun (delim, n) => (⟨delim, stripTabs⟩, dash + blanks + n)

/-- The lines that are left behind the body of a here-document. -/
def Heredoc.behind (h : Heredoc) (lines : List (List Char)) : List (List Char) :=
  (lines.dropWhile fun line => (if h.stripTabs then line.dropWhile (· = '\t') else line) ≠ h.delim).tail

/-- How many characters the bodies take. -/
def bodiesLength (heredocs : List Heredoc) (text : List Char) : ℕ :=
  let behind := heredocs.foldl (fun lines h => h.behind lines) (text.splitOn '\n')
  text.length - (['\n'].intercalate behind).length

/-! ### The loop -/

/-- What the loop has open: the segment, the separator before it, the quote, the `((` and the here-documents. -/
structure Cutting where
  cur : List Char
  sep : Sep
  quote : Option Char
  arith : ℕ
  heredocs : List Heredoc

namespace Cutting

def start (sep : Sep) : Cutting := ⟨[], sep, none, 0, []⟩

/-- `add`. -/
def add (s : Cutting) (text : List Char) : Cutting := { s with cur := s.cur ++ text }

/-- `cut`: the segment that ends, and what is open then. -/
def segment (s : Cutting) : Segment := ⟨s.cur, s.sep⟩

def next (s : Cutting) (sep : Sep) : Cutting := { s with cur := [], sep := sep }

/-- A `#` here starts a comment. -/
def atComment (s : Cutting) : Bool := s.cur.getLast?.all fun last => jsSpace last ∨ last = '|' ∨ last = '('

end Cutting

/-- The loop over the command. The last cut leaves no separator behind. -/
def segmentsLoop : ℕ → Cutting → List Char → List Segment
  | _, s, [] => [s.segment]
  | skip + 1, s, _ :: rest => segmentsLoop skip s rest
  | 0, s, c :: rest =>
    match s.quote with
    | some q =>
      if q = '"' ∧ c = '\\' ∧ rest ≠ [] then segmentsLoop 1 (s.add (c :: rest.take 1)) rest
      else segmentsLoop 0 { s.add [c] with quote := if c = q then none else some q } rest
    | none =>
      if c = '#' ∧ s.atComment then segmentsLoop (rest.takeWhile (· ≠ '\n')).length s rest
      else if c = '(' ∧ rest.head? = some '(' then
        segmentsLoop 1 { s.add ['(', '('] with arith := s.arith + 1 } rest
      else if c = ')' ∧ rest.head? = some ')' ∧ 0 < s.arith then
        segmentsLoop 1 { s.add [')', ')'] with arith := s.arith - 1 } rest
      else if c = '<' ∧ ['<', '<'] <+: rest then segmentsLoop 2 (s.add ['<', '<', '<']) rest
      else
        match if c = '<' ∧ rest.head? = some '<' ∧ s.arith = 0 then heredocAt rest.tail else none with
        | some (h, n) =>
          segmentsLoop (n + 1) { s.add (c :: rest.take (n + 1)) with heredocs := s.heredocs ++ [h] } rest
        | none =>
          if c = '\n' ∧ s.heredocs ≠ [] then
            s.segment :: segmentsLoop (bodiesLength s.heredocs rest) { s.next .newline with heredocs := [] } rest
          else if c = '\\' ∧ rest ≠ [] then
            segmentsLoop 1 (if rest.head? = some '\n' then s else s.add (c :: rest.take 1)) rest
          else if isQuote c then segmentsLoop 0 { s.add [c] with quote := some c } rest
          else if c = '&' ∧ rest.head? = some '&' then s.segment :: segmentsLoop 1 (s.next .both) rest
          else if c = '|' ∧ rest.head? = some '|' then s.segment :: segmentsLoop 1 (s.next .either) rest
          else if c = ';' then s.segment :: segmentsLoop 0 (s.next .semicolon) rest
          else if c = '\n' then s.segment :: segmentsLoop 0 (s.next .newline) rest
          else segmentsLoop 0 (s.add [c]) rest

/-! ### Control words -/

/-- `\b` behind what has matched. -/
def wordEnds (text : List Char) : Bool := text.head?.all fun c => !(c.isAlphanum || c = '_')

/-- `(?=\s|$)` -/
def blankNext (text : List Char) : Bool := text.head?.all jsSpace

/-- `for\s+\S+\s+in\b`, and all that is behind it. -/
def forHeader (text : List Char) : Option ℕ :=
  if ['f', 'o', 'r'] <+: text then
    let name := (text.drop 3).dropWhile jsSpace
    let behind := name.dropWhile fun c => !jsSpace c
    let word := behind.dropWhile jsSpace
    if (text.drop 3).head?.any jsSpace ∧ name ≠ [] ∧ behind ≠ [] ∧ ['i', 'n'] <+: word ∧ wordEnds (word.drop 2) then
      some text.length
    else none
  else none

/-- How many characters a control word takes here. -/
def ctrlWord (text : List Char) : Option ℕ :=
  (forHeader text).or <| ["do".toList, "done".toList, "then".toList, "fi".toList].findSome? fun w =>
    if w <+: text ∧ wordEnds (text.drop w.length) ∧ blankNext (text.drop w.length) then some w.length else none

/-- What `CTRL` leaves of a segment. `piece` is what has been read since the last control word, and `atStart` says that
nothing has. -/
def ctrlLoop : ℕ → Bool → List Char → List Char → List (List Char)
  | _, _, piece, [] => [piece]
  | skip + 1, _, piece, _ :: rest => ctrlLoop skip false piece rest
  | 0, atStart, piece, c :: rest =>
    match if atStart then ctrlWord (c :: rest) else none with
    | some n => piece :: ctrlLoop (n - 1) false [] rest
    | none =>
      match if jsSpace c then ctrlWord rest else none with
      | some n => piece :: ctrlLoop n false [] rest
      | none => ctrlLoop 0 false (piece ++ [c]) rest

/-- The pieces of a segment: the first one has its separator, and the others stand behind control words. -/
def Segment.pieces (s : Segment) : List Segment :=
  match ctrlLoop 0 true [] s.text with
  | [] => []
  | first :: others => ⟨first, s.sep⟩ :: others.map (⟨·, .ctrl⟩)

/-! ### Segments -/

/-- The last loop: empty pieces go, and their separators are joined. `first` says that nothing is written out yet. -/
def joinLoop : Bool → Option Sep → List Segment → List Segment
  | _, _, [] => []
  | first, carried, p :: rest =>
    let carried := joinSep carried p.sep
    let text := trim jsSpace p.text
    if text = [] then joinLoop first (some carried) rest
    else ⟨text, if first then .first else carried⟩ :: joinLoop false none rest

def splitTopLevelSegmentsWithSeps (cmd : List Char) : List Segment :=
  if cmd = [] then []
  else joinLoop true none ((segmentsLoop 0 (.start .first) cmd).flatMap Segment.pieces)

def splitTopLevelSegments (cmd : List Char) : List (List Char) := (splitTopLevelSegmentsWithSeps cmd).map Segment.text

end CodeGraph.Plugin.Shell
