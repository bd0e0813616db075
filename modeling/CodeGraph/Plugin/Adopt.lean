import Mathlib.Data.List.DropRight
import Mathlib.Data.List.Infix

/-!
# The managed block of a project's `CLAUDE.md`

`adopt.js`: the patterns that recognise the markers of the block, `stripSentinelBlock` with its three passes, and what
`adopt` and `unadopt` do to the text of `CLAUDE.md`. The detail document and the registry of adopted projects are left
out, and so are the arms for files that cannot be read or written.

A text is a list of characters. A pattern is a function of the text behind a place, for the places at which a line
begins: all three patterns begin with `^`.
-/

namespace CodeGraph.Plugin.Adopt

/-! ### Patterns -/

/-- The characters between which a multiline pattern sees lines. -/
def lineTerminator (c : Char) : Bool :=
  c = '\n' || c = '\r' || c = Char.ofNat 0x2028 || c = Char.ofNat 0x2029

/-- `$` before the text. -/
def lineEnd : List Char → Bool
  | [] => true
  | c :: _ => lineTerminator c

/-- `^` after the text. -/
def endsLine (text : List Char) : Bool :=
  text.getLast?.any lineTerminator

/-- `[ \t]` -/
def blank (c : Char) : Bool :=
  c = ' ' || c = '\t'

/-- A match and the text behind it. -/
abbrev Match := List Char × List Char

def literal (word : List Char) (text : List Char) : Option Match :=
  if word <+: text then some (word, text.drop word.length) else none

def beginText : List Char :=
  "<!-- code-graph-mcp:begin".toList

/-- `[^>\n]*-->` -/
def commentClose : List Char → Option Match
  | '-' :: '-' :: '>' :: rest => some (['-', '-', '>'], rest)
  | c :: rest => if c = '>' || c = '\n' then none else (commentClose rest).map fun (m, rest) => (c :: m, rest)
  | [] => none

/-- `SENTINEL_BEGIN_SRC` -/
def beginSrc (text : List Char) : Option Match :=
  (literal beginText text).bind fun (m, text) => (commentClose text).map fun (close, rest) => (m ++ close, rest)

def sentinelBegin : String := "<!-- code-graph-mcp:begin v2 -->"

def sentinelEnd : String := "<!-- code-graph-mcp:end -->"

/-- `^[ \t]*marker[ \t]*$` -/
def aloneOnLine (marker : List Char → Option Match) (text : List Char) : Option Match :=
  (marker (text.dropWhile blank)).bind fun (m, rest) =>
    if lineEnd (rest.dropWhile blank) then
      some (text.takeWhile blank ++ m ++ rest.takeWhile blank, rest.dropWhile blank)
    else none

def beginLine : List Char → Option Match :=
  aloneOnLine beginSrc

def endLine : List Char → Option Match :=
  aloneOnLine (literal sentinelEnd.toList)

/-- `(?:(?!BEGIN)[\s\S])*?END_LINE`, where `atStart` says whether a line begins here. -/
def lazyBody : Bool → List Char → Option Match
  | _, [] => none
  | atStart, c :: text =>
    (if atStart then endLine (c :: text) else none).or <|
      if (beginSrc (c :: text)).isSome then none
      else (lazyBody (lineTerminator c) text).map fun (m, rest) => (c :: m, rest)

/-- A whole block, up to the end of its last line. -/
def wholeBlock (text : List Char) : Option Match :=
  (beginLine text).bind fun (m, text) => (lazyBody false text).map fun (body, rest) => (m ++ body, rest)

/-! ### What the patterns take -/

theorem takes_literal {word text m rest : List Char} (h : literal word text = some (m, rest)) :
    m = word ∧ text = m ++ rest := by
  unfold literal at h
  split at h
  case isTrue hword =>
    cases h
    exact ⟨rfl, (List.prefix_iff_eq_append.mp hword).symm⟩
  case isFalse => cases h

theorem takes_commentClose {text m rest : List Char} (h : commentClose text = some (m, rest)) :
    text = m ++ rest ∧ m ≠ [] := by
  induction text using commentClose.induct generalizing m rest with
  | case1 rest' =>
    rw [commentClose] at h
    cases h
    exact ⟨rfl, by simp⟩
  | case2 c text hne hc =>
    rw [commentClose, if_pos hc] at h
    · cases h
    · exact hne
  | case3 c text hne hc ih =>
    rw [commentClose, if_neg hc] at h
    · obtain ⟨⟨m', rest'⟩, hclose, heq⟩ := Option.map_eq_some_iff.mp h
      cases heq
      exact ⟨by rw [(ih hclose).1]; rfl, by simp⟩
    · exact hne
  | case4 => cases h

theorem takes_beginSrc {text m rest : List Char} (h : beginSrc text = some (m, rest)) :
    text = m ++ rest ∧ m ≠ [] := by
  obtain ⟨⟨word, text'⟩, hword, h⟩ := Option.bind_eq_some_iff.mp h
  obtain ⟨⟨close, rest'⟩, hclose, heq⟩ := Option.map_eq_some_iff.mp h
  cases heq
  obtain ⟨-, rfl⟩ := takes_literal hword
  obtain ⟨rfl, hne⟩ := takes_commentClose hclose
  exact ⟨by simp, by simp [hne]⟩

theorem takes_aloneOnLine {marker : List Char → Option Match}
    (hmarker : ∀ {text m rest}, marker text = some (m, rest) → text = m ++ rest ∧ m ≠ [])
    {text m rest : List Char} (h : aloneOnLine marker text = some (m, rest)) : text = m ++ rest ∧ m ≠ [] := by
  obtain ⟨⟨word, text'⟩, hword, h⟩ := Option.bind_eq_some_iff.mp h
  dsimp only at h
  split at h
  · cases h
    obtain ⟨htext, hne⟩ := hmarker hword
    constructor
    · rw [List.append_assoc, List.append_assoc, List.takeWhile_append_dropWhile, ← htext,
        List.takeWhile_append_dropWhile]
    · simp [hne]
  · cases h

theorem takes_beginLine {text m rest : List Char} (h : beginLine text = some (m, rest)) :
    text = m ++ rest ∧ m ≠ [] :=
  takes_aloneOnLine takes_beginSrc h

theorem takes_endLine {text m rest : List Char} (h : endLine text = some (m, rest)) : text = m ++ rest ∧ m ≠ [] := by
  refine takes_aloneOnLine ?_ h
  intro text m rest h
  obtain ⟨rfl, htext⟩ := takes_literal h
  exact ⟨htext, by decide⟩

theorem takes_lazyBody {atStart : Bool} {text m rest : List Char} (h : lazyBody atStart text = some (m, rest)) :
    text = m ++ rest := by
  induction text generalizing atStart m with
  | nil => cases h
  | cons c text ih =>
    rw [lazyBody, Option.or_eq_some_iff] at h
    obtain h | ⟨-, h⟩ := h
    · split at h
      · exact (takes_endLine h).1
      · cases h
    · split at h
      · cases h
      · obtain ⟨⟨m', rest'⟩, hbody, heq⟩ := Option.map_eq_some_iff.mp h
        cases heq
        rw [ih hbody]
        rfl

theorem takes_wholeBlock {text m rest : List Char} (h : wholeBlock text = some (m, rest)) : text = m ++ rest ∧ m ≠ [] := by
  obtain ⟨⟨first, text'⟩, hfirst, h⟩ := Option.bind_eq_some_iff.mp h
  obtain ⟨⟨body, rest'⟩, hbody, heq⟩ := Option.map_eq_some_iff.mp h
  cases heq
  obtain ⟨rfl, hne⟩ := takes_beginLine hfirst
  rw [takes_lazyBody hbody]
  exact ⟨by simp, by simp [hne]⟩

/-! ### The passes -/

/-- `\n?` -/
def optionalNewline : Match → Match
  | (m, '\n' :: rest) => (m ++ ['\n'], rest)
  | (m, rest) => (m, rest)

/-- A pattern with its `g` and `m` flags, but for the `\n?` at its end. What it matches is never empty, so that the guard
against zero-width matches has nothing to skip. -/
structure LinePattern where
  lines : List Char → Option Match
  takes : ∀ {text m rest}, lines text = some (m, rest) → text = m ++ rest ∧ m ≠ []

namespace LinePattern

def wellFormed : LinePattern where
  lines := wholeBlock
  takes := takes_wholeBlock

def orphanBegin : LinePattern where
  lines := beginLine
  takes := takes_beginLine

def orphanEnd : LinePattern where
  lines := endLine
  takes := takes_endLine

def run (re : LinePattern) (text : List Char) : Option Match :=
  (re.lines text).map optionalNewline

theorem takes_run {re : LinePattern} {text m rest : List Char} (h : re.run text = some (m, rest)) :
    text = m ++ rest ∧ m ≠ [] := by
  obtain ⟨⟨m', rest'⟩, hlines, heq⟩ := Option.map_eq_some_iff.mp h
  obtain ⟨rfl, hne⟩ := re.takes hlines
  unfold optionalNewline at heq
  split at heq
  case h_1 hmatch =>
    cases hmatch
    cases heq
    exact ⟨by simp, by simp⟩
  case h_2 hmatch =>
    cases hmatch
    cases heq
    exact ⟨rfl, hne⟩

/-- `re.exec`: the text up to the next match, the match, and the text behind it. -/
def exec (re : LinePattern) : Bool → List Char → Option (List Char × Match)
  | _, [] => none
  | atStart, c :: text =>
    match if atStart then re.run (c :: text) else none with
    | some m => some ([], m)
    | none => (re.exec (lineTerminator c) text).map fun (pre, m) => (c :: pre, m)

theorem takes_exec {re : LinePattern} {atStart : Bool} {text pre m rest : List Char}
    (h : re.exec atStart text = some (pre, m, rest)) : text = pre ++ m ++ rest ∧ m ≠ [] := by
  induction text generalizing atStart pre with
  | nil => cases h
  | cons c text ih =>
    rw [exec] at h
    split at h
    · rename_i hrun
      cases h
      split at hrun
      · exact takes_run hrun
      · cases hrun
    · obtain ⟨⟨pre', m'⟩, hexec, heq⟩ := Option.map_eq_some_iff.mp h
      cases heq
      obtain ⟨rfl, hne⟩ := ih hexec
      exact ⟨rfl, hne⟩

end LinePattern

/-- The loop of `stripAndHealSeams`: `out` is written and `text` begins at the cursor. -/
def stripFrom (re : LinePattern) (out : List Char) (atStart : Bool) (text : List Char) : List Char :=
  match _h : re.exec atStart text with
  | none => out ++ text
  | some (pre, m, rest) =>
    let out := out ++ pre
    let before := (out.rtakeWhile (· = '\n')).length
    let after := (rest.takeWhile (· = '\n')).length
    if before + after > 2 then
      stripFrom re (out.rdropWhile (· = '\n') ++ ['\n', '\n']) (0 < after || endsLine m) (rest.dropWhile (· = '\n'))
    else stripFrom re out (endsLine m) rest
termination_by text.length
decreasing_by
  all_goals
    obtain ⟨rfl, hne⟩ := LinePattern.takes_exec _h
    have hpos : 0 < m.length := List.length_pos_iff.mpr hne
    simp only [List.length_append]
  · have hdrop : (rest.dropWhile (· = '\n')).length ≤ rest.length := List.length_dropWhile_le _ _
    omega
  · omega

def stripAndHealSeams (text : List Char) (re : LinePattern) : List Char :=
  stripFrom re [] true text

def stripSentinelBlock (text : List Char) : List Char :=
  let out := stripAndHealSeams text .wellFormed
  let out := stripAndHealSeams out .orphanBegin
  if sentinelEnd.toList <:+: out then stripAndHealSeams out .orphanEnd else out

/-! ### The block -/

inductive ProjectType
  | rust | webRs | webNode | webPy | webGo | frontend | python | go | node | generic
  deriving DecidableEq, Repr

def blockHeading : String := "## Code Graph (repo-wide AST index)"

def buildTriggerRows (projectType : ProjectType) : List (String × String) :=
  let base := [
    ("Who calls X / what X calls", "`code-graph-mcp callgraph X`"),
    ("Impact before changing a signature", "`code-graph-mcp impact X`"),
    ("Tests to re-run after changing files", "`code-graph-mcp affected <files>`"),
    ("Rename / remove audit", "`code-graph-mcp refs X`, then `grep -w X`"),
    ("Unfamiliar dir / module", "`code-graph-mcp overview <dir>`"),
    ("Symbol source / signature", "`code-graph-mcp show X`"),
    ("Concept search (no exact name)", "`code-graph-mcp search \"…\"` (vector: MCP `semantic_code_search`)"),
    ("grep + AST context", "`code-graph-mcp grep \"pat\" [paths] [-t lang] [-g glob] [-c]`")]
  match projectType with
  | .webRs | .webNode | .webPy | .webGo =>
    base.take 2 ++ [("HTTP route → handler chain", "`code-graph-mcp trace \"GET /api/x\"`")] ++ base.drop 2
  | _ => base

/-- The lines between the markers. -/
def blockBody (projectType : ProjectType) : List String :=
  let rows := (buildTriggerRows projectType).map fun (intent, cmd) => "| " ++ intent ++ " | " ++ cmd ++ " |"
  let table := ["| Intent | Command |", "|--------|---------|"] ++ rows
  [blockHeading,
    "",
    "Parsed index of the whole repo. For structural questions — who calls X, what a",
    "change breaks, every use of a symbol — one call replaces rounds of Grep + Read:",
    ""] ++ table ++ [
    "",
    "Unresolved calls (dynamic dispatch, reflection, unresolved imports) leave no edge, so",
    "an empty answer is not proof: confirm with grep before deleting or renaming.",
    "Still use Grep for literal strings/regex in non-code files; still Read files you'll edit.",
    "Full command + MCP-tool table: `.claude/plugin_code_graph_mcp.md`"]

def buildBlock (projectType : ProjectType) : String :=
  sentinelBegin ++ "\n" ++ "\n".intercalate (blockBody projectType) ++ "\n" ++ sentinelEnd

/-! ### Adopting and unadopting -/

/-- The `CLAUDE.md` of a project: its text, if there is one, and whether the path is a symbolic link. -/
structure ClaudeMd where
  text : Option (List Char)
  symlink : Bool

/-- The characters that `trim` takes off the ends of a text. -/
def jsSpace (c : Char) : Bool :=
  lineTerminator c || c = ' ' || c = '\t' || c.toNat ∈ [0x0B, 0x0C, 0xA0, 0x1680, 0x202F, 0x205F, 0x3000, 0xFEFF] ||
    (0x2000 ≤ c.toNat && c.toNat ≤ 0x200A)

/-- `text.trim() === ''` -/
def isBlank (text : List Char) : Bool :=
  text.all jsSpace

def trimNewlines (text : List Char) : List Char :=
  text.rdropWhile (· = '\n')

def adopt (projectType : ProjectType) (f : ClaudeMd) : ClaudeMd :=
  let block := (buildBlock projectType).toList
  if block <:+: f.text.getD [] then f
  else
    let cleaned := (f.text.map stripSentinelBlock).getD []
    let base := trimNewlines cleaned
    let lead := if base = [] then [] else base ++ ['\n', '\n']
    { f with text := some (lead ++ block ++ ['\n']) }

/-- A `CLAUDE.md` that could have been created here is removed once it is blank; a linked one is written through. -/
def unadopt (f : ClaudeMd) : ClaudeMd :=
  match f.text with
  | none => f
  | some before =>
    let after := stripSentinelBlock before
    if after = before then f
    else if isBlank after && !f.symlink then { f with text := none }
    else { f with text := some after }

end CodeGraph.Plugin.Adopt
