import CodeGraph.Lib.Texts
import CodeGraph.Lib.Words
import CodeGraph.Pipeline.InFlight

/-!
# The names a Cargo manifest declares

`parse_cargo_names` reads the crate names off a manifest line by line (`pipeline/resolve.rs`). Texts are lists of
characters.
-/

namespace CodeGraph.Pipeline.CargoNames

open CodeGraph.Lib (trim split)
open CodeGraph.Pipeline.InFlight (isWhitespace)

/-- `CargoNames` -/
structure Names where
  package : Option (List Char)
  lib : Option (List Char)
  renames : List (List Char × List Char)
  unreadable : Bool

/-- `CargoNames::default` -/
def Names.default : Names := ⟨none, none, [], false⟩

/-- `str::lines`: a carriage return before the end of a line goes with it. -/
def lines (text : List Char) : List (List Char) :=
  let pieces := split ['\n'] text
  pieces.dropLast.map (fun piece => if piece.getLast? = some '\r' then piece.dropLast else piece) ++
    (pieces.getLast?.filter (!·.isEmpty)).toList

/-- `trim_start` -/
def trimStart (s : List Char) : List Char := s.dropWhile isWhitespace

/-- `value.replace('-', "_")` -/
def dashed (value : List Char) : List Char := value.map fun c => if c = '-' then '_' else c

abbrev quoteMarks : List Char := ['"', Char.ofNat 39]

/-- The closure `literal` -/
def literal (rest : List Char) : Option (List Char) :=
  match trimStart rest with
  | '=' :: rest =>
    match trimStart rest with
    | quote :: rest =>
      if quote ∉ quoteMarks then none
      else
        let value := rest.takeWhile (· ≠ quote)
        if value = [] then none else some (dashed value)
    | [] => none
  | _ => none

/-- What is behind the last dot of `t`, or all of it. -/
def lastPart (t : List Char) : List Char := t.rtakeWhile (· ≠ '.')

/-- `t.rsplit_once('.')` -/
def rsplitOnce (t : List Char) : Option (List Char × List Char) :=
  if '.' ∈ t then some ((t.rdropWhile (· ≠ '.')).dropLast, lastPart t) else none

def depTables : List (List Char) :=
  ["dependencies".toList, "dev-dependencies".toList, "build-dependencies".toList]

/-- The closure `is_deps` -/
def isDeps (t : List Char) : Bool := lastPart t ∈ depTables

def packageWord : List Char := ['p', 'a', 'c', 'k', 'a', 'g', 'e']

def libWord : List Char := ['l', 'i', 'b']

def nameWord : List Char := ['n', 'a', 'm', 'e']

/-- What is behind the first `package` that a brace, a comma or white space stands before and `=` behind. The first
argument is the character before. -/
def behindPackage : Option Char → List Char → Option (List Char)
  | _, [] => none
  | before, c :: rest =>
    if packageWord <+: c :: rest ∧ before.any (fun b => b = '{' || b = ',' || isWhitespace b) ∧
        (trimStart ((c :: rest).drop 7)).head? = some '=' then
      some ((c :: rest).drop 7)
    else behindPackage (some c) rest

/-- `line.split(|c| c == '=' || c.is_whitespace()).next()` -/
def keyOf (line : List Char) : List Char := line.takeWhile fun c => !(c = '=' || isWhitespace c)

/-- What a line adds to the names. -/
inductive Found
  | package (name : List Char)
  | lib (name : List Char)
  | rename (key package : List Char)
  | unreadable
  deriving DecidableEq

def Names.add (names : Names) : Found → Names
  | .package name => { names with package := some name }
  | .lib name => { names with lib := some name }
  | .rename key package => { names with renames := names.renames ++ [(key, package)] }
  | .unreadable => { names with unreadable := true }

/-- The arms of the `match` on the table `t` that a key/value line is in: what is made of a literal, and where on the
line the literal is looked for. -/
def sought (t line : List Char) : Option ((List Char → Found) × List Char) :=
  let key := keyOf line
  if t = packageWord ∨ t = libWord then
    if key = nameWord then some (if t = packageWord then .package else .lib, line.drop 4) else none
  else if isDeps t then
    (behindPackage none (line.dropWhile (· ≠ '{'))).map fun rest => (.rename (dashed key), rest)
  else
    match rsplitOnce t with
    | none => none
    | some (deps, dep) =>
      if isDeps deps ∧ key = packageWord then some (.rename (dashed (trim isWhitespace dep)), line.drop 7) else none

/-- A key that names the package or the library before any header. -/
def topLevelName (key : List Char) : Prop :=
  key = libWord ∨ key = packageWord ∨ libWord ++ ['.'] <+: key ∨ packageWord ++ ['.'] <+: key

instance (key : List Char) : Decidable (topLevelName key) := by
  unfold topLevelName
  infer_instance

/-- What a key/value line adds. -/
def foundIn (table : Option (List Char)) (line : List Char) : Option Found :=
  match table with
  | none => if topLevelName (keyOf line) then some .unreadable else none
  | some t => (sought t line).map fun look => ((literal look.2).map look.1).getD .unreadable

def isBracket (c : Char) : Bool := c = '[' || c = ']'

/-- The table that a header line opens. -/
def tableOf (line : List Char) : List Char := trim isWhitespace (trim isBracket line)

/-- One turn of the loop over the lines. -/
def readLine (state : Option (List Char) × Names) (line : List Char) : Option (List Char) × Names :=
  let line := trim isWhitespace line
  if line = [] ∨ line.head? = some '#' then state
  else if line.head? = some '[' then (some (tableOf line), state.2)
  else (state.1, ((foundIn state.1 line).map state.2.add).getD state.2)

/-- `parse_cargo_names` -/
def parseCargoNames (text : List Char) : Names := ((lines text).foldl readLine (none, .default)).2

end CodeGraph.Pipeline.CargoNames
