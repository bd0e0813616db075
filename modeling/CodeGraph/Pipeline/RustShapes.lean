import CodeGraph.Lib.Sweep
import CodeGraph.Pipeline.CargoNames
import CodeGraph.Storage.PathUnder

/-!
# The shapes of Rust functions

What the resolver reads off a Rust function's signature, its name and its lines (`pipeline/resolve.rs`): whether it
takes `self`, how many parameters it has, and whether it belongs to an `impl` or `trait` block. Texts are lists of
characters, and `char::is_alphanumeric` is a parameter.
-/

namespace CodeGraph.Pipeline.RustShapes

open CodeGraph.Lib
open CodeGraph.Pipeline.InFlight (isWhitespace)
open CodeGraph.Pipeline.CargoNames (trimStart lastPart)
open CodeGraph.Storage (stripPrefix)

/-! ### The receiver -/

section Receiver

variable (isAlphanumeric : Char → Bool)

def wordChar (c : Char) : Bool := isAlphanumeric c || c = '_'

def mutWord : List Char := ['m', 'u', 't']

def selfWord : List Char := ['s', 'e', 'l', 'f']

/-- What is behind `&` and a lifetime. -/
def behindBorrow (rest : List Char) : List Char :=
  match rest with
  | '&' :: r =>
    let rest := trimStart r
    if rest.head? = some (Char.ofNat 39) then trimStart (rest.tail.dropWhile (wordChar isAlphanumeric)) else rest
  | _ => rest

def behindMut (rest : List Char) : List Char :=
  match stripPrefix mutWord rest with
  | some r => if r.head?.any isWhitespace then trimStart r else rest
  | none => rest

/-- `rust_signature_takes_self` -/
def rustSignatureTakesSelf (signature : List Char) : Bool :=
  match trimStart signature with
  | '(' :: rest =>
    (stripPrefix selfWord (behindMut (behindBorrow isAlphanumeric (trimStart rest)))).any fun r =>
      !r.head?.any (wordChar isAlphanumeric)
  | _ => false

end Receiver

/-! ### The number of parameters -/

/-- `checked_sub`; `none` is the panic of a plain subtraction. -/
def checkedSub (a b : ℕ) : Option ℕ := if b ≤ a then some (a - b) else none

/-- The variables of the loop in `rust_signature_param_count`. -/
structure Count where
  depth : ℕ
  commas : ℕ
  prev : Char
  lastNonSpace : Char
  deriving DecidableEq

namespace Count

/-- `(0, 0, '(')`, and `'('` -/
def start : Count := ⟨0, 0, '(', '('⟩

/-- What the end of the loop's body does. -/
def after (st : Count) (c : Char) : Count :=
  { st with prev := c, lastNonSpace := if isWhitespace c then st.lastNonSpace else c }

/-- What is returned at the end of the list. -/
def close (st : Count) : ℕ :=
  if st.lastNonSpace = '(' then 0 else st.commas + if st.lastNonSpace ≠ ',' then 1 else 0

end Count

/-- The loop. The outer `none` is a subtraction that goes below zero. -/
def countLoop (st : Count) : List Char → Option (Option ℕ)
  | [] => some none
  | c :: rest =>
    if c ∈ ['(', '[', '{', '<'] then countLoop ({ st with depth := st.depth + 1 }.after c) rest
    else if c = '>' ∧ st.prev = '-' then countLoop (st.after c) rest
    else if c ∈ [')', ']', '}', '>'] ∧ 0 < st.depth then
      match checkedSub st.depth 1 with
      | some depth => countLoop ({ st with depth := depth }.after c) rest
      | none => none
    else if c = ')' then some (some st.close)
    else if c = ',' ∧ st.depth = 0 then countLoop ({ st with commas := st.commas + 1 }.after c) rest
    else if c ∈ ['#', '.'] ∧ st.depth = 0 then some none
    else countLoop (st.after c) rest

/-- `signature.contains("//") || signature.contains("/*")` -/
def hasComment (signature : List Char) : Bool :=
  decide (['/', '/'] <:+: signature) || decide (['/', '*'] <:+: signature)

/-- `rust_signature_param_count` -/
def rustSignatureParamCount (signature : List Char) : Option (Option ℕ) :=
  if hasComment signature then some none
  else
    match trimStart signature with
    | '(' :: rest => countLoop .start rest
    | _ => some none

/-! ### The shape of a function -/

/-- `RustFnShape` -/
structure RustFnShape where
  takesSelf : Bool
  params : Option ℕ
  associated : Bool
  lowercaseOwner : Option (List Char)
  cratePrivateDir : Option (List Char)
  deriving DecidableEq

/-- `split_once("> ")` -/
def splitOnceClosing : List Char → Option (List Char × List Char)
  | '>' :: ' ' :: rest => some ([], rest)
  | c :: rest => (splitOnceClosing rest).map fun x => (c :: x.1, x.2)
  | [] => none

/-- `rust_blanket_signature` -/
def rustBlanketSignature (signature : List Char) : Option (List Char) × List Char :=
  match signature with
  | '<' :: s =>
    match splitOnceClosing s with
    | some (param, rest) => (some param, rest)
    | none => (none, signature)
  | _ => (none, signature)

/-- `rust_fn_owner` -/
def rustFnOwner (qualifiedName : Option (List Char)) : Option (List Char) :=
  (qualifiedName.bind CargoNames.rsplitOnce).map fun x => lastPart x.1

section Shapes

variable (isAlphanumeric : Char → Bool)

/-- `rust_fn_shape` -/
def rustFnShape (signature qualifiedName : Option (List Char)) : RustFnShape :=
  let signature := signature.map fun s => (rustBlanketSignature s).2
  let takesSelf := signature.any (rustSignatureTakesSelf isAlphanumeric)
  let owner := rustFnOwner qualifiedName
  { takesSelf
    params := signature.bind fun s => (rustSignatureParamCount s).join
    associated := takesSelf || owner.isSome
    lowercaseOwner := owner.filter fun owner => owner.head?.any Char.isLower
    cratePrivateDir := none }

def srcSlash : List Char := ['s', 'r', 'c', '/']

def binSlash : List Char := ['b', 'i', 'n', '/']

/-- `str::rfind` -/
def rfind (w s : List Char) : Option ℕ := (List.range (s.length + 1)).reverse.find? fun i => w <+: s.drop i

/-- `rust_lib_dir` -/
def rustLibDir (path : List Char) : Option (List Char) :=
  (if srcSlash <+: path then some 0 else (rfind ('/' :: srcSlash) path).map (· + 1)).bind fun at_ =>
    if binSlash <+: path.drop (at_ + 4) then none else some (path.take (at_ + 4))

def pubWord : List Char := ['p', 'u', 'b']

/-- `rust_fn_crate_private` -/
def rustFnCratePrivate (code : List Char) (associated : Bool) : Bool :=
  match stripPrefix pubWord (trimStart code) with
  | some rest =>
    if rest.head?.any fun c => isWhitespace c || c = '(' then (trimStart rest).head? = some '(' else !associated
  | none => !associated

/-- `RustFnRow` -/
structure RustFnRow where
  id : ℤ
  signature : Option (List Char)
  qualifiedName : Option (List Char)
  lines : ℕ × ℕ
  code : List Char
  deriving DecidableEq

def RustFnRow.owner (row : RustFnRow) : Option (List Char) := rustFnOwner row.qualifiedName

/-- `by_owner.entry(owner).or_default().push(row)` -/
def pushRow (row : RustFnRow) (owner : List Char) :
    List (List Char × List RustFnRow) → List (List Char × List RustFnRow)
  | [] => [(owner, [row])]
  | (key, group) :: groups =>
    if key = owner then (key, group ++ [row]) :: groups else (key, group) :: pushRow row owner groups

/-- `by_owner` -/
def groupsByOwner (rows : List RustFnRow) : List (List Char × List RustFnRow) :=
  rows.foldl (fun groups row => match row.owner with
    | some owner => pushRow row owner groups
    | none => groups) []

/-- The rows of a group that the loop over it finds nested, by their ids. -/
def nestedIn (group : List RustFnRow) : List ℤ :=
  (inside RustFnRow.lines [] (sortByKey (fun row => sweepKey row.lines) group)).map RustFnRow.id

/-- `nested` -/
def nestedIds (rows : List RustFnRow) : List ℤ :=
  ((groupsByOwner rows).filter fun g => 1 < g.2.length).flatMap fun g => nestedIn g.2

/-- What becomes of a row, nested or not. -/
def shapeOfRow (libDir : Option (List Char)) (nested : Bool) (row : RustFnRow) : RustFnShape :=
  let shape := rustFnShape isAlphanumeric row.signature row.qualifiedName
  let shape := if nested && !shape.takesSelf then { shape with associated := false, lowercaseOwner := none } else shape
  if rustFnCratePrivate row.code shape.associated then { shape with cratePrivateDir := libDir } else shape

/-- `rust_fn_shapes_of_file` -/
def rustFnShapesOfFile (path : List Char) (rows : List RustFnRow) : List (ℤ × RustFnShape) :=
  rows.map fun row =>
    (row.id, shapeOfRow isAlphanumeric (rustLibDir path) (decide (row.id ∈ nestedIds rows)) row)

end Shapes

end CodeGraph.Pipeline.RustShapes
