import CodeGraph.Plugin.Portable

/-!
# Whether a pattern can match nothing

`matchesEmpty` of the search hook, a recursive descent over the code units of a pattern. A call is bounded by fuel, of
which every call takes one.
-/

namespace CodeGraph.Plugin.Patterns

/-- A code unit of a string: a character, or one half of one. Nothing here looks at the halves. -/
inductive CodeUnit
  | char (c : Char)
  | half
  deriving DecidableEq

def unitsOf (c : Char) : List CodeUnit := if c.toNat < 0x10000 then [.char c] else [.half, .half]

def units (text : List Char) : List CodeUnit := text.flatMap unitsOf

/-! ### Brackets and counts -/

/-- The loop of `bracketEnd`. -/
def unitBracketLoop : List CodeUnit → Option ℕ
  | [] => none
  | u :: rest =>
    if u = .char ']' then some 0
    else if u = .char '\\' ∨ u = .char '[' then none
    else if u ∈ [.char '&', .char '-', .char '~'] ∧ rest.head? = some u then none
    else (unitBracketLoop rest).map (· + 1)

/-- `bracketEnd`, counted from behind the `[`. -/
def unitBracketEnd (text : List CodeUnit) : Option ℕ :=
  let j := if text.head? = some (.char '^') then 1 else 0
  if (text.drop j).head? = some (.char ']') then none else (unitBracketLoop (text.drop j)).map (j + ·)

def unitDigit : CodeUnit → Bool
  | .char c => digit c
  | .half => false

/-- What `(\d+)(?:,\d*)?\}` finds behind a `{`: whether the first number is zero, and how many units it takes. -/
def unitCount (text : List CodeUnit) : Option (Bool × ℕ) :=
  let least := text.takeWhile unitDigit
  let zero := least.all fun u => u = .char '0'
  if least = [] then none
  else match text.dropWhile unitDigit with
    | .char '}' :: _ => some (zero, least.length + 1)
    | .char ',' :: rest =>
      let most := rest.takeWhile unitDigit
      match rest.dropWhile unitDigit with
      | .char '}' :: _ => some (zero, least.length + most.length + 2)
      | _ => none
    | _ => none

/-! ### The descent -/

/-- What is left of the pattern, and `bad`. -/
structure Place where
  rest : List CodeUnit
  bad : Bool

/-- The loop over the quantifiers behind an atom, with the units still to pass over. -/
def quantifiers : ℕ → Bool → List CodeUnit → Bool × List CodeUnit
  | _, empty, [] => (empty, [])
  | skip + 1, empty, _ :: rest => quantifiers skip empty rest
  | 0, empty, u :: rest =>
    if u = .char '*' ∨ u = .char '?' then quantifiers 0 true rest
    else if u = .char '+' then quantifiers 0 empty rest
    else match if u = .char '{' then unitCount rest else none with
      | some (zero, n) => quantifiers n (empty || zero) rest
      | none => (empty, u :: rest)

/-- An atom but for a group. -/
def simpleAtom (p : Place) : Bool × Place :=
  match p.rest with
  | .char '\\' :: rest =>
    (rest.head?.all fun n => n ∈ [.char 'b', .char 'B', .char '<', .char '>'], { p with rest := rest.tail })
  | .char '[' :: rest =>
    match unitBracketEnd rest with
    | none => (true, ⟨[], true⟩)
    | some n => (false, { p with rest := rest.drop (n + 1) })
  | u => (u.head?.any fun c => c = .char '^' ∨ c = .char '$', { p with rest := u.tail })

mutual

/-- `alt` -/
def alt : ℕ → Place → Option (Bool × Place)
  | 0, _ => none
  | fuel + 1, p => (seq fuel true p).bind fun (any, p) => bars fuel any p

/-- The loop of `alt`. -/
def bars : ℕ → Bool → Place → Option (Bool × Place)
  | 0, _, _ => none
  | fuel + 1, any, p =>
    if p.rest.head? = some (.char '|') then
      (seq fuel true { p with rest := p.rest.tail }).bind fun (more, p) => bars fuel (more || any) p
    else some (any, p)

/-- The loop of `seq`. -/
def seq : ℕ → Bool → Place → Option (Bool × Place)
  | 0, _, _ => none
  | fuel + 1, all, p =>
    if p.rest = [] ∨ p.rest.head? = some (.char '|') ∨ p.rest.head? = some (.char ')') then some (all, p)
    else
      (atom fuel p).bind fun (empty, p) =>
        let (empty, rest) := quantifiers 0 empty p.rest
        seq fuel (all && empty) { p with rest := rest }

/-- `atom` -/
def atom : ℕ → Place → Option (Bool × Place)
  | 0, _ => none
  | fuel + 1, p =>
    if p.rest.head? = some (.char '(') then
      (alt fuel { p with rest := p.rest.tail }).map fun (inner, p) =>
        (inner, ⟨p.rest.tail, p.bad || p.rest.head? ≠ some (.char ')')⟩)
    else some (simpleAtom p)

end

/-- `matchesEmpty` with fuel for every call. -/
def matchesEmpty (pattern : List Char) : Option Bool :=
  (alt (3 * (units pattern).length + 3) ⟨units pattern, false⟩).map fun (empty, p) =>
    p.bad || !p.rest.isEmpty || empty

end CodeGraph.Plugin.Patterns
