import CodeGraph.Lib.Texts
import CodeGraph.Pipeline.InFlight

/-!
# Words of an identifier

`split_identifier` and `split_identifier_tokens` of `utils/tokenizer.rs`. What the standard library's Unicode tables say
is a parameter.
-/

namespace CodeGraph.Utils

open CodeGraph.Pipeline.InFlight (isWhitespace)

/-- The standard library's tables. -/
structure Unicode where
  isUppercase : Char → Bool
  isLowercase : Char → Bool
  isAlphanumeric : Char → Bool
  /-- `str::to_lowercase`. -/
  toLowercase : List Char → List Char
  underscore : isLowercase '_' = false
  quote : isAlphanumeric '"' = false
  space : ∀ c, isWhitespace c = true → isAlphanumeric c = false

variable (U : Unicode)

/-- Whether the capital `c` closes the open word. -/
def startsWord (current : List Char) (c : Char) (rest : List Char) : Bool :=
  let lastLower := current.getLast?.any U.isLowercase
  let acronymEnd := current.getLast?.any U.isUppercase && rest.head?.any U.isLowercase
  U.isUppercase c && !current.isEmpty && (lastLower || acronymEnd)

/-- The loop of `split_identifier` over the characters that are left. -/
def splitLoop (parts : List (List Char)) (current : List Char) : List Char → List (List Char)
  | [] => if current.isEmpty then parts else parts ++ [current]
  | c :: rest =>
    if c = '_' then splitLoop (if current.isEmpty then parts else parts ++ [current]) [] rest
    else if startsWord U current c rest then splitLoop (parts ++ [current]) [c] rest
    else splitLoop parts (current ++ [c]) rest

def splitIdentifier (name : List Char) : List Char :=
  let parts := splitLoop U [] [] name
  if parts.length ≤ 1 then name else [' '].intercalate parts ++ [' '] ++ name

/-- `str::rfind`: where the last occurrence of `pat` starts. -/
def rfind (pat s : List Char) : Option ℕ :=
  (List.range (s.length + 1)).reverse.find? fun i => pat.isPrefixOf (s.drop i)

/-- `str::trim_end`. -/
def trimEnd (s : List Char) : List Char := s.rdropWhile isWhitespace

def splitIdentifierTokens (name : List Char) : List Char :=
  let full := splitIdentifier U name
  if full = name then full
  else
    match rfind name full with
    | some pos => trimEnd (full.take pos)
    | none => full

end CodeGraph.Utils
