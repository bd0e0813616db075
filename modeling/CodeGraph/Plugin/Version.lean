import Mathlib.Data.List.Basic

/-!
# Versions of the plugin

`compareVersions` of `version-utils.js`, and the version that a path into the plugin cache carries
(`cacheDirVersion` of `lifecycle.js`). `leftmost` is the search of a regular expression that opens with a literal.
-/

namespace CodeGraph.Plugin

/-! ### Order of versions -/

/-- `parseInt(text, 10)` of a text without a minus sign, `none` for `NaN`. It is exact where a double is rounded. -/
def parseInt (text : List Char) : Option ℕ :=
  let unsigned := match text.dropWhile Char.isWhitespace with
    | '+' :: rest => rest
    | rest => rest
  let digits := unsigned.takeWhile Char.isDigit
  if digits.isEmpty then none else some (digits.foldl (fun n c => 10 * n + (c.toNat - '0'.toNat)) 0)

/-- A version before and behind its first dash; a missing dash has nothing behind it, as an empty suffix has. -/
structure ParsedVersion where
  nums : List (Option ℕ)
  pre : List Char

def ParsedVersion.parse (version : String) : ParsedVersion where
  nums := ((version.toList.takeWhile (· ≠ '-')).splitOn '.').map parseInt
  pre := (version.toList.dropWhile (· ≠ '-')).tail

/-- What is compared at place `i`: missing and non-numeric parts are zero. -/
def ParsedVersion.num (v : ParsedVersion) (i : ℕ) : ℕ :=
  v.nums[i]?.join.getD 0

/-- The code units by which texts are ordered. -/
def utf16 (text : List Char) : List ℕ :=
  text.flatMap fun c =>
    if c.toNat < 0x10000 then [c.toNat] else [0xD800 + (c.toNat - 0x10000) / 0x400, 0xDC00 + c.toNat % 0x400]

def comparePre (a b : List Char) : Ordering :=
  if a ≠ [] ∧ b = [] then .lt
  else if a = [] ∧ b ≠ [] then .gt
  else if a ≠ b then if utf16 a < utf16 b then .lt else .gt
  else .eq

def compareVersions (a b : String) : Ordering :=
  let a := ParsedVersion.parse a
  let b := ParsedVersion.parse b
  (compare (a.num 0) (b.num 0)).then <| (compare (a.num 1) (b.num 1)).then <| (compare (a.num 2) (b.num 2)).then <|
    comparePre a.pre b.pre

/-- A pre-release sorts below its release. -/
example : compareVersions "1.2.3-rc1" "1.2.3" = .lt ∧ compareVersions "1.10.0" "1.9.9" = .gt := by decide +kernel

/-- What `parse` makes of the text behind the first `opening` at which it succeeds. -/
def leftmost {β : Type*} (opening : List Char) (parse : List Char → Option β) : List Char → Option β
  | [] => none
  | c :: text =>
    (if opening.isPrefixOf (c :: text) then parse ((c :: text).drop opening.length) else none).or
      (leftmost opening parse text)

/-- The rest behind `\d+\.`. -/
def digitsDot : List Char → Option (List Char)
  | c :: text =>
    if c.isDigit then
      match text.dropWhile Char.isDigit with
      | '.' :: rest => some rest
      | _ => none
    else none
  | [] => none

/-- A directory name that begins with `\d+\.\d+\.\d+`, with the slash behind it. -/
def versionSegment (text : List Char) : Option String :=
  let segment := text.takeWhile (· ≠ '/')
  match (digitsDot segment).bind digitsDot with
  | some (c :: _) => if c.isDigit ∧ segment.length < text.length then some (String.ofList segment) else none
  | _ => none

/-- The version encoded in a plugin-cache path. -/
def cacheDirVersion (scriptPath : String) : Option String :=
  leftmost "/code-graph-mcp/code-graph-mcp/".toList versionSegment
    (scriptPath.toList.map fun c => if c = '\\' then '/' else c)

example : cacheDirVersion "C:\\cache\\code-graph-mcp\\code-graph-mcp\\0.45.1\\scripts\\a.js" = some "0.45.1" := by
  decide +kernel

end CodeGraph.Plugin
