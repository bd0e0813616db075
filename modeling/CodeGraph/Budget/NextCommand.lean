import CodeGraph.Lib.Shell

/-!
# The command that returns what was left out

`NextCommand` of `budget.rs`, with its `Display`. A word is its bytes.
-/

namespace CodeGraph.Budget

open CodeGraph.Lib

/-- A command line. -/
structure NextCommand where
  words : List (List UInt8)

/-- `u8::is_ascii_alphanumeric`. -/
def isAsciiAlphanumeric (b : UInt8) : Bool :=
  decide (48 ≤ b ∧ b ≤ 57) || decide (65 ≤ b ∧ b ≤ 90) || decide (97 ≤ b ∧ b ≤ 122)

/-- The bytes of a word that needs no quotes. -/
def safeByte (b : UInt8) : Bool :=
  isAsciiAlphanumeric b || ['_', '-', '.', '/', ':', '=', '@', '+', ','].any fun c => b == c.toUInt8

/-- `shell_word`. -/
def shellWord (w : List UInt8) : List UInt8 :=
  if !w.isEmpty && w.all safeByte then w
  else
    Shell.quote ::
      (w.flatMap (fun b =>
        if b = Shell.quote then [Shell.quote, Shell.backslash, Shell.quote, Shell.quote] else [b]) ++ [Shell.quote])

/-- `NextCommand::fmt`. -/
def NextCommand.fmt (c : NextCommand) : List UInt8 := [Shell.space].intercalate (c.words.map shellWord)

end CodeGraph.Budget
