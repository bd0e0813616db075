import Mathlib.Data.List.Basic

/-!
# Splitting a command line

A shell reads a command line in two steps. `lex` tells the bytes apart: what stands between single quotes is
literal, a backslash outside them escapes one byte, and an unquoted blank ends a word. `splitWords` then puts the
words together out of the pieces. A byte that is neither blank, quote nor backslash is `Token.plain`, whatever it
would start in a shell; that none of them starts anything is left to say about the tokens.

`quotedTokens` are the tokens of a word in single quotes whose own quotes are written as close, escaped quote, open.
-/

namespace CodeGraph.Lib.Shell

def quote : UInt8 := 39
def backslash : UInt8 := 92
def space : UInt8 := 32

/-- A space or a tab. -/
def blank (b : UInt8) : Bool := b == space || b == 9

inductive Token
  | blank
  | plain (b : UInt8)
  | escape (b : UInt8)
  | quoted (text : List UInt8)
  deriving DecidableEq, Repr

/-- Where the lexer stands: inside quotes, with what has been read since they opened; or after a backslash. -/
inductive Mode
  | outside
  | quoted (text : List UInt8)
  | escaped

/-- The tokens of a command line. Quotes that stay open and a backslash at the end have none. -/
def lex : Mode → List UInt8 → Option (List Token)
  | .outside, [] => some []
  | .quoted _, [] => none
  | .escaped, [] => none
  | .outside, b :: rest =>
    if b = quote then lex (.quoted []) rest
    else if b = backslash then lex .escaped rest
    else (lex .outside rest).map ((if blank b then Token.blank else Token.plain b) :: ·)
  | .quoted text, b :: rest =>
    if b = quote then (lex .outside rest).map (Token.quoted text :: ·) else lex (.quoted (text ++ [b])) rest
  | .escaped, b :: rest => (lex .outside rest).map (Token.escape b :: ·)

/-- The words that tokens spell. The first argument is the word that is open. -/
def words : Option (List UInt8) → List Token → List (List UInt8)
  | none, [] => []
  | some word, [] => [word]
  | none, .blank :: rest => words none rest
  | some word, .blank :: rest => word :: words none rest
  | word, .plain b :: rest => words (some (word.getD [] ++ [b])) rest
  | word, .escape b :: rest => words (some (word.getD [] ++ [b])) rest
  | word, .quoted text :: rest => words (some (word.getD [] ++ text)) rest

/-- The words of a command line. -/
def splitWords (line : List UInt8) : Option (List (List UInt8)) := (lex .outside line).map (words none)

/-- The tokens of `'text word'`, of which `text` has been read. -/
def quotedTokens : List UInt8 → List UInt8 → List Token
  | text, [] => [.quoted text]
  | text, b :: rest =>
    if b = quote then .quoted text :: .escape quote :: quotedTokens [] rest else quotedTokens (text ++ [b]) rest

variable {b : UInt8} {w text rest : List UInt8} {open? : Option (List UInt8)} {ts : List Token}

/-! ### What is read -/

theorem lex_outside_cons : lex .outside (b :: rest) =
    if b = quote then lex (.quoted []) rest
    else if b = backslash then lex .escaped rest
    else (lex .outside rest).map ((if blank b then Token.blank else Token.plain b) :: ·) := rfl

theorem lex_quoted_cons : lex (.quoted text) (b :: rest) =
    if b = quote then (lex .outside rest).map (Token.quoted text :: ·) else lex (.quoted (text ++ [b])) rest := rfl

theorem lex_escaped_cons : lex .escaped (b :: rest) = (lex .outside rest).map (Token.escape b :: ·) := rfl

theorem lex_plain (hq : b ≠ quote) (hs : b ≠ backslash) (hb : blank b = false) :
    lex .outside (b :: rest) = (lex .outside rest).map (Token.plain b :: ·) := by
  rw [lex_outside_cons, if_neg hq, if_neg hs, hb]
  rfl

theorem lex_space : lex .outside (space :: rest) = (lex .outside rest).map (Token.blank :: ·) := by
  rw [lex_outside_cons, if_neg (by decide), if_neg (by decide)]
  rfl

/-- A bare word. -/
theorem lex_bare (h : ∀ b ∈ w, b ≠ quote ∧ b ≠ backslash ∧ blank b = false) :
    lex .outside (w ++ rest) = (lex .outside rest).map (w.map Token.plain ++ ·) := by
  induction w with
  | nil => simp
  | cons b w ih =>
    obtain ⟨hq, hs, hb⟩ := h b (by simp)
    rw [List.cons_append, lex_plain hq hs hb, ih fun c hc => h c (by simp [hc]), Option.map_map]
    rfl

/-- A quoted word: a quote in it closes, is escaped and opens again. -/
theorem lex_quoted : lex (.quoted text)
      (w.flatMap (fun b => if b = quote then [quote, backslash, quote, quote] else [b]) ++ quote :: rest) =
    (lex .outside rest).map (quotedTokens text w ++ ·) := by
  induction w generalizing text with
  | nil =>
    rw [List.flatMap_nil, List.nil_append, lex_quoted_cons, if_pos rfl]
    rfl
  | cons b w ih =>
    rw [List.flatMap_cons, List.append_assoc, quotedTokens]
    by_cases hb : b = quote
    · have hopen := @ih []
      generalize w.flatMap _ ++ quote :: rest = tail at hopen ⊢
      rw [if_pos hb, if_pos hb]
      show lex (.quoted text) (quote :: backslash :: quote :: quote :: tail) = _
      rw [lex_quoted_cons, if_pos rfl, lex_outside_cons, if_neg (by decide), if_pos rfl, lex_escaped_cons,
        lex_outside_cons, if_pos rfl, hopen, Option.map_map, Option.map_map]
      rfl
    · rw [if_neg hb, if_neg hb]
      show lex (.quoted text) (b :: _) = _
      rw [lex_quoted_cons, if_neg hb]
      exact ih

/-! ### What is spelled -/

theorem words_bare (hw : w ≠ [] ∨ open?.isSome) :
    words open? (w.map Token.plain ++ ts) = words (some (open?.getD [] ++ w)) ts := by
  induction w generalizing open? with
  | nil =>
    cases open? with
    | none => simp at hw
    | some word => simp
  | cons b w ih =>
    rw [List.map_cons, List.cons_append, words, ih (.inr rfl)]
    simp

theorem words_quotedTokens :
    words open? (quotedTokens text w ++ ts) = words (some (open?.getD [] ++ text ++ w)) ts := by
  induction w generalizing text open? with
  | nil =>
    show words open? (.quoted text :: ts) = _
    rw [words, List.append_nil]
  | cons b w ih =>
    rw [quotedTokens]
    by_cases hb : b = quote
    · rw [if_pos hb, List.cons_append, List.cons_append, words, words, ih, hb]
      simp
    · rw [if_neg hb, ih]
      simp

/-- A word in quotes holds no other tokens than quoted text and escaped quotes. -/
theorem mem_quotedTokens {t : Token} (h : t ∈ quotedTokens text w) : t = .escape quote ∨ ∃ s, t = .quoted s := by
  induction w generalizing text with
  | nil => exact .inr ⟨text, List.mem_singleton.mp h⟩
  | cons b w ih =>
    rw [quotedTokens] at h
    split_ifs at h with hb
    · rcases List.mem_cons.mp h with rfl | h
      · exact .inr ⟨text, rfl⟩
      · rcases List.mem_cons.mp h with rfl | h
        · exact .inl rfl
        · exact ih h
    · exact ih h

end CodeGraph.Lib.Shell
