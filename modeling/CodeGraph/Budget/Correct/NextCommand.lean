import CodeGraph.Budget.NextCommand

/-!
# A suggested command survives the shell

`lex_shellWord` and `words_shellTokens` say what a shell reads of one word; `fmt_survives` puts them together over a
command, by the words in it.
-/

namespace CodeGraph.Budget

open CodeGraph.Lib Shell

variable {b : UInt8} {w rest : List UInt8} {ts : List Token}

/-- Nothing is active in a shell: a blank, a safe byte, an escaped quote, or text in quotes. -/
def Inert (t : Token) : Prop :=
  t = .blank ∨ (∃ b, t = .plain b ∧ safeByte b = true) ∨ t = .escape quote ∨ ∃ text, t = .quoted text

/-- A safe byte is none of those the lexer looks for. -/
theorem plain_of_safeByte (h : safeByte b = true) : b ≠ quote ∧ b ≠ backslash ∧ blank b = false := by
  have hne : ∀ c : UInt8, safeByte c = false → b ≠ c := by
    rintro c hc rfl
    rw [hc] at h
    cases h
  refine ⟨hne quote (by decide), hne backslash (by decide), ?_⟩
  rw [blank, Bool.or_eq_false_iff, beq_eq_false_iff_ne, beq_eq_false_iff_ne]
  exact ⟨hne space (by decide), hne 9 (by decide)⟩

/-! ### One word -/

/-- The tokens of a word. -/
def shellTokens (w : List UInt8) : List Token :=
  if !w.isEmpty && w.all safeByte then w.map .plain else quotedTokens [] w

theorem lex_shellWord : lex .outside (shellWord w ++ rest) = (lex .outside rest).map (shellTokens w ++ ·) := by
  unfold shellWord shellTokens
  split_ifs with hsafe
  · rw [Bool.and_eq_true, List.all_eq_true] at hsafe
    exact lex_bare fun b hb => plain_of_safeByte (hsafe.2 b hb)
  · rw [List.cons_append, List.append_assoc, lex, if_pos rfl]
    exact lex_quoted

theorem words_shellTokens : words none (shellTokens w ++ ts) = words (some w) ts := by
  unfold shellTokens
  split_ifs with hsafe
  · have hne : w ≠ [] := by
      rintro rfl
      cases hsafe
    rw [words_bare (.inl hne)]
    rfl
  · rw [words_quotedTokens]
    rfl

theorem inert_shellTokens {t : Token} (h : t ∈ shellTokens w) : Inert t := by
  unfold shellTokens at h
  split_ifs at h with hsafe
  · rw [Bool.and_eq_true, List.all_eq_true] at hsafe
    obtain ⟨b, hb, rfl⟩ := List.mem_map.mp h
    exact .inr (.inl ⟨b, rfl, hsafe.2 b hb⟩)
  · exact .inr (.inr (mem_quotedTokens h))

/-! ### The command -/

/-- A shell splits the text of a command into its words, and outside quotes that text holds nothing but blanks, safe
bytes and escaped quotes. -/
theorem fmt_survives (c : NextCommand) :
    splitWords c.fmt = some c.words ∧ ∃ ts, lex .outside c.fmt = some ts ∧ ∀ t ∈ ts, Inert t := by
  suffices h : ∃ ts, lex .outside c.fmt = some ts ∧ words none ts = c.words ∧ ∀ t ∈ ts, Inert t by
    obtain ⟨ts, hlex, hwords, hinert⟩ := h
    refine ⟨?_, ts, hlex, hinert⟩
    rw [splitWords, hlex, Option.map_some, hwords]
  obtain ⟨ws⟩ := c
  show ∃ ts, lex .outside ([space].intercalate (ws.map shellWord)) = some ts ∧ words none ts = ws ∧ ∀ t ∈ ts, Inert t
  induction ws with
  | nil => exact ⟨[], rfl, rfl, by simp⟩
  | cons w ws ih =>
    rcases ws with _ | ⟨w', ws⟩
    · -- the last word ends the text
      refine ⟨shellTokens w, ?_, ?_, fun t => inert_shellTokens⟩
      · rw [List.map_cons, List.map_nil, List.intercalate_singleton, ← List.append_nil (shellWord w), lex_shellWord, lex,
          Option.map_some, List.append_nil]
      · rw [← List.append_nil (shellTokens w), words_shellTokens, words]
    · obtain ⟨ts, hlex, hwords, hinert⟩ := ih
      refine ⟨shellTokens w ++ .blank :: ts, ?_, ?_, ?_⟩
      · rw [List.map_cons, List.map_cons, List.intercalate_cons_cons, List.append_assoc, lex_shellWord]
        show Option.map _ (lex .outside (space :: [space].intercalate ((w' :: ws).map shellWord))) = _
        rw [lex_space, hlex]
        rfl
      · rw [words_shellTokens, words, hwords]
      · intro t ht
        rcases List.mem_append.mp ht with ht | ht
        · exact inert_shellTokens ht
        · rcases List.mem_cons.mp ht with rfl | ht
          · exact .inl rfl
          · exact hinert t ht

example : NextCommand.fmt ⟨["it's".toUTF8.toList, [], "a-b".toUTF8.toList]⟩ = "'it'\\''s' '' a-b".toUTF8.toList := by
  decide +kernel

end CodeGraph.Budget
