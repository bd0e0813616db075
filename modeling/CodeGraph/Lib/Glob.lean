import Mathlib.Data.List.Infix

/-!
# `LIKE` and `GLOB`

The two pattern operators of SQLite over lists of characters. A pattern is a list of tokens, and one
matcher serves both: they differ in which characters are wildcards and in which characters are the same.

Matching is read through three laws: a run in front (`matchToks_run_iff`), literal characters in front
(`matchToks_lits_iff`), and the end of the pattern. The shapes that patterns of a filter have (`w*`, `*w`,
`*w*`, `w*v`, `*w*v`) follow.
-/

namespace CodeGraph.Lib

/-- A token of a pattern: any run of characters, any one character, or one character. -/
inductive Tok
  | run | one | lit (c : Char)
  deriving DecidableEq

/-- The whole text matches the whole pattern. -/
def matchToks (same : Char → Char → Bool) : List Tok → List Char → Bool
  | [], s => s.isEmpty
  | .run :: p, s => s.tails.any (matchToks same p)
  | .one :: _, [] => false
  | .one :: p, _ :: s => matchToks same p s
  | .lit _ :: _, [] => false
  | .lit c :: p, d :: s => same c d && matchToks same p s

def likeTok (c : Char) : Tok :=
  if c = '%' then .run else if c = '_' then .one else .lit c

/-- Classes in brackets are left out: no pattern of ours has one. -/
def globTok (c : Char) : Tok :=
  if c = '*' then .run else if c = '?' then .one else .lit c

/-- `text LIKE pat`: ASCII letters match in either case. -/
def like (pat text : String) : Bool :=
  matchToks (fun c d => c.toLower == d.toLower) (pat.toList.map likeTok) text.toList

/-- `text GLOB pat`. -/
def glob (pat text : String) : Bool :=
  matchToks (· == ·) (pat.toList.map globTok) text.toList

/-- The tokens of a pattern with an escape character, after which a character stands for itself. A pattern that ends in
it has none. -/
def likeToksEscape (esc : Char) : List Char → Option (List Tok)
  | [] => some []
  | [c] => if c = esc then none else some [likeTok c]
  | c :: d :: p =>
    if c = esc then (likeToksEscape esc p).map (.lit d :: ·) else (likeToksEscape esc (d :: p)).map (likeTok c :: ·)

/-- `text LIKE pat ESCAPE esc`. -/
def likeEscape (esc : Char) (pat text : String) : Bool :=
  match likeToksEscape esc pat.toList with
  | some p => matchToks (fun c d => c.toLower == d.toLower) p text.toList
  | none => false

/-- Each character of the text as one that stands for itself. -/
def escapeWith (esc : Char) (s : List Char) : List Char :=
  s.flatMap fun c => if c = esc ∨ c = '%' ∨ c = '_' then [esc, c] else [c]

variable {same : Char → Char → Bool} {p : List Tok} {s w v : List Char}

theorem likeToksEscape_cons {esc c : Char} (hc : c ≠ esc) (q : List Char) :
    likeToksEscape esc (c :: q) = (likeToksEscape esc q).map (likeTok c :: ·) := by
  cases q with
  | nil => simp [likeToksEscape, hc]
  | cons d q => rw [likeToksEscape, if_neg hc]

theorem likeToksEscape_escapeWith (esc : Char) (s q : List Char) :
    likeToksEscape esc (escapeWith esc s ++ q) = (likeToksEscape esc q).map (s.map .lit ++ ·) := by
  induction s with
  | nil => exact (Option.map_id' (x := likeToksEscape esc q)).symm
  | cons c s ih =>
    have hcons : escapeWith esc (c :: s) ++ q =
        (if c = esc ∨ c = '%' ∨ c = '_' then [esc, c] else [c]) ++ (escapeWith esc s ++ q) := by
      rw [escapeWith, List.flatMap_cons, List.append_assoc]
      rfl
    rw [hcons]
    split_ifs with hmeta
    · show likeToksEscape esc (esc :: c :: (escapeWith esc s ++ q)) = _
      rw [likeToksEscape, if_pos rfl, ih, Option.map_map]
      rfl
    · obtain ⟨hesc, hrun, hone⟩ := not_or.mp hmeta |>.imp_right not_or.mp
      have htok : likeTok c = .lit c := by rw [likeTok, if_neg hrun, if_neg hone]
      show likeToksEscape esc (c :: (escapeWith esc s ++ q)) = _
      rw [likeToksEscape_cons hesc, ih, Option.map_map, htok]
      rfl

theorem matchToks_run_iff :
    matchToks same (.run :: p) s = true ↔ ∃ t, t <:+ s ∧ matchToks same p t = true := by
  simp [matchToks]

section Fold

-- Both operators compare two characters by what `fold` makes of them.
variable {fold : Char → Char}

theorem matchToks_lits_iff :
    matchToks (fun c d => fold c == fold d) (w.map .lit ++ p) s = true ↔
      ∃ u t, s = u ++ t ∧ w.map fold = u.map fold ∧
        matchToks (fun c d => fold c == fold d) p t = true := by
  -- the induction is on the literals, each of which takes one character
  induction w generalizing s with
  | nil =>
    constructor
    · intro h
      exact ⟨[], s, rfl, rfl, h⟩
    · rintro ⟨u, t, rfl, hu, h⟩
      obtain rfl : u = [] := by simpa using hu.symm
      exact h
  | cons c w ih =>
    cases s with
    | nil =>
      simp only [List.map_cons, List.cons_append, matchToks, Bool.false_eq_true, false_iff]
      rintro ⟨u, t, hs, hu, -⟩
      obtain rfl : u = [] := (List.append_eq_nil_iff.mp hs.symm).1
      cases hu
    | cons d s =>
      simp only [List.map_cons, List.cons_append, matchToks, Bool.and_eq_true, beq_iff_eq, ih]
      constructor
      · rintro ⟨hcd, u, t, rfl, hu, h⟩
        exact ⟨d :: u, t, rfl, by rw [List.map_cons, hcd, hu], h⟩
      · rintro ⟨u, t, hs, hu, h⟩
        cases u with
        | nil => cases hu
        | cons e u =>
          rw [List.cons_append, List.cons.injEq] at hs
          obtain ⟨rfl, rfl⟩ := hs
          rw [List.map_cons, List.cons.injEq] at hu
          exact ⟨hu.1, u, t, rfl, hu.2, h⟩

theorem matchToks_lits_end_iff :
    matchToks (fun c d => fold c == fold d) (w.map .lit) s = true ↔ w.map fold = s.map fold := by
  rw [← List.append_nil (w.map Tok.lit), matchToks_lits_iff]
  constructor
  · rintro ⟨u, t, rfl, hu, ht⟩
    obtain rfl : t = [] := by simpa [matchToks] using ht
    rw [hu, List.append_nil]
  · intro h
    exact ⟨s, [], by simp, h, rfl⟩

theorem matchToks_run_nil : matchToks same [.run] s = true := by
  rw [matchToks_run_iff]
  exact ⟨[], List.nil_suffix, rfl⟩

/-- `w*`. -/
theorem matchToks_prefix_iff :
    matchToks (fun c d => fold c == fold d) (w.map .lit ++ [.run]) s = true ↔
      w.map fold <+: s.map fold := by
  rw [matchToks_lits_iff]
  constructor
  · rintro ⟨u, t, rfl, hu, -⟩
    rw [hu, List.map_append]
    exact List.prefix_append _ _
  · rintro ⟨t, ht⟩
    obtain ⟨u, t', rfl, hu, -⟩ := List.append_eq_map_iff.mp ht
    exact ⟨u, t', rfl, hu.symm, matchToks_run_nil⟩

/-- `*w`. -/
theorem matchToks_suffix_iff :
    matchToks (fun c d => fold c == fold d) (.run :: w.map .lit) s = true ↔
      w.map fold <:+ s.map fold := by
  rw [matchToks_run_iff]
  constructor
  · rintro ⟨t, ⟨u, rfl⟩, ht⟩
    rw [matchToks_lits_end_iff.mp ht, List.map_append]
    exact List.suffix_append _ _
  · rintro ⟨u, hu⟩
    obtain ⟨u', t, rfl, -, ht⟩ := List.append_eq_map_iff.mp hu
    exact ⟨t, List.suffix_append _ _, matchToks_lits_end_iff.mpr ht.symm⟩

/-- `*w*`. -/
theorem matchToks_infix_iff :
    matchToks (fun c d => fold c == fold d) (.run :: (w.map .lit ++ [.run])) s = true ↔
      w.map fold <:+: s.map fold := by
  rw [matchToks_run_iff]
  constructor
  · rintro ⟨t, ht, h⟩
    exact (matchToks_prefix_iff.mp h).isInfix.trans (ht.map fold).isInfix
  · intro h
    obtain ⟨t, hpre, hsuf⟩ := List.infix_iff_prefix_suffix.mp h
    obtain ⟨u, hu⟩ := hsuf
    obtain ⟨u', t', rfl, -, rfl⟩ := List.append_eq_map_iff.mp hu
    exact ⟨t', List.suffix_append _ _, matchToks_prefix_iff.mpr hpre⟩

end Fold

/-! ### Two words -/

/-- A suffix whose first character a word lacks does not reach into the word. -/
theorem suffix_of_suffix_append {c : Char} (hc : c ∉ w) (h : c :: v <:+ w ++ s) : c :: v <:+ s := by
  rcases List.suffix_or_suffix_of_suffix h (List.suffix_append w s) with hs | ⟨u, hu⟩
  · exact hs
  · rw [← hu, List.suffix_append_self_iff] at h
    cases u with
    | nil =>
      rw [← hu]
      exact List.suffix_rfl
    | cons d u =>
      rw [List.cons_append, List.cons.injEq] at hu
      exact absurd (h.subset List.mem_cons_self) (hu.1 ▸ hc)

theorem matchToks_lits_run_iff :
    matchToks (· == ·) (w.map .lit ++ .run :: v.map .lit) s = true ↔
      ∃ t, s = w ++ t ∧ v <:+ t := by
  have hlits := @matchToks_lits_iff (.run :: v.map .lit) s w id
  have hsuf := fun t => @matchToks_suffix_iff t v id
  simp only [id, List.map_id] at hlits hsuf
  simp only [hlits, hsuf]
  constructor
  · rintro ⟨u, t, hs, rfl, ht⟩
    exact ⟨t, hs, ht⟩
  · rintro ⟨t, hs, ht⟩
    exact ⟨w, t, hs, rfl, ht⟩

/-- `w*v`, of words that cannot overlap. -/
theorem matchToks_ends_iff {c : Char} (hc : c ∉ w) :
    matchToks (· == ·) (w.map .lit ++ .run :: (c :: v).map .lit) s = true ↔
      w <+: s ∧ c :: v <:+ s := by
  rw [matchToks_lits_run_iff]
  constructor
  · rintro ⟨t, rfl, ht⟩
    exact ⟨List.prefix_append _ _, ht.trans (List.suffix_append _ _)⟩
  · rintro ⟨⟨t, rfl⟩, hv⟩
    exact ⟨t, rfl, suffix_of_suffix_append hc hv⟩

/-- `*w*v`, of words that cannot overlap and the second of which has no room for the first. -/
theorem matchToks_mid_end_iff {c : Char} (hc : c ∉ w) (hlen : (c :: v).length ≤ w.length) :
    matchToks (· == ·) (.run :: (w.map .lit ++ .run :: (c :: v).map .lit)) s = true ↔
      w <:+: s ∧ c :: v <:+ s := by
  rw [matchToks_run_iff]
  simp only [matchToks_ends_iff hc]
  constructor
  · rintro ⟨t, ht, hw, hv⟩
    exact ⟨hw.isInfix.trans ht.isInfix, hv.trans ht⟩
  · rintro ⟨hw, hv⟩
    obtain ⟨t, hwt, hts⟩ := List.infix_iff_prefix_suffix.mp hw
    have hle : (c :: v).length ≤ t.length := hlen.trans hwt.length_le
    exact ⟨t, hts, hwt, List.suffix_of_suffix_length_le hv hts hle⟩

end CodeGraph.Lib
