import CodeGraph.Resolve.Spelling

/-!
# The canonical spelling is one

A stored spelling stays as it is (`canonical_of_stored`), and every other answer is stored, or has no `::` and is its
own nested spelling, so a second pass changes nothing. A path that is not stored is rewritten to the dotted spelling
first, so all its spellings meet there.
-/

namespace CodeGraph.Resolve.Db

open CodeGraph.Lib CodeGraph.Storage CodeGraph.Pipeline.InFlight

variable {db : Db} {symbol dotted : Text} {segs : List Text}

theorem pathSep_ne_nil : pathSep ≠ [] := List.cons_ne_nil ':' [':']

/-! ### The nested spelling -/

theorem nested_of_stored (h : db.stored dotted = true) : db.nestedSpelling dotted = dotted := by
  unfold nestedSpelling
  dsimp only
  split
  · rfl
  · exact if_pos (.inr h)

theorem stored_of_definedAs (h : db.definedAs symbol = true) : db.stored symbol = true := by
  obtain ⟨n, hn, hdef⟩ := List.any_eq_true.mp h
  simp only [Bool.and_eq_true] at hdef
  refine List.any_eq_true.mpr ⟨n, hn, ?_⟩
  simp [hdef.1.1, hdef.1.2]

/-- Either nothing better is found, or a stored spelling is. -/
theorem nested_eq_or_stored (dotted : Text) :
    db.nestedSpelling dotted = dotted ∨ db.stored (db.nestedSpelling dotted) = true := by
  unfold nestedSpelling
  dsimp only
  split
  · exact .inl rfl
  · split_ifs with hkeep
    · exact .inl rfl
    · cases hfind : List.find? db.definedAs _ with
      | none => exact .inl rfl
      | some nested => exact .inr (stored_of_definedAs (List.find?_some hfind))

/-! ### The pass -/

theorem canonical_of_stored (h : db.stored symbol = true) : db.canonicalSymbolSpelling symbol = symbol := by
  unfold canonicalSymbolSpelling
  dsimp only
  split_ifs with hsep hlead hkeep hkeep
  · rfl
  · exact absurd (.inr h) hkeep
  · rfl
  · exact absurd (.inr h) hkeep
  · exact nested_of_stored h

theorem canonical_of_no_sep (h : ¬pathSep <:+: symbol) : db.canonicalSymbolSpelling symbol = db.nestedSpelling symbol :=
  if_neg h

/-- A nested spelling of a name without `::` does not change again. -/
theorem canonical_nested (h : ¬pathSep <:+: dotted) :
    db.canonicalSymbolSpelling (db.nestedSpelling dotted) = db.nestedSpelling dotted := by
  rcases @nested_eq_or_stored db dotted with heq | hstored
  · rw [heq, canonical_of_no_sep h, heq]
  · exact canonical_of_stored hstored

theorem not_sep_of_not_mem (h : ':' ∉ symbol) : ¬pathSep <:+: symbol := by
  intro hsep
  exact h (hsep.subset List.mem_cons_self)

/-- Nothing of `::` is left where the segments are plain. -/
theorem not_mem_replace (h : plainSegments symbol = true) : ':' ∉ replace pathSep ['.'] symbol := by
  intro hmem
  rw [← intercalate_split pathSep_ne_nil] at hmem
  have hsegs : ∀ seg ∈ split pathSep symbol, ':' ∉ seg := by
    intro seg hseg hcolon
    have hplain := List.all_eq_true.mp h seg hseg
    rw [Bool.and_eq_true, List.all_eq_true] at hplain
    have hc := hplain.2 ':' hcolon
    revert hc
    decide
  generalize split pathSep symbol = pieces at hmem hsegs
  induction pieces with
  | nil => cases hmem
  | cons seg pieces ih =>
    have hhead := hsegs seg List.mem_cons_self
    cases pieces with
    | nil =>
      rw [List.intercalate_singleton] at hmem
      exact hhead hmem
    | cons seg' pieces =>
      rw [List.intercalate_cons_cons, List.mem_append, List.mem_append] at hmem
      rcases hmem with (hmem | hmem) | hmem
      · exact hhead hmem
      · revert hmem
        decide
      · exact ih hmem fun s hs => hsegs s (List.mem_cons_of_mem seg hs)

theorem canonical_idempotent (symbol : Text) :
    db.canonicalSymbolSpelling (db.canonicalSymbolSpelling symbol) = db.canonicalSymbolSpelling symbol := by
  by_cases hsep : pathSep <:+: symbol
  · have hcase : db.canonicalSymbolSpelling symbol = symbol ∨
        ∃ dotted, ':' ∉ dotted ∧ db.canonicalSymbolSpelling symbol = db.nestedSpelling dotted := by
      unfold canonicalSymbolSpelling
      rw [if_pos hsep]
      dsimp only
      split_ifs with hlead hkeep hkeep
      · exact .inl rfl
      · exact .inr ⟨_, not_mem_replace (Decidable.not_not.mp fun h => hkeep (.inl h)), rfl⟩
      · exact .inl rfl
      · exact .inr ⟨_, not_mem_replace (Decidable.not_not.mp fun h => hkeep (.inl h)), rfl⟩
    rcases hcase with heq | ⟨dotted, hcolon, heq⟩
    · rw [heq, heq]
    · rw [heq]
      exact canonical_nested (not_sep_of_not_mem hcolon)
  · rw [canonical_of_no_sep hsep]
    exact canonical_nested hsep

/-! ### The spellings of a path -/

/-- The segments of a path that a user may write either way. -/
structure IsPath (segs : List Text) : Prop where
  two : 2 ≤ segs.length
  visible : ∀ seg ∈ segs, ∃ c ∈ seg, isWhitespace c = false
  no_dot : ∀ seg ∈ segs, '.' ∉ seg
  no_colon : ∀ seg ∈ segs, ':' ∉ seg

theorem IsPath.ne_nil (h : IsPath segs) : segs ≠ [] := by
  rintro rfl
  have htwo := h.two
  rw [List.length_nil] at htwo
  omega

theorem IsPath.split (h : IsPath segs) : Lib.split pathSep (pathSep.intercalate segs) = segs :=
  split_intercalate h.ne_nil h.no_colon

theorem IsPath.plain (h : IsPath segs) : plainSegments (pathSep.intercalate segs) = true := by
  rw [plainSegments, h.split, List.all_eq_true]
  intro seg hseg
  rw [Bool.and_eq_true, List.all_eq_true]
  constructor
  · rw [decide_eq_true_eq, Ne, trim_eq_nil_iff]
    obtain ⟨c, hc, hvisible⟩ := h.visible seg hseg
    intro hall
    rw [hall c hc] at hvisible
    cases hvisible
  · intro c hc
    rw [decide_eq_true_eq, List.mem_cons, List.mem_singleton, not_or]
    constructor
    · rintro rfl
      exact h.no_dot seg hseg hc
    · rintro rfl
      exact h.no_colon seg hseg hc

theorem IsPath.replace (h : IsPath segs) :
    Lib.replace pathSep ['.'] (pathSep.intercalate segs) = ['.'].intercalate segs := by
  rw [← intercalate_split pathSep_ne_nil, h.split]

theorem IsPath.no_colon_dotted (h : IsPath segs) : ':' ∉ ['.'].intercalate segs := by
  rw [← h.replace]
  exact not_mem_replace h.plain

/-- The first segment has a character, and none of its characters is `:`. -/
theorem IsPath.not_sep_prefix (h : IsPath segs) : ¬pathSep <+: pathSep.intercalate segs := by
  match segs, h with
  | seg :: seg' :: segs, h =>
    obtain ⟨c, hc, -⟩ := h.visible seg List.mem_cons_self
    obtain ⟨a, seg, rfl⟩ := List.exists_cons_of_ne_nil (List.ne_nil_of_mem hc)
    rw [List.intercalate_cons_cons, List.cons_append, List.cons_append, pathSep, List.cons_prefix_cons]
    rintro ⟨hcolon, -⟩
    exact h.no_colon _ List.mem_cons_self (hcolon ▸ List.mem_cons_self)

theorem IsPath.sep (h : IsPath segs) : pathSep <:+: pathSep.intercalate segs := by
  match segs, h with
  | seg :: seg' :: segs, _ =>
    rw [List.intercalate_cons_cons]
    exact ⟨seg, pathSep.intercalate (seg' :: segs), rfl⟩

theorem IsPath.canonical_joined (h : IsPath segs) (hs : db.stored (pathSep.intercalate segs) = false) :
    db.canonicalSymbolSpelling (pathSep.intercalate segs) = db.nestedSpelling (['.'].intercalate segs) := by
  have hkeep : ¬(¬plainSegments (pathSep.intercalate segs) = true ∨ db.stored (pathSep.intercalate segs) = true) := by
    rw [h.plain, hs]
    simp
  unfold canonicalSymbolSpelling
  rw [if_pos h.sep]
  dsimp only
  rw [if_neg h.not_sep_prefix, if_neg hkeep, h.replace]

theorem IsPath.canonical_prefixed (h : IsPath segs) (hs : db.stored (pathSep ++ pathSep.intercalate segs) = false) :
    db.canonicalSymbolSpelling (pathSep ++ pathSep.intercalate segs) = db.nestedSpelling (['.'].intercalate segs) := by
  have hkeep : ¬(¬plainSegments (pathSep.intercalate segs) = true ∨
      db.stored (pathSep ++ pathSep.intercalate segs) = true) := by
    rw [h.plain, hs]
    simp
  unfold canonicalSymbolSpelling
  rw [if_pos (List.prefix_append _ _).isInfix]
  dsimp only
  rw [if_pos (List.prefix_append _ _), List.drop_left, if_neg hkeep, h.replace]

/-- Stored spellings stay, a second pass changes nothing, and the spellings of a path agree. -/
theorem canonical_spelling (db : Db) :
    (∀ symbol, db.stored symbol = true → db.canonicalSymbolSpelling symbol = symbol) ∧
    (∀ symbol, db.canonicalSymbolSpelling (db.canonicalSymbolSpelling symbol) = db.canonicalSymbolSpelling symbol) ∧
    ∀ segs, IsPath segs → db.stored (pathSep.intercalate segs) = false →
      db.canonicalSymbolSpelling (pathSep.intercalate segs) = db.canonicalSymbolSpelling (['.'].intercalate segs) ∧
      (db.stored (pathSep ++ pathSep.intercalate segs) = false →
        db.canonicalSymbolSpelling (pathSep ++ pathSep.intercalate segs) =
          db.canonicalSymbolSpelling (['.'].intercalate segs)) := by
  refine ⟨fun _ => canonical_of_stored, canonical_idempotent, fun segs h hs => ?_⟩
  rw [canonical_of_no_sep (not_sep_of_not_mem h.no_colon_dotted)]
  exact ⟨h.canonical_joined hs, h.canonical_prefixed⟩

/-- A C++ class `A::B` with a member. -/
def nestedClass : Db where
  files := [⟨1, "a.cc", none⟩]
  nodes := [⟨1, 1, "class", "B", ""⟩, ⟨2, 1, "method", "f", ""⟩]
  edges := ∅
  file_ids := by decide
  file_paths := by decide
  node_ids := by decide
  node_file := by decide
  edge_source := by decide
  edge_target := by decide
  edge_key := noEdges_key
  qualifiedName := fun id => if id = 1 then some "A::B" else some "A::B.f"

/-- `A::B::f` and `A.B.f` are the member that the index spells `A::B.f`. -/
theorem canonical_spelling_nested :
    nestedClass.canonicalSymbolSpelling (pathSep.intercalate [['A'], ['B'], ['f']]) =
        nestedClass.canonicalSymbolSpelling (['.'].intercalate [['A'], ['B'], ['f']]) ∧
      nestedClass.canonicalSymbolSpelling (['.'].intercalate [['A'], ['B'], ['f']]) =
        ['A', ':', ':', 'B', '.', 'f'] := by
  have hpath : IsPath [['A'], ['B'], ['f']] := by
    constructor
    case two => decide
    case visible =>
      intro seg hseg
      simp only [List.mem_cons, List.not_mem_nil, or_false] at hseg
      rcases hseg with rfl | rfl | rfl
      · exact ⟨'A', List.mem_singleton_self _, rfl⟩
      · exact ⟨'B', List.mem_singleton_self _, rfl⟩
      · exact ⟨'f', List.mem_singleton_self _, rfl⟩
    case no_dot => simp
    case no_colon => simp
  exact ⟨((canonical_spelling nestedClass).2.2 _ hpath (by decide)).1, by decide⟩

end CodeGraph.Resolve.Db
