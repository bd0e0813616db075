import CodeGraph.Lib.Texts

/-!
# Full-text queries

The queries a full-text index is asked with: quoted phrases with `AND` and `OR` between them, where `AND` binds tighter.
`AND` and `OR` are operators outside quotes only, so a phrase may hold either word. A query is read as a disjunction of
conjunctions of phrases; `parseMatch_and` and `parseMatch_or` are its round trips.
-/

namespace CodeGraph.Lib

inductive MatchTok
  | str (text : List Char)
  | and
  | or
  deriving DecidableEq

/-- The tokens of a query. Inside quotes the state holds what was read of the phrase; a doubled quote stands for one. -/
def lexMatch : Option (List Char) → List Char → Option (List MatchTok)
  | none, [] => some []
  | some _, [] => none
  | none, ' ' :: s => lexMatch none s
  | none, '"' :: s => lexMatch (some []) s
  | none, 'A' :: 'N' :: 'D' :: ' ' :: s => (lexMatch none s).map (.and :: ·)
  | none, 'O' :: 'R' :: ' ' :: s => (lexMatch none s).map (.or :: ·)
  | none, _ :: _ => none
  | some w, '"' :: '"' :: s => lexMatch (some (w ++ ['"'])) s
  | some w, '"' :: s => (lexMatch none s).map (.str w :: ·)
  | some w, c :: s => lexMatch (some (w ++ [c])) s

/-- The phrases between the operators, grouped at the `OR`s. -/
def groupMatch : List MatchTok → Option (List (List (List Char)))
  | [.str t] => some [[t]]
  | .str t :: .and :: s =>
    match groupMatch s with
    | some (g :: gs) => some ((t :: g) :: gs)
    | _ => none
  | .str t :: .or :: s => (groupMatch s).map ([t] :: ·)
  | _ => none

def parseMatch (query : List Char) : Option (List (List (List Char))) := (lexMatch none query).bind groupMatch

/-- What a row must contain. -/
def Satisfies (contains : List Char → Prop) (groups : List (List (List Char))) : Prop :=
  ∃ g ∈ groups, ∀ t ∈ g, contains t

instance {contains : List Char → Prop} [DecidablePred contains] (groups : List (List (List Char))) :
    Decidable (Satisfies contains groups) := by
  unfold Satisfies
  infer_instance

def quotePhrase (t : List Char) : List Char := '"' :: t ++ ['"']

variable {t s : List Char} {ts : List (List Char)} {contains : List Char → Prop}

theorem lexMatch_close (w : List Char) (hs : s.head? ≠ some '"') :
    lexMatch (some w) ('"' :: s) = (lexMatch none s).map (.str w :: ·) := by
  rw [lexMatch]
  rintro s' rfl
  exact hs rfl

theorem lexMatch_inside (w : List Char) (ht : '"' ∉ t) (hs : s.head? ≠ some '"') :
    lexMatch (some w) (t ++ '"' :: s) = (lexMatch none s).map (.str (w ++ t) :: ·) := by
  induction t generalizing w with
  | nil => rw [List.nil_append, List.append_nil, lexMatch_close w hs]
  | cons c t ih =>
    have hc : c ≠ '"' := by
      rintro rfl
      exact ht List.mem_cons_self
    rw [List.cons_append, lexMatch, ih (w ++ [c]) fun h => ht (List.mem_cons_of_mem c h), List.append_assoc,
      List.singleton_append]
    · intro s' h _
      exact hc h
    · exact hc

/-- A quoted phrase is one token. -/
theorem lexMatch_quotePhrase (ht : '"' ∉ t) (hs : s.head? ≠ some '"') :
    lexMatch none (quotePhrase t ++ s) = (lexMatch none s).map (.str t :: ·) := by
  have h := lexMatch_inside [] ht hs
  rw [quotePhrase, List.cons_append, List.cons_append, List.append_assoc, List.singleton_append, lexMatch, h,
    List.nil_append]

theorem lexMatch_and : lexMatch none (" AND ".toList ++ s) = (lexMatch none s).map (.and :: ·) := rfl

theorem lexMatch_or : lexMatch none (" OR ".toList ++ s) = (lexMatch none s).map (.or :: ·) := rfl

/-- Phrases joined by one operator. -/
theorem lexMatch_join {op : List Char} {tok : MatchTok} (hop : op.head? = some ' ')
    (hlex : ∀ s, lexMatch none (op ++ s) = (lexMatch none s).map (tok :: ·)) (hts : ∀ t ∈ ts, '"' ∉ t) :
    lexMatch none (op.intercalate (ts.map quotePhrase)) = some ([tok].intercalate (ts.map fun t => [.str t])) := by
  induction ts with
  | nil => rfl
  | cons t ts ih =>
    have ht := hts t List.mem_cons_self
    cases ts with
    | nil =>
      have h := lexMatch_quotePhrase (s := []) ht (by simp)
      rw [List.append_nil] at h
      simpa [List.intercalate, lexMatch] using h
    | cons u us =>
      have hrest := ih fun v hv => hts v (List.mem_cons_of_mem t hv)
      have hhead : (op ++ op.intercalate ((u :: us).map quotePhrase)).head? ≠ some '"' := by
        rw [List.head?_append, hop]
        simp
      rw [List.map_cons, List.map_cons, List.intercalate_cons_cons, List.append_assoc, ← List.map_cons,
        lexMatch_quotePhrase ht hhead, hlex, hrest]
      simp [List.intercalate_cons_cons]

theorem groupMatch_and (h : ts ≠ []) : groupMatch ([MatchTok.and].intercalate (ts.map fun t => [.str t])) = some [ts] := by
  induction ts with
  | nil => exact absurd rfl h
  | cons t ts ih =>
    cases ts with
    | nil => rfl
    | cons u us =>
      have hrest : groupMatch ([.and].intercalate ([.str u] :: us.map fun t => [.str t])) = some [u :: us] := ih (by simp)
      rw [List.map_cons, List.map_cons, List.intercalate_cons_cons, List.append_assoc, List.singleton_append,
        List.singleton_append, groupMatch, hrest]

theorem groupMatch_or (h : ts ≠ []) :
    groupMatch ([MatchTok.or].intercalate (ts.map fun t => [.str t])) = some (ts.map fun t => [t]) := by
  induction ts with
  | nil => exact absurd rfl h
  | cons t ts ih =>
    cases ts with
    | nil => rfl
    | cons u us =>
      have hrest : groupMatch ([.or].intercalate ([.str u] :: us.map fun t => [.str t])) =
          some ((u :: us).map fun t => [t]) := ih (by simp)
      rw [List.map_cons, List.map_cons, List.intercalate_cons_cons, List.append_assoc, List.singleton_append,
        List.singleton_append, groupMatch, hrest]
      rfl

/-- **Quoted phrases with `AND` between them ask for all of them.** -/
theorem parseMatch_and (hne : ts ≠ []) (hts : ∀ t ∈ ts, '"' ∉ t) :
    parseMatch (" AND ".toList.intercalate (ts.map quotePhrase)) = some [ts] := by
  rw [parseMatch, lexMatch_join rfl (fun s => lexMatch_and) hts]
  exact groupMatch_and hne

/-- **Quoted phrases with `OR` between them ask for any of them.** -/
theorem parseMatch_or (hne : ts ≠ []) (hts : ∀ t ∈ ts, '"' ∉ t) :
    parseMatch (" OR ".toList.intercalate (ts.map quotePhrase)) = some (ts.map fun t => [t]) := by
  rw [parseMatch, lexMatch_join rfl (fun s => lexMatch_or) hts]
  exact groupMatch_or hne

@[simp] theorem satisfies_all : Satisfies contains [ts] ↔ ∀ t ∈ ts, contains t := by
  simp [Satisfies]

@[simp] theorem satisfies_any : Satisfies contains (ts.map fun t => [t]) ↔ ∃ t ∈ ts, contains t := by
  simp [Satisfies]

end CodeGraph.Lib
