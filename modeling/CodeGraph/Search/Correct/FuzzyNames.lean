import CodeGraph.Lib.EditDistance
import CodeGraph.Search.FuzzyNames
import CodeGraph.Storage.Correct.PathUnder
import Mathlib

/-!
# Fuzzy names

The rolling row of `levenshtein` holds the distances of one prefix to every prefix of the other text (`RowFor`). Read
backwards, a prefix is a list that grows at its head, so that the cell of the table is `IsDistance.cell`.
-/

namespace CodeGraph.Search.Fuzzy

open CodeGraph.Lib
open CodeGraph.Utils
open CodeGraph.Search.Fts (byteLen)
open CodeGraph.Storage (likeEscape_infix_iff)

/-! ### The rolling row -/

section Levenshtein

variable {α : Type*} {x : α} {u v a b : List α} {row : List ℕ}

/-- The distances of `u` to `v` and to what `v` becomes with the elements that follow. -/
def RowFor (u : List α) : List α → List α → List ℕ → Prop
  | v, [], row => ∃ k, row = [k] ∧ IsDistance u v k
  | v, y :: ys, row => ∃ k rest, row = k :: rest ∧ IsDistance u v k ∧ RowFor u (y :: v) ys rest

theorem RowFor.head {ys : List α} (h : RowFor u v ys row) : ∃ k rest, row = k :: rest ∧ IsDistance u v k := by
  cases ys with
  | nil =>
    obtain ⟨k, rfl, hk⟩ := h
    exact ⟨k, [], rfl, hk⟩
  | cons y ys =>
    obtain ⟨k, rest, rfl, hk, -⟩ := h
    exact ⟨k, rest, rfl, hk⟩

/-- The first row counts insertions. -/
theorem rowFor_range (v ys : List α) : RowFor [] v ys (List.range' v.length (ys.length + 1)) := by
  induction ys generalizing v with
  | nil => exact ⟨v.length, rfl, isDistance_nil_left v⟩
  | cons y ys ih => exact ⟨v.length, _, rfl, isDistance_nil_left v, ih (y :: v)⟩

theorem RowFor.get {ys : List α} (h : RowFor u v ys row) : IsDistance u (ys.reverse ++ v) (row.getD ys.length 0) := by
  induction ys generalizing v row with
  | nil =>
    obtain ⟨k, rfl, hk⟩ := h
    exact hk
  | cons y ys ih =>
    obtain ⟨k, rest, rfl, -, hrest⟩ := h
    have hget := ih hrest
    rw [List.reverse_cons, List.append_assoc, List.singleton_append]
    exact hget

variable [DecidableEq α]

theorem RowFor.fillRow {ys : List α} {left : ℕ} (h : RowFor u v ys row) (hleft : IsDistance (x :: u) v left) :
    RowFor (x :: u) v ys (fillRow x left row ys) := by
  induction ys generalizing v row left with
  | nil =>
    obtain ⟨k, rfl, -⟩ := h
    exact ⟨left, rfl, hleft⟩
  | cons y ys ih =>
    obtain ⟨across, rest, rfl, hacross, hrest⟩ := h
    obtain ⟨above, rest', rfl, habove⟩ := hrest.head
    exact ⟨left, _, rfl, hleft, ih hrest (habove.cell hleft hacross)⟩

/-- After each element of the first text the row is the one of the prefix that was read. -/
theorem RowFor.fillRows (h : RowFor u [] b row) : RowFor (a.reverse ++ u) [] b (fillRows b (u.length + 1) row a) := by
  induction a generalizing u row with
  | nil => exact h
  | cons x a ih =>
    have hnext := ih (h.fillRow (isDistance_nil_right (x :: u)))
    rw [List.reverse_cons, List.append_assoc, List.singleton_append]
    exact hnext

/-- **`levenshtein` is the least number of edits.** -/
theorem levenshtein_isDistance {α : Type*} [DecidableEq α] (a b : List α) :
    IsLeast {k | Edits k a b} (levenshtein a b) := by
  show IsDistance a b (levenshtein a b)
  rw [levenshtein]
  split_ifs with ha hb
  · rw [List.eq_nil_of_length_eq_zero ha]
    exact isDistance_nil_left b
  · rw [List.eq_nil_of_length_eq_zero hb]
    exact isDistance_nil_right a
  · have hstart : RowFor [] [] b (List.range (b.length + 1)) := by
      rw [List.range_eq_range']
      exact rowFor_range [] b
    have hlast := (hstart.fillRows (a := a)).get
    rw [List.append_nil, List.append_nil, isDistance_reverse] at hlast
    exact hlast

end Levenshtein

/-! ### The candidates -/

variable {U : Unicode} {partialName : List Char} {rows : List NameCandidate} {c : NameCandidate}

/-- The candidates of the first pass in their order. -/
def ranked (U : Unicode) (partialName : List Char) (rows : List NameCandidate) : List NameCandidate :=
  sortByKey (fun c : NameCandidate => toLex (nameBucket partialName c, c.name.length))
    (rows.filter fun c => likeName U partialName c && eligible c)

theorem likeResults_eq : likeResults U partialName rows = (ranked U partialName rows).take 10 := rfl

theorem mem_ranked :
    c ∈ ranked U partialName rows ↔ c ∈ rows ∧ likeName U partialName c = true ∧ eligible c = true := by
  rw [ranked, mem_sortByKey, List.mem_filter, Bool.and_eq_true]

theorem ranked_sorted :
    (ranked U partialName rows).Pairwise fun c d => nameBucket partialName c ≤ nameBucket partialName d := by
  refine (sortByKey_sorted _ _).imp ?_
  intro c d h
  have hle := Prod.Lex.monotone_fst _ _ h
  exact hle

theorem mem_likeResults (hc : c ∈ likeResults U partialName rows) :
    c ∈ rows ∧ likeName U partialName c = true ∧ eligible c = true :=
  mem_ranked.mp (List.mem_of_mem_take hc)

theorem likeResults_ne_nil (hc : c ∈ ranked U partialName rows) : likeResults U partialName rows ≠ [] := by
  rw [likeResults_eq, ne_eq, List.take_eq_nil_iff]
  rintro (h | h)
  · exact absurd h (by decide)
  · rw [h] at hc
    exact absurd hc List.not_mem_nil

theorem likeName_self (hname : c.name.toList = partialName) : likeName U partialName c = true := by
  have hself : likeEscape '\\' (substringPattern partialName) c.name = true := by
    rw [substringPattern, likeEscape_infix_iff, hname]
  rw [likeName, hself, Bool.true_or]

theorem nameBucket_eq_zero_iff : nameBucket partialName c = 0 ↔ c.name.toList = partialName := by
  rw [nameBucket]
  split_ifs with h h'
  · exact ⟨fun _ => h, fun _ => rfl⟩
  · exact ⟨fun h0 => absurd h0 (by decide), fun heq => absurd heq h⟩
  · exact ⟨fun h0 => absurd h0 (by decide), fun heq => absurd heq h⟩

/-- A name that is what was asked for comes first. -/
theorem likeResults_head (hc : c ∈ ranked U partialName rows) (hname : c.name.toList = partialName) :
    ∃ d, (likeResults U partialName rows).head? = some d ∧ d.name.toList = partialName := by
  have hsorted : (ranked U partialName rows).Pairwise fun c d => nameBucket partialName c ≤ nameBucket partialName d :=
    ranked_sorted
  rw [likeResults_eq]
  cases hlist : ranked U partialName rows with
  | nil =>
    rw [hlist] at hc
    exact absurd hc List.not_mem_nil
  | cons d l =>
    rw [hlist] at hc hsorted
    refine ⟨d, rfl, ?_⟩
    rcases List.mem_cons.mp hc with rfl | hmem
    · exact hname
    · have hle := (List.pairwise_cons.mp hsorted).1 c hmem
      rw [nameBucket_eq_zero_iff.mpr hname, Nat.le_zero] at hle
      exact nameBucket_eq_zero_iff.mp hle

theorem mem_editPool (hc : c ∈ editPool rows) : c ∈ rows ∧ eligible c = true :=
  List.mem_filter.mp (mem_sortByKey.mp (List.mem_of_mem_take hc))

/-- The candidates of the second pass with their distances. -/
def scored (U : Unicode) (partialName : List Char) (rows : List NameCandidate) : List (ℕ × NameCandidate) :=
  sortByKey (fun s : ℕ × NameCandidate => toLex (s.1, byteLen s.2.name.toList))
    (((editPool rows).map fun c => (nameDistance U partialName c, c)).filter fun s =>
      s.1 ≤ maxDist (byteLen (U.toLowercase partialName)))

theorem editResults_eq : editResults U partialName rows = ((scored U partialName rows).take 10).map Prod.snd := rfl

theorem mem_scored {s : ℕ × NameCandidate} : s ∈ scored U partialName rows ↔ s.2 ∈ editPool rows ∧
    s.1 = nameDistance U partialName s.2 ∧ s.1 ≤ maxDist (byteLen (U.toLowercase partialName)) := by
  rw [scored, mem_sortByKey, List.mem_filter, List.mem_map, decide_eq_true_iff]
  constructor
  · rintro ⟨⟨c, hc, rfl⟩, hle⟩
    exact ⟨hc, rfl, hle⟩
  · rintro ⟨hc, hs, hle⟩
    exact ⟨⟨s.2, hc, by rw [← hs]⟩, hle⟩

theorem scored_sorted : (scored U partialName rows).Pairwise fun s t => s.1 ≤ t.1 := by
  refine (sortByKey_sorted _ _).imp ?_
  intro s t h
  have hle := Prod.Lex.monotone_fst _ _ h
  exact hle

/-- What is left out of the first ten is no nearer than any of them. -/
theorem near_of_left_out {d : NameCandidate} (hd : d ∈ editPool rows)
    (hdist : nameDistance U partialName d ≤ maxDist (byteLen (U.toLowercase partialName)))
    (hout : d ∉ editResults U partialName rows) :
    (editResults U partialName rows).length = 10 ∧
      ∀ c ∈ editResults U partialName rows, nameDistance U partialName c ≤ nameDistance U partialName d := by
  have hmem : (nameDistance U partialName d, d) ∈ scored U partialName rows := mem_scored.mpr ⟨hd, rfl, hdist⟩
  have hdrop : (nameDistance U partialName d, d) ∈ (scored U partialName rows).drop 10 := by
    rw [← List.take_append_drop 10 (scored U partialName rows), List.mem_append] at hmem
    rcases hmem with h | h
    · exact absurd (List.mem_map_of_mem h) hout
    · exact h
  constructor
  · have hpos := List.length_pos_of_mem hdrop
    rw [List.length_drop] at hpos
    rw [editResults_eq, List.length_map, List.length_take]
    omega
  · intro c hc
    rw [editResults_eq] at hc
    obtain ⟨s, hs, rfl⟩ := List.mem_map.mp hc
    have hsorted : (scored U partialName rows).Pairwise fun s t => s.1 ≤ t.1 := scored_sorted
    rw [← List.take_append_drop 10 (scored U partialName rows), List.pairwise_append] at hsorted
    have hle := hsorted.2.2 s hs _ hdrop
    rw [(mem_scored.mp (List.mem_of_mem_take hs)).2.1] at hle
    exact hle

/-- **Fuzzy names.** -/
theorem fuzzy_names (U : Unicode) (partialName : List Char) (rows : List NameCandidate) :
    (∀ c ∈ findFunctionsByFuzzyName U partialName rows, c ∈ rows ∧ eligible c = true) ∧
    (findFunctionsByFuzzyName U partialName rows).length ≤ 10 ∧
    ((∃ c ∈ rows, eligible c = true ∧ c.name.toList = partialName) →
      ∃ d, (findFunctionsByFuzzyName U partialName rows).head? = some d ∧ d.name.toList = partialName) ∧
    ((∃ c ∈ rows, eligible c = true ∧ likeName U partialName c = true) →
      ∀ c ∈ findFunctionsByFuzzyName U partialName rows, likeName U partialName c = true) ∧
    ((∀ c ∈ rows, eligible c = true → likeName U partialName c = false) →
      (∀ c ∈ findFunctionsByFuzzyName U partialName rows,
        nameDistance U partialName c ≤ maxDist (byteLen (U.toLowercase partialName))) ∧
      ∀ d ∈ editPool rows, nameDistance U partialName d ≤ maxDist (byteLen (U.toLowercase partialName)) →
        d ∉ findFunctionsByFuzzyName U partialName rows →
        (findFunctionsByFuzzyName U partialName rows).length = 10 ∧
          ∀ c ∈ findFunctionsByFuzzyName U partialName rows,
            nameDistance U partialName c ≤ nameDistance U partialName d) := by
  have hedit : ∀ c ∈ editResults U partialName rows, c ∈ editPool rows ∧
      nameDistance U partialName c ≤ maxDist (byteLen (U.toLowercase partialName)) := by
    intro c hc
    obtain ⟨s, hs, rfl⟩ := List.mem_map.mp hc
    obtain ⟨hpool, hdist, hle⟩ := mem_scored.mp (List.mem_of_mem_take hs)
    rw [hdist] at hle
    exact ⟨hpool, hle⟩
  simp only [findFunctionsByFuzzyName]
  -- names that contain the query, and where there are none those at a small distance
  split_ifs with hlike
  · refine ⟨?_, List.length_take_le _ _, ?_, ?_, ?_⟩
    · intro c hc
      obtain ⟨hrow, -, helig⟩ := mem_likeResults hc
      exact ⟨hrow, helig⟩
    · rintro ⟨c, hrow, helig, hname⟩
      exact likeResults_head (mem_ranked.mpr ⟨hrow, likeName_self hname, helig⟩) hname
    · intro _ c hc
      exact (mem_likeResults hc).2.1
    · intro hnone
      obtain ⟨c, hc⟩ := List.exists_mem_of_ne_nil _ hlike
      obtain ⟨hrow, hname, helig⟩ := mem_likeResults hc
      rw [hnone c hrow helig] at hname
      exact absurd hname (by decide)
  · refine ⟨?_, ?_, ?_, ?_, ?_⟩
    · intro c hc
      exact mem_editPool (hedit c hc).1
    · rw [editResults_eq, List.length_map]
      exact List.length_take_le _ _
    · rintro ⟨c, hrow, helig, hname⟩
      exact absurd (likeResults_ne_nil (mem_ranked.mpr ⟨hrow, likeName_self hname, helig⟩)) hlike
    · rintro ⟨c, hrow, helig, hname⟩
      exact absurd (likeResults_ne_nil (mem_ranked.mpr ⟨hrow, hname, helig⟩)) hlike
    · intro _
      exact ⟨fun c hc => (hedit c hc).2, fun d hd hdist hout => near_of_left_out hd hdist hout⟩

end CodeGraph.Search.Fuzzy
