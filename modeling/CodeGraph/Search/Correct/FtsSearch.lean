import CodeGraph.Search.FtsSearch
import CodeGraph.Storage.Correct.PathUnder
import Mathlib

/-!
# Full-text search answers what it was asked

Every query text that the search builds parses back to the terms it was built from (`parseMatch_and`, `parseMatch_or`),
so no word of the user works as an operator. Each pass is then described by the rows it may return and the rows it must
not miss (`Pass`), and the results follow the passes: `search_explained` for what is returned, `search_answers` for what
is not missed.
-/

namespace CodeGraph.Search.Fts

open CodeGraph.Lib
open CodeGraph.Storage (likeEscape_infix_iff)
open CodeGraph.Utils

variable {Score : Type*} {U : Unicode} {I : Index Score} {query : List Char} {limit : ℤ}
  {excludeTests : Bool} {terms : List (List Char)} {row : NodeRow}

/-! ### The passes -/

theorem quote_not_mem {t : List Char} (ht : t ∈ ftsTerms U query) : '"' ∉ t := by
  obtain ⟨w, -, rfl⟩ := List.mem_map.mp (List.mem_of_mem_filter ht)
  intro h
  have hterm := (List.mem_filter.mp h).2
  simp [isTermChar, U.quote] at hterm

theorem limitRows_subset {l : List NodeRow} (h : row ∈ limitRows limit l) : row ∈ l := by
  rw [limitRows] at h
  split_ifs at h
  · exact h
  · exact List.mem_of_mem_take h

theorem length_limitRows (l : List NodeRow) (hlimit : 0 ≤ limit) : (limitRows limit l).length ≤ limit.toNat := by
  rw [limitRows, if_neg (not_lt.mpr hlimit), List.length_take]
  exact min_le_left _ _

theorem limitRows_ne_nil {l : List NodeRow} (hlimit : limit ≠ 0) (hl : l ≠ []) : limitRows limit l ≠ [] := by
  rw [limitRows]
  split_ifs with hneg
  · exact hl
  · have hpos : limit.toNat ≠ 0 := by omega
    simpa [List.take_eq_nil_iff, hpos] using hl

/-- What a pass over the rows with `P` answers. -/
structure Pass (I : Index Score) (limit : ℤ) (excludeTests : Bool) (P : NodeRow → Prop) (nodes : List NodeRow) :
    Prop where
  sound : ∀ row ∈ nodes, row ∈ I.rows ∧ visible excludeTests row = true ∧ P row
  short : 0 ≤ limit → nodes.length ≤ limit.toNat
  complete : limit ≠ 0 → ∀ row ∈ I.rows, visible excludeTests row = true → P row → nodes ≠ []

section Statements

variable (I limit excludeTests)

theorem matchRows_pass [Neg Score] {text : List Char} {groups : List (List (List Char))}
    (h : parseMatch text = some groups) :
    ∃ pairs, matchRows I limit excludeTests text = some pairs ∧
      Pass I limit excludeTests (fun row => Satisfies (fun t => I.contains t row = true) groups)
        (pairs.map Prod.fst) := by
  refine ⟨_, by rw [matchRows, h, Option.map_some], ?_⟩
  have hmem : ∀ row, row ∈ I.order groups (I.rows.filter fun row =>
      visible excludeTests row && decide (Satisfies (fun t => I.contains t row = true) groups)) ↔
      row ∈ I.rows ∧ visible excludeTests row = true ∧ Satisfies (fun t => I.contains t row = true) groups := by
    intro row
    rw [(I.order_perm groups _).mem_iff]
    simp
  rw [List.map_map]
  have hid : Prod.fst ∘ (fun row => (row, -(I.bm25 groups row))) = id := rfl
  rw [hid, List.map_id]
  constructor
  · intro row hrow
    exact (hmem row).mp (limitRows_subset hrow)
  · exact length_limitRows _
  · intro hlimit row hrow hvisible hP
    exact limitRows_ne_nil hlimit (List.ne_nil_of_mem ((hmem row).mpr ⟨hrow, hvisible, hP⟩))

section Terms

variable [Neg Score] (hne : terms ≠ []) (hquote : ∀ t ∈ terms, '"' ∉ t)

include hne hquote

theorem joinAnd_pass : ∃ pairs, matchRows I limit excludeTests (joinAnd terms) = some pairs ∧
    Pass I limit excludeTests (fun row => ∀ t ∈ terms, I.contains t row = true) (pairs.map Prod.fst) := by
  obtain ⟨pairs, hpairs, hpass⟩ := matchRows_pass I limit excludeTests (parseMatch_and hne hquote)
  simp only [satisfies_all] at hpass
  exact ⟨pairs, hpairs, hpass⟩

theorem orPass_pass : ∃ r, orPass I limit excludeTests terms = some r ∧ r.orFallback = decide (1 < terms.length) ∧
    r.cjkSubstringFallback = false ∧ r.emptyReason = none ∧
    Pass I limit excludeTests (fun row => ∃ t ∈ terms, I.contains t row = true) r.nodes := by
  obtain ⟨pairs, hpairs, hpass⟩ := matchRows_pass I limit excludeTests (parseMatch_or hne hquote)
  simp only [satisfies_any] at hpass
  refine ⟨_, by rw [orPass, joinOr, hpairs, Option.map_some], rfl, rfl, rfl, hpass⟩

end Terms

theorem probeExists_eq {t : List Char} (ht : '"' ∉ t) : ∃ found, probeExists I excludeTests t = some found ∧
    (found = true ↔ ∃ row ∈ I.rows, visible excludeTests row = true ∧ I.contains t row = true) := by
  have hparse : parseMatch (quotePhrase t) = some [[t]] := by
    have h := parseMatch_and (List.cons_ne_nil t []) (by simpa using ht)
    simpa [List.intercalate] using h
  refine ⟨_, by rw [probeExists, hparse, Option.map_some], ?_⟩
  simp

end Statements

/-! ### What is returned -/

/-- Why a row is in the answer. -/
structure Explained (U : Unicode) (I : Index Score) (query : List Char) (excludeTests : Bool) (r : FtsResult Score)
    (row : NodeRow) : Prop where
  stored : row ∈ I.rows
  visible : visible excludeTests row = true
  precise : r.isWidenedMatch = false → ∀ t ∈ ftsTerms U query, I.contains t row = true
  fallback : r.orFallback = true → ∃ t ∈ ftsTerms U query, I.contains t row = true
  scanned : r.cjkSubstringFallback = true →
    ∀ run ∈ cjkTerms query, ∃ s, some s ∈ textColumns row ∧ run <:+: s.toList

structure Answers (U : Unicode) (I : Index Score) (query : List Char) (limit : ℤ) (excludeTests : Bool)
    (r : FtsResult Score) : Prop where
  explained : ∀ row ∈ r.nodes, Explained U I query excludeTests r row
  short : 0 ≤ limit → r.nodes.length ≤ limit.toNat

theorem answers_empty (reason : Option String) :
    Answers U I query limit excludeTests (FtsResult.empty reason) where
  explained := by
    intro row hrow
    exact absurd hrow List.not_mem_nil
  short := fun _ => Nat.zero_le _

/-- A pass over the rows with some of the terms, flagged as widened unless it asks for the one term there is. -/
theorem answers_of_pass {r : FtsResult Score} {P : NodeRow → Prop} (hpass : Pass I limit excludeTests P r.nodes)
    (hcjk : r.cjkSubstringFallback = false)
    (hall : r.orFallback = false → ∀ row, P row → ∀ t ∈ ftsTerms U query, I.contains t row = true)
    (hsome : ∀ row, P row → ∃ t ∈ ftsTerms U query, I.contains t row = true) :
    Answers U I query limit excludeTests r where
  explained := by
    intro row hrow
    obtain ⟨hstored, hvisible, hP⟩ := hpass.sound row hrow
    refine ⟨hstored, hvisible, ?_, fun _ => hsome row hP, ?_⟩
    · intro hwidened
      rw [FtsResult.isWidenedMatch, hcjk, Bool.or_false] at hwidened
      exact hall hwidened row hP
    · intro h
      rw [hcjk] at h
      exact absurd h (by simp)
  short := hpass.short

section Passes

variable [Neg Score] (hne : ftsTerms U query ≠ [])

include hne

theorem orPass_answers : ∃ r, orPass I limit excludeTests (ftsTerms U query) = some r ∧ r.emptyReason = none ∧
    Answers U I query limit excludeTests r := by
  obtain ⟨r, hr, hfallback, hcjk, hreason, hpass⟩ := orPass_pass I limit excludeTests hne fun t ht => quote_not_mem ht
  refine ⟨r, hr, hreason, answers_of_pass hpass hcjk ?_ fun row h => h⟩
  rintro hprecise row ⟨t, ht, hcontains⟩ u hu
  rw [hfallback, decide_eq_false_iff_not, not_lt] at hprecise
  -- The only term is the one that was found.
  have hone : ftsTerms U query = [t] := by
    obtain ⟨t', hone⟩ := List.length_eq_one_iff.mp (le_antisymm hprecise (List.length_pos_iff.mpr hne))
    rw [hone, List.mem_singleton] at ht
    rw [hone, ht]
  rw [hone, List.mem_singleton] at hu
  rwa [hu]

omit hne in
theorem relaxedPass_answers : ∃ r, relaxedPass I limit excludeTests (ftsTerms U query) = some r ∧
    r.emptyReason = none ∧ Answers U I query limit excludeTests r := by
  rw [relaxedPass]
  split_ifs with hsurviving
  · have hsub : ∀ t ∈ (ftsTerms U query).filter fun t => (probeExists I excludeTests t).getD false,
        t ∈ ftsTerms U query := fun t ht => List.mem_of_mem_filter ht
    obtain ⟨pairs, hpairs, hpass⟩ := joinAnd_pass I limit excludeTests
      hsurviving.1 fun t ht => quote_not_mem (hsub t ht)
    refine ⟨_, by rw [hpairs, Option.map_some], ?_⟩
    split_ifs with hnil
    · exact ⟨rfl, answers_empty none⟩
    · refine ⟨rfl, answers_of_pass hpass rfl ?_ ?_⟩
      · intro h
        exact absurd h (by simp [answer])
      · intro row hall
        obtain ⟨t, ht⟩ := List.exists_mem_of_ne_nil _ hsurviving.1
        exact ⟨t, hsub t ht, hall t ht⟩
  · exact ⟨_, rfl, rfl, answers_empty none⟩

theorem probedPass_answers (original : List Char) :
    ∃ r, probedPass U I limit excludeTests (ftsTerms U query) original = some r ∧ r.emptyReason = none ∧
      Answers U I query limit excludeTests r := by
  have hquote : '"' ∉ original.filter (isTermChar U) := by
    intro h
    have hterm := (List.mem_filter.mp h).2
    simp [isTermChar, U.quote] at hterm
  obtain ⟨found, hfound, -⟩ := probeExists_eq I excludeTests hquote
  simp only [probedPass, hfound, Option.bind_some]
  split_ifs
  · exact orPass_answers hne
  · exact ⟨_, rfl, rfl, answers_empty none⟩
  · exact orPass_answers hne

theorem widen_answers : ∃ r, widen U I query limit excludeTests (ftsTerms U query) = some r ∧ r.emptyReason = none ∧
    Answers U I query limit excludeTests r := by
  rw [widen]
  split_ifs
  · split
    · exact orPass_answers hne
    · exact probedPass_answers hne _
    · exact relaxedPass_answers
  · exact orPass_answers hne

theorem afterAnd_answers {pairs : List (NodeRow × Score)}
    (hpass : Pass I limit excludeTests (fun row => ∀ t ∈ ftsTerms U query, I.contains t row = true)
      (pairs.map Prod.fst)) :
    ∃ r, afterAnd U I query limit excludeTests (ftsTerms U query) pairs = some r ∧ r.emptyReason = none ∧
      Answers U I query limit excludeTests r := by
  rw [afterAnd]
  split_ifs
  · refine ⟨_, rfl, rfl, answers_of_pass hpass rfl (fun _ row h => h) ?_⟩
    intro row hall
    obtain ⟨t, ht⟩ := List.exists_mem_of_ne_nil _ hne
    exact ⟨t, ht, hall t ht⟩
  · exact widen_answers hne
  · exact orPass_answers hne

end Passes

/-- The passes answer, with a reason when no term is left of the query. -/
theorem fts5SearchMatch_answers [Neg Score] (U : Unicode) (I : Index Score) (query : List Char) (limit : ℤ)
    (excludeTests : Bool) : ∃ r, fts5SearchMatch U I query limit excludeTests = some r ∧
      (r.emptyReason.isSome = true ↔ ftsTerms U query = []) ∧ Answers U I query limit excludeTests r := by
  unfold fts5SearchMatch
  by_cases hne : ftsTerms U query = []
  · exact ⟨_, if_pos hne, by simp [hne, FtsResult.empty], answers_empty _⟩
  · have hcases : ∃ r, (if 1 < (ftsTerms U query).length then
          (matchRows I limit excludeTests (joinAnd (ftsTerms U query))).bind
            (afterAnd U I query limit excludeTests (ftsTerms U query))
        else orPass I limit excludeTests (ftsTerms U query)) = some r ∧ r.emptyReason = none ∧
          Answers U I query limit excludeTests r := by
      split_ifs
      · obtain ⟨pairs, hpairs, hpass⟩ := joinAnd_pass I limit excludeTests hne fun t ht => quote_not_mem ht
        rw [hpairs, Option.bind_some]
        exact afterAnd_answers hne hpass
      · exact orPass_answers hne
    obtain ⟨r, hr, hreason, hanswers⟩ := hcases
    exact ⟨r, (if_neg hne).trans hr, by simp [hreason, hne], hanswers⟩

/-! ### The scan -/

theorem cjkRuns_eq_words (run s : List Char) (hrun : ∀ c ∈ run, isUnsegmentedScript c = true) :
    cjkRuns run s = words (fun c => !isUnsegmentedScript c) (run ++ s) := by
  induction s generalizing run with
  | nil =>
    rw [cjkRuns, List.append_nil, words_of_free fun c hc => by simp [hrun c hc]]
    cases run <;> rfl
  | cons c s ih =>
    rw [cjkRuns]
    by_cases hc : isUnsegmentedScript c = true
    · have hgrow : ∀ d ∈ run ++ [c], isUnsegmentedScript d = true := by
        intro d hd
        rcases List.mem_append.mp hd with hd | hd
        · exact hrun d hd
        · rwa [List.mem_singleton.mp hd]
      rw [if_pos hc, ih _ hgrow, List.append_assoc, List.singleton_append]
    · have hfresh := ih [] fun _ h => absurd h List.not_mem_nil
      rw [List.nil_append] at hfresh
      have hopen : words (fun c => !isUnsegmentedScript c) run = [run].filter fun w => !w.isEmpty :=
        words_of_free fun d hd => by simp [hrun d hd]
      rw [if_neg hc, hfresh, words_append_sep (by simp [hc]), hopen]
      cases run <;> rfl

theorem mem_cjkTerms {t : List Char} : t ∈ cjkTerms query ↔ t ∈ words (fun c => !isUnsegmentedScript c) query := by
  rw [cjkTerms, mem_inOrder, List.mem_toFinset, cjkRuns_eq_words [] query (fun _ h => absurd h List.not_mem_nil),
    List.nil_append]

theorem toNat_of_unsegmented {c : Char} (hc : isUnsegmentedScript c = true) : 0x3040 ≤ c.toNat := by
  simp only [isUnsegmentedScript, Bool.or_eq_true, Bool.and_eq_true, decide_eq_true_eq] at hc
  omega

theorem toLower_eq_iff_of_unsegmented {c d : Char} (hc : isUnsegmentedScript c = true) : d.toLower = c ↔ d = c := by
  have hc' := toNat_of_unsegmented hc
  have hkeep : ∀ e : Char, e.toLower = e ∨ (e.toNat ≤ 90 ∧ e.toLower.toNat ≤ 122) := by
    intro e
    rw [Char.toLower]
    split_ifs with h
    · have hle : e.val.toNat ≤ 90 := UInt32.le_iff_toNat_le.mp h.2
      have hstep : ('a'.val - 'A'.val).toNat = 32 := by decide
      refine .inr ⟨hle, ?_⟩
      show (e.val + ('a'.val - 'A'.val)).toNat ≤ 122
      rw [UInt32.toNat_add, hstep]
      omega
    · exact .inl rfl
  constructor
  · rintro rfl
    rcases hkeep d with h | ⟨-, h⟩
    · exact h.symm
    · omega
  · rintro rfl
    rcases hkeep d with h | ⟨h, -⟩
    · exact h
    · omega

theorem map_toLower_eq_iff {t u : List Char} (ht : ∀ c ∈ t, isUnsegmentedScript c = true) :
    u.map Char.toLower = t ↔ u = t := by
  induction u generalizing t with
  | nil => simp
  | cons d u ih =>
    cases t with
    | nil => simp
    | cons c t =>
      rw [List.map_cons, List.cons.injEq, List.cons.injEq, toLower_eq_iff_of_unsegmented (ht c List.mem_cons_self),
        ih fun e he => ht e (List.mem_cons_of_mem c he)]

/-- A run is scanned for as it stands: it has no letter with a case, and nothing that a pattern gives a meaning. -/
theorem likeTerm_iff {t : List Char} {s : String} (ht : ∀ c ∈ t, isUnsegmentedScript c = true) :
    likeTerm t (some s) = true ↔ t <:+: s.toList := by
  rw [likeTerm, Option.any_some, likeEscape_infix_iff, (map_toLower_eq_iff ht).mpr rfl]
  constructor
  · rintro ⟨a, b, hab⟩
    obtain ⟨front, back, hs, hfront, -⟩ := List.append_eq_map_iff.mp hab
    obtain ⟨a', t', hfront', -, ht'⟩ := List.append_eq_map_iff.mp hfront.symm
    rw [(map_toLower_eq_iff ht).mp ht'] at hfront'
    exact ⟨a', back, by rw [← hfront', hs]⟩
  · intro h
    have hmap := h.map Char.toLower
    rwa [(map_toLower_eq_iff ht).mpr rfl] at hmap

/-- The scan is a pass over the rows that have every run in some column. -/
theorem cjkSubstringScan_answers [Zero Score] (U : Unicode) (I : Index Score) (query : List Char) (limit : ℤ)
    (excludeTests : Bool) : Answers U I query limit excludeTests (cjkSubstringScan I query limit excludeTests) ∧
      (cjkSubstringScan I query limit excludeTests).emptyReason = none := by
  simp only [cjkSubstringScan]
  split_ifs
  · exact ⟨answers_empty none, rfl⟩
  · exact ⟨answers_empty none, rfl⟩
  · exact ⟨answers_empty none, rfl⟩
  · refine ⟨⟨?_, length_limitRows _⟩, rfl⟩
    intro row hrow
    have hmem := mem_sortByKey.mp (limitRows_subset hrow)
    simp only [List.mem_filter, Bool.and_eq_true, List.all_eq_true, List.any_eq_true] at hmem
    obtain ⟨hstored, hvisible, hall⟩ := hmem
    refine ⟨hstored, hvisible, fun h => absurd h (by simp [FtsResult.isWidenedMatch]), fun h => absurd h (by simp), ?_⟩
    intro _ run hrun
    obtain ⟨column, hcolumn, hlike⟩ := hall run hrun
    have hscript : ∀ c ∈ run, isUnsegmentedScript c = true := by
      intro c hc
      simpa using sep_eq_false_of_mem_words (mem_cjkTerms.mp hrun) hc
    cases column with
    | none => simp [likeTerm] at hlike
    | some s => exact ⟨s, hcolumn, (likeTerm_iff hscript).mp hlike⟩

/-- **Every row of an answer matches, in the way the answer says.** The index reads the probe of every term as well. -/
theorem search_explained [Neg Score] [Zero Score] (U : Unicode) (I : Index Score) (query : List Char) (limit : ℤ)
    (excludeTests : Bool) : (∃ r, fts5Search U I query limit excludeTests = some r ∧
      (r.emptyReason.isSome = true ↔ ftsTerms U query = []) ∧
      (0 ≤ limit → r.nodes.length ≤ limit.toNat) ∧ ∀ row ∈ r.nodes, Explained U I query excludeTests r row) ∧
    ∀ t ∈ ftsTerms U query, (probeExists I excludeTests t).isSome = true := by
  constructor
  · obtain ⟨matched, hmatched, hreason, hanswers⟩ := fts5SearchMatch_answers U I query limit excludeTests
    refine ⟨_, by rw [fts5Search, hmatched, Option.map_some], ?_⟩
    split_ifs with hdone
    · exact ⟨hreason, hanswers.short, hanswers.explained⟩
    · obtain ⟨hscan, hnone⟩ := cjkSubstringScan_answers U I query limit excludeTests
      refine ⟨?_, hscan.short, hscan.explained⟩
      rw [hnone, ← hreason]
      simp only [not_or, Bool.not_eq_true] at hdone
      simp [hdone.2]
  · intro t ht
    obtain ⟨found, hfound, -⟩ := probeExists_eq I excludeTests (quote_not_mem ht)
    rw [hfound]
    rfl

/-! ### What is not missed -/

section Reach

variable (hlimit : limit ≠ 0) (hrow : row ∈ I.rows) (hvisible : visible excludeTests row = true)

include hlimit hrow hvisible

theorem orPass_reaches [Neg Score] (hne : ftsTerms U query ≠ [])
    (hsome : ∃ t ∈ ftsTerms U query, I.contains t row = true) :
    ∃ r, orPass I limit excludeTests (ftsTerms U query) = some r ∧ r.nodes ≠ [] := by
  obtain ⟨r, hr, -, -, -, hpass⟩ := orPass_pass I limit excludeTests hne
    fun t ht => quote_not_mem ht
  exact ⟨r, hr, hpass.complete hlimit row hrow hvisible hsome⟩

/-- A row with all terms is reached by the first pass or, when that finds too few, by the one over any of them. -/
theorem fts5SearchMatch_reaches [Neg Score] (hsome : ∃ t ∈ ftsTerms U query, I.contains t row = true)
    (h : (∀ t ∈ ftsTerms U query, I.contains t row = true) ∨ 1 < userWords U query) :
    ∃ r, fts5SearchMatch U I query limit excludeTests = some r ∧ r.nodes ≠ [] := by
  have hne : ftsTerms U query ≠ [] := by
    obtain ⟨t, ht, -⟩ := hsome
    exact List.ne_nil_of_mem ht
  have hor := orPass_reaches hlimit hrow hvisible hne hsome
  simp only [fts5SearchMatch, if_neg hne]
  split_ifs with hmany
  · obtain ⟨pairs, hpairs, hpass⟩ := joinAnd_pass I limit excludeTests hne
      fun t ht => quote_not_mem ht
    rw [hpairs, Option.bind_some, afterAnd]
    split_ifs with hfloor hnil
    · refine ⟨_, rfl, ?_⟩
      have hlen : (pairs.map Prod.fst).length ≠ 0 := by
        rw [List.length_map]
        simp only [andMatchFloor] at hfloor
        omega
      exact fun hnodes => hlen (by rw [show pairs.map Prod.fst = [] from hnodes, List.length_nil])
    · rcases h with hall | hwords
      · have hfound := hpass.complete hlimit row hrow hvisible hall
        rw [hnil] at hfound
        exact absurd rfl hfound
      · rw [widen, if_neg (not_le.mpr hwords)]
        exact hor
    · exact hor
  · exact hor

theorem cjkSubstringScan_reaches [Zero Score] (hne : cjkTerms query ≠ [])
    (hfew : (cjkTerms query).length ≤ cjkScanMaxTerms)
    (hall : ∀ run ∈ cjkTerms query, ∃ s, some s ∈ textColumns row ∧ run <:+: s.toList) :
    (cjkSubstringScan I query limit excludeTests).nodes ≠ [] := by
  have hlike : ∀ run ∈ cjkTerms query, (textColumns row).any (likeTerm run) = true := by
    intro run hrun
    obtain ⟨s, hs, hinfix⟩ := hall run hrun
    have hscript : ∀ c ∈ run, isUnsegmentedScript c = true := by
      intro c hc
      simpa using sep_eq_false_of_mem_words (mem_cjkTerms.mp hrun) hc
    exact List.any_eq_true.mpr ⟨some s, hs, (likeTerm_iff hscript).mpr hinfix⟩
  have hfound : limitRows limit (sortByKey (scanKey (cjkTerms query)) (I.rows.filter fun row =>
      visible excludeTests row && (cjkTerms query).all fun t => (textColumns row).any (likeTerm t))) ≠ [] := by
    apply limitRows_ne_nil hlimit
    apply List.ne_nil_of_mem (a := row)
    rw [mem_sortByKey, List.mem_filter, hvisible, Bool.true_and]
    exact ⟨hrow, List.all_eq_true.mpr hlike⟩
  simp only [cjkSubstringScan]
  rw [if_neg hne, if_neg (not_lt.mpr hfew), if_neg hfound]
  exact hfound

end Reach

/-- **A row that matches is not missed.** -/
theorem search_answers [Neg Score] [Zero Score] (hlimit : limit ≠ 0) (hrow : row ∈ I.rows)
    (hvisible : visible excludeTests row = true) (hne : ftsTerms U query ≠ [])
    (h : (∀ t ∈ ftsTerms U query, I.contains t row = true) ∨
      (1 < userWords U query ∧ ∃ t ∈ ftsTerms U query, I.contains t row = true) ∨
      (cjkTerms query ≠ [] ∧ (cjkTerms query).length ≤ cjkScanMaxTerms ∧
        ∀ run ∈ cjkTerms query, ∃ s, some s ∈ textColumns row ∧ run <:+: s.toList)) :
    ∃ r, fts5Search U I query limit excludeTests = some r ∧ r.nodes ≠ [] := by
  have hreach : ∀ matched, fts5SearchMatch U I query limit excludeTests = some matched → matched.nodes ≠ [] →
      ∃ r, fts5Search U I query limit excludeTests = some r ∧ r.nodes ≠ [] := by
    intro matched hmatched hnodes
    exact ⟨matched, by rw [fts5Search, hmatched, Option.map_some, if_pos (.inl hnodes)], hnodes⟩
  rcases h with hall | ⟨hwords, hsome⟩ | ⟨hruns, hfew, hcolumns⟩
  · have hsome : ∃ t ∈ ftsTerms U query, I.contains t row = true := by
      obtain ⟨t, ht⟩ := List.exists_mem_of_ne_nil _ hne
      exact ⟨t, ht, hall t ht⟩
    obtain ⟨matched, hmatched, hnodes⟩ := fts5SearchMatch_reaches hlimit hrow hvisible hsome (.inl hall)
    exact hreach matched hmatched hnodes
  · obtain ⟨matched, hmatched, hnodes⟩ := fts5SearchMatch_reaches hlimit hrow hvisible hsome (.inr hwords)
    exact hreach matched hmatched hnodes
  · obtain ⟨matched, hmatched, hreason, -⟩ := fts5SearchMatch_answers U I query limit excludeTests
    by_cases hnodes : matched.nodes = []
    · have hran : ¬(matched.nodes ≠ [] ∨ matched.emptyReason.isSome = true) := by
        rw [hreason]
        exact fun h => h.elim (fun hn => hn hnodes) hne
      refine ⟨_, by rw [fts5Search, hmatched, Option.map_some, if_neg hran], ?_⟩
      exact cjkSubstringScan_reaches hlimit hrow hvisible hruns hfew hcolumns
    · exact hreach matched hmatched hnodes

def isAsciiLowercase (c : Char) : Bool := 97 ≤ c.toNat && c.toNat ≤ 122

def isAsciiAlphanumeric (c : Char) : Bool :=
  (48 ≤ c.toNat && c.toNat ≤ 57) || (65 ≤ c.toNat && c.toNat ≤ 90) || isAsciiLowercase c

theorem isAsciiLowercase_underscore : isAsciiLowercase '_' = false := rfl

theorem isAsciiAlphanumeric_quote : isAsciiAlphanumeric '"' = false := rfl

theorem isAsciiAlphanumeric_space (c : Char) (hc : Pipeline.InFlight.isWhitespace c = true) :
    isAsciiAlphanumeric c = false := by
  simp only [Pipeline.InFlight.isWhitespace, Bool.or_eq_true, Bool.and_eq_true, decide_eq_true_eq, beq_iff_eq] at hc
  simp only [isAsciiAlphanumeric, isAsciiLowercase, Bool.or_eq_false_iff, Bool.and_eq_false_iff,
    decide_eq_false_iff_not]
  omega

/-- The tables on ASCII texts. -/
def asciiTables : Unicode where
  isUppercase c := 65 ≤ c.toNat && c.toNat ≤ 90
  isLowercase := isAsciiLowercase
  isAlphanumeric := isAsciiAlphanumeric
  toLowercase := List.map Char.toLower
  underscore := isAsciiLowercase_underscore
  quote := isAsciiAlphanumeric_quote
  space := isAsciiAlphanumeric_space

def poolRow : NodeRow := ⟨1, "pool", none, "db pool", none, none, false⟩

def poolIndex : Index ℤ where
  rows := [poolRow]
  contains t row := decide (t ∈ words (fun c => c == ' ') row.codeContent.toList)
  bm25 _ _ := -1
  order _ l := l
  order_perm _ l := List.Perm.refl l

/-- Two words of which the index knows one. -/
theorem search_answers_fallback :
    ∃ r, fts5Search asciiTables poolIndex "the db missing".toList 5 true = some r ∧ r.nodes ≠ [] := by
  have hterms : ftsTerms asciiTables "the db missing".toList = ["db".toList, "missing".toList] := by decide
  have hrow : poolRow ∈ poolIndex.rows := List.mem_singleton_self poolRow
  have hne : ftsTerms asciiTables "the db missing".toList ≠ [] := by
    rw [hterms]
    decide
  have hdb : "db".toList ∈ ftsTerms asciiTables "the db missing".toList := by
    rw [hterms]
    decide
  exact search_answers (by decide) hrow (by decide) hne (.inr (.inl ⟨by decide, "db".toList, hdb, by decide⟩))

end CodeGraph.Search.Fts
