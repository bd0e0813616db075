import CodeGraph.Plugin.Correct.ShellSegments

/-!
# The readers of a shell line and its quoting

The readers agree on lines whose bare blanks are those of the shell, without a dangling backslash and without words that
are nothing but line continuations (`Plain`), where no bare `#` is taken for the start of a comment (`NoMisread`).
-/

namespace CodeGraph.Plugin.Shell

open CodeGraph.Lib (trim)
open CodeGraph.Lib.Quoting
open CodeGraph.Plugin.Adopt (jsSpace isBlank)

variable {p : Part} {ps : List Part} {c q : Char} {s text rest : List Char}

/-! ### Agreement -/

/-- Quote removal, of a text with balanced quotes. -/
def unquote (s : List Char) : Option (List Char) := (parts s).map Lib.Quoting.text

/-- A split at a separator parts the segments. -/
def SplitsAt (s before behind : List Char) : Prop :=
  splitTopLevelSegments s = splitTopLevelSegments before ++ splitTopLevelSegments behind

/-- The readers say of a line what its parts say. -/
structure Agree (s : List Char) (ps : List Part) : Prop where
  whole : (splitKeepingQuotes s).flatten = s
  words : ∃ ws, clauseWords s = some ws ∧
    ((splitKeepingQuotes s).filter fun piece => !isBlank piece).map unquote = ws.map fun w => some w.text
  noSpurious : ∃ ws, clauseWords s = some ws ∧ ws.map Word.text = (Lib.Quoting.words ps).map Lib.Quoting.text
  spans : quotedSpans s = quotedParts 0 ps
  clause : firstShellClause s = render (clause ps)
  noTail : jsLength s ≤ 2000 → parted ps = none → extractUnansweredTail s = none
  tail : jsLength s ≤ 2000 → ∀ before behind, parted ps = some (before, behind) →
    extractUnansweredTail s =
      (if trim jsSpace (render behind) = [] then none else some (trim jsSpace (render behind))) ∧
    SplitsAt s (render before) (render behind)

/-- The bare blanks are those of the shell, nothing dangles, and no word is nothing but line continuations. -/
structure Plain (ps : List Part) : Prop where
  blanks : ∀ c, .bare c ∈ ps → jsSpace c = true → (Part.bare c).blank = true
  ends : .dangling ∉ ps
  words : ∀ w ∈ Lib.words Part.blank ps, ∃ p ∈ w, p.continuation = false

theorem parted_eq_some {before behind : List Part} (h : parted ps = some (before, behind)) :
    parted before = none ∧ (ps = before ++ .bare ';' :: behind ∨
      ps = before ++ .bare '&' :: .bare '&' :: behind ∧ before.getLast? ≠ some (.bare '&')) := by
  -- the induction is on the parts; the first separator is the one that counts
  induction ps generalizing before with
  | nil => cases h
  | cons p ps ih =>
    rw [parted] at h
    split_ifs at h with hsemi hboth
    · cases h
      exact ⟨rfl, .inl (by rw [hsemi]; rfl)⟩
    · cases h
      obtain ⟨hp, hhead⟩ := hboth
      obtain ⟨qs, rfl⟩ := List.head?_eq_some_iff.mp hhead
      exact ⟨rfl, .inr ⟨by rw [hp]; rfl, by simp⟩⟩
    · obtain ⟨⟨a, b⟩, hab, heq⟩ := Option.map_eq_some_iff.mp h
      cases heq
      obtain ⟨hnone, hps⟩ := ih hab
      have hhead : ∀ c, a.head? = some (.bare c) → c = '&' → ps.head? = some (.bare '&') := by
        rintro c hc rfl
        obtain ⟨as, rfl⟩ := List.head?_eq_some_iff.mp hc
        rcases hps with rfl | ⟨rfl, -⟩ <;> rfl
      refine ⟨?_, ?_⟩
      · rw [parted, if_neg hsemi, if_neg fun hand => hboth ⟨hand.1, hhead '&' hand.2 rfl⟩, hnone]
        rfl
      · rcases hps with rfl | ⟨rfl, hlast⟩
        · exact .inl rfl
        · refine .inr ⟨rfl, ?_⟩
          cases a with
          | nil =>
            intro hand
            exact hboth ⟨Option.some_inj.mp hand, rfl⟩
          | cons q as =>
            rw [List.getLast?_cons_cons]
            exact hlast

/-! ### Words and pieces of a line -/

theorem clauseWords_eq (h : parts s = some ps) : ∃ ws, clauseWords s = some ws ∧
    ws.map Word.text = (Lib.words Part.blank ps).map (List.flatMap wordText) := by
  obtain ⟨ws, hws, htexts⟩ := @wordsLoop_render ps .between (proper_parts h) nofun
  refine ⟨ws, ?_, htexts.trans (Lib.gather_none ps)⟩
  rw [clauseWords, ← render_parts h, hws]

theorem proper_within {qs : List Part} (h : Proper ps) (hqs : qs <:+: ps) : Proper qs := by
  obtain ⟨a, b, rfl⟩ := hqs
  exact h.append_left.append_right

theorem pieces_eq (h : parts s = some ps) : ((splitKeepingQuotes s).filter fun piece => !isBlank piece).map unquote =
    (Lib.words jsBlank ps).map fun w => some (Lib.Quoting.text w) := by
  have hloop := @filter_keepLoop ps (proper_parts h) [] (.inl rfl)
  rw [render_parts h, if_pos rfl, Lib.gather_none] at hloop
  rw [splitKeepingQuotes, hloop, List.map_map]
  refine List.map_congr_left fun w hw => ?_
  have hproper := proper_within (proper_parts h) (Lib.isInfix_of_mem_words hw)
  show (parts (render w)).map Lib.Quoting.text = _
  rw [parts_render hproper]
  rfl

/-- A bare character that parts pieces but no words. -/
def strange (p : Part) : Bool := jsBlank p && !p.blank

theorem jsBlank_of_blank (h : p.blank = true) : jsBlank p = true := by
  cases p with
  | bare c =>
    rcases (of_decide_eq_true h : c = ' ' ∨ c = '\t' ∨ c = '\n') with rfl | rfl | rfl <;> decide
  | _ => cases h

/-- The readers of pieces and of words take a part alike, but for two kinds. -/
theorem part_cases (p : Part) : p = .dangling ∨ (∃ c, p = .bare c ∧ jsSpace c = true ∧ p.blank = false) ∨
    p ≠ .dangling ∧ strange p = false ∧ jsBlank p = p.blank ∧ wordText p = p.text := by
  by_cases hdangling : p = .dangling
  · exact .inl hdangling
  have htext : wordText p = p.text := if_neg hdangling
  by_cases hblank : p.blank = true
  · have hjs := jsBlank_of_blank hblank
    exact .inr (.inr ⟨hdangling, by rw [strange, hjs, hblank]; rfl, by rw [hjs, hblank], htext⟩)
  · rw [Bool.not_eq_true] at hblank
    by_cases hjs : jsBlank p = true
    · obtain ⟨c, rfl⟩ : ∃ c, p = .bare c := by
        cases p with
        | bare c => exact ⟨c, rfl⟩
        | _ => cases hjs
      exact .inr (.inl ⟨c, rfl, hjs, hblank⟩)
    · rw [Bool.not_eq_true] at hjs
      exact .inr (.inr ⟨hdangling, by rw [strange, hjs]; rfl, by rw [hjs, hblank], htext⟩)

/-- The backslashes that words lose. -/
theorem count_texts (ps : List Part) :
    ((ps.filter fun p => !jsBlank p).flatMap Part.text).count '\\' =
      ((ps.filter fun p => !p.blank).flatMap wordText).count '\\' + ps.count .dangling := by
  induction ps with
  | nil => rfl
  | cons p ps ih =>
    obtain rfl | ⟨c, rfl, hjs, hblank⟩ | ⟨hdangling, -, hsame, htext⟩ := part_cases p
    · rw [List.filter_cons_of_pos (by decide), List.filter_cons_of_pos (by decide), List.flatMap_cons,
        List.flatMap_cons, List.count_append, List.count_append, ih, List.count_cons_self]
      show 1 + _ = 0 + _ + _
      omega
    · have hjs' : jsBlank (.bare c) = true := hjs
      have hdangling : Part.bare c ≠ .dangling := nofun
      have hc : c ≠ '\\' := by
        rintro rfl
        exact absurd hjs (by decide)
      rw [List.filter_cons_of_neg (by rw [hjs']; decide), List.filter_cons_of_pos (by rw [hblank]; rfl),
        List.flatMap_cons, List.count_append, ih, List.count_cons_of_ne hdangling]
      show _ = [c].count '\\' + _ + _
      rw [List.count_singleton, if_neg (by simpa using hc), Nat.zero_add]
    · rw [List.count_cons_of_ne hdangling]
      by_cases hblank : p.blank = true
      · rw [List.filter_cons_of_neg (by rw [hsame, hblank]; decide),
          List.filter_cons_of_neg (by rw [hblank]; decide), ih]
      · rw [Bool.not_eq_true] at hblank
        rw [List.filter_cons_of_pos (by rw [hsame, hblank]; rfl), List.filter_cons_of_pos (by rw [hblank]; rfl),
          List.flatMap_cons, List.flatMap_cons, List.count_append, List.count_append, ih, htext, Nat.add_assoc]

theorem length_texts (ps : List Part) :
    ((ps.filter fun p => !jsBlank p).flatMap Part.text).length + ps.countP strange =
      ((ps.filter fun p => !p.blank).flatMap wordText).length + ps.count .dangling := by
  induction ps with
  | nil => rfl
  | cons p ps ih =>
    obtain rfl | ⟨c, rfl, hjs, hblank⟩ | ⟨hdangling, hplain, hsame, htext⟩ := part_cases p
    · rw [List.filter_cons_of_pos (by decide), List.filter_cons_of_pos (by decide), List.flatMap_cons,
        List.flatMap_cons, List.length_append, List.length_append, List.count_cons_self,
        List.countP_cons_of_neg (by decide)]
      show 1 + _ + _ = 0 + _ + _
      omega
    · have hjs' : jsBlank (.bare c) = true := hjs
      have hdangling : Part.bare c ≠ .dangling := nofun
      rw [List.filter_cons_of_neg (by rw [hjs']; decide), List.filter_cons_of_pos (by rw [hblank]; rfl),
        List.flatMap_cons, List.length_append, List.count_cons_of_ne hdangling,
        List.countP_cons_of_pos (by rw [strange, hjs', hblank]; rfl)]
      show _ + _ = 1 + _ + _
      omega
    · rw [List.count_cons_of_ne hdangling, List.countP_cons_of_neg (by rw [hplain]; decide)]
      by_cases hblank : p.blank = true
      · rw [List.filter_cons_of_neg (by rw [hsame, hblank]; decide),
          List.filter_cons_of_neg (by rw [hblank]; decide), ih]
      · rw [Bool.not_eq_true] at hblank
        rw [List.filter_cons_of_pos (by rw [hsame, hblank]; rfl), List.filter_cons_of_pos (by rw [hblank]; rfl),
          List.flatMap_cons, List.flatMap_cons, List.length_append, List.length_append, htext]
        omega

/-- The pieces and the words of `clauseWords` have the same texts on lines with plain blanks and a plain end. -/
theorem texts_eq_iff (ps : List Part) :
    (Lib.words jsBlank ps).map Lib.Quoting.text = (Lib.words Part.blank ps).map (List.flatMap wordText) ↔
      (∀ p ∈ ps, strange p = false) ∧ .dangling ∉ ps := by
  have hpieces : (Lib.words jsBlank ps).map Lib.Quoting.text = Lib.gather jsBlank Part.text none ps :=
    (Lib.gather_none ps).symm
  rw [hpieces, ← Lib.gather_none (f := wordText)]
  constructor
  · intro h
    have hflat := congrArg List.flatten h
    rw [Lib.flatten_gather, Lib.flatten_gather] at hflat
    have hcount := count_texts ps
    have hlength := length_texts ps
    simp only [Option.getD_none, List.nil_append] at hflat
    rw [hflat] at hcount hlength
    have hends : ps.count .dangling = 0 := by omega
    have hblanks : ps.countP strange = 0 := by omega
    exact ⟨fun p hp => Bool.eq_false_iff.mpr (List.countP_eq_zero.mp hblanks p hp), List.count_eq_zero.mp hends⟩
  · rintro ⟨hblanks, hends⟩
    have hcases : ∀ p ∈ ps, jsBlank p = p.blank ∧ wordText p = p.text := by
      intro p hp
      obtain rfl | ⟨c, rfl, hjs, hblank⟩ | ⟨-, -, hsame, htext⟩ := part_cases p
      · exact absurd hp hends
      · have hstrange := hblanks _ hp
        have hjs' : jsBlank (.bare c) = true := hjs
        rw [strange, hjs', hblank] at hstrange
        cases hstrange
      · exact ⟨hsame, htext⟩
    exact Lib.gather_congr (fun p hp => (hcases p hp).1) (fun p hp => (hcases p hp).2.symm) none

theorem text_filter_continuation (w : List Part) :
    Lib.Quoting.text (w.filter fun p => !p.continuation) = Lib.Quoting.text w := by
  induction w with
  | nil => rfl
  | cons p w ih =>
    by_cases hp : p.continuation = true
    · obtain rfl : p = .escaped '\n' := of_decide_eq_true hp
      rw [List.filter_cons_of_neg (by decide), ih]
      rfl
    · rw [List.filter_cons_of_pos (by simpa using hp), text_cons, text_cons, ih]

/-- The words of the shell are those between bare blanks, where each of them holds more than line continuations. -/
theorem words_eq_iff (ps : List Part) :
    (Lib.words Part.blank ps).map Lib.Quoting.text = (Lib.Quoting.words ps).map Lib.Quoting.text ↔
      ∀ w ∈ Lib.words Part.blank ps, ∃ p ∈ w, p.continuation = false := by
  have hkeep : ∀ p : Part, p.blank = true → (!p.continuation) = true := by
    intro p hp
    cases p with
    | bare c => rfl
    | _ => cases hp
  have hleft : ∀ w : List Part,
      (!(w.filter fun p => !p.continuation).isEmpty) = true ↔ ∃ p ∈ w, p.continuation = false := by
    intro w
    rw [Bool.not_eq_true', List.isEmpty_eq_false_iff_exists_mem]
    simp only [List.mem_filter, Bool.not_eq_true']
  rw [Lib.Quoting.words, Lib.words_filter hkeep]
  constructor
  · intro h w hw
    have hlength := congrArg List.length h
    rw [List.length_map, List.length_map, ← @List.length_map _ _ (Lib.words Part.blank ps)
      (List.filter fun p => !p.continuation)] at hlength
    have hall := List.length_filter_eq_length_iff.mp hlength.symm
    exact (hleft w).mp (hall _ (List.mem_map_of_mem hw))
  · intro h
    rw [List.filter_eq_self.mpr, List.map_map]
    · exact List.map_congr_left fun w _ => (text_filter_continuation w).symm
    · intro w' hw'
      obtain ⟨w, hw, rfl⟩ := List.mem_map.mp hw'
      exact (hleft w).mpr (h w hw)

/-! ### Splits -/

/-- No `#` before the first `;` or `&&` is taken for the start of a comment where no word starts. -/
def NoMisread (ps : List Part) : Prop :=
  ∀ before behind, parted ps = some (before, behind) → misread none before = false

theorem splitsAt (hparts : parts s = some ps) (hdoc : heredoc ps = false) (hcomment : comment none ps = false)
    (harith : arithmetic ps = false) {before behind : List Part} (h : parted ps = some (before, behind))
    (hmisread : misread none before = false) : SplitsAt s (render before) (render behind) := by
  obtain ⟨hparted, hps⟩ := parted_eq_some h
  obtain ⟨sep, hsplit, hsep⟩ : ∃ sep, ps = before ++ (sep ++ behind) ∧ (sep = [.bare ';'] ∨
      sep = [.bare '&', .bare '&'] ∧ before.getLast? ≠ some (.bare '&')) := by
    rcases hps with hps | ⟨hps, hlast⟩
    · exact ⟨[.bare ';'], hps, .inl rfl⟩
    · exact ⟨[.bare '&', .bare '&'], hps, .inr ⟨rfl, hlast⟩⟩
  have hhead : (sep ++ behind).head? ≠ some (.bare '<') := by
    rcases hsep with rfl | ⟨rfl, -⟩ <;> simp
  have hne : sep ++ behind ≠ [] := by
    rcases hsep with rfl | ⟨rfl, -⟩ <;> simp
  have hproper := proper_parts hparts
  have hline := render_parts hparts
  subst hsplit
  have hready : Ready none (.start .first) := ⟨rfl, rfl, rfl, fun _ => .inl rfl⟩
  obtain ⟨segments, state, hstate, hloop⟩ := segmentsLoop_run (hproper.closed_left hne) hready
    (heredoc_append hdoc hhead) (comment_append hcomment)
    (arithmetic_within harith (List.prefix_append _ _).isInfix) hmisread hparted
  have hquote : state.quote = none := hstate.quote
  -- the loop goes on behind the separator as at the start of a command
  have hbehind : ∀ sep : Sep, texts (segmentsLoop 0 (state.next sep) (render behind)) =
      texts (segmentsLoop 0 (.start .first) (render behind)) := by
    intro sep
    have hnext : state.next sep = ⟨[], sep, none, 0, []⟩ := by
      show (⟨[], sep, state.quote, state.arith, state.heredocs⟩ : Cutting) = _
      rw [show state.quote = none from hstate.quote, show state.arith = 0 from hstate.arith,
        show state.heredocs = [] from hstate.heredocs]
    rw [hnext]
    exact texts_congr (text_segmentsLoop ..)
  have hcut : ∃ next, segmentsLoop 0 (.start .first) s =
      segments ++ [state.segment] ++ segmentsLoop 0 (state.next next) (render behind) := by
    rcases hsep with rfl | ⟨rfl, hlast⟩
    · have happly := hloop (';' :: render behind) ⟨by simp, by simp⟩
      have hsemi : segmentsLoop 0 state (';' :: render behind) =
          state.segment :: segmentsLoop 0 (state.next .semicolon) (render behind) := by
        rw [segmentsLoop_bare hquote (fun hboth => absurd hboth.1 (by decide))
          (fun hboth => absurd hboth.1 (by decide)) (fun heq => absurd heq (by decide))
          (fun hboth => absurd hboth.1 (by decide)) (fun heq => absurd heq (by decide)),
          if_neg fun hboth => absurd hboth.1 (by decide), if_neg (by decide),
          if_neg fun hboth => absurd hboth.1 (by decide), if_neg fun hboth => absurd hboth.1 (by decide), if_pos rfl]
      refine ⟨.semicolon, ?_⟩
      rw [← hline, render_append]
      exact happly.trans (by rw [hsemi, List.append_assoc]; rfl)
    · have happly := hloop ('&' :: '&' :: render behind) ⟨by simp, fun heq => absurd heq hlast⟩
      have hboth : segmentsLoop 0 state ('&' :: '&' :: render behind) =
          state.segment :: segmentsLoop 0 (state.next .both) (render behind) := by
        rw [segmentsLoop_bare hquote (fun hboth => absurd hboth.1 (by decide))
          (fun hboth => absurd hboth.1 (by decide)) (fun heq => absurd heq (by decide))
          (fun hboth => absurd hboth.1 (by decide)) (fun heq => absurd heq (by decide)),
          if_neg fun hboth => absurd hboth.1 (by decide), if_neg (by decide), if_pos ⟨rfl, rfl⟩, segmentsLoop]
      refine ⟨.both, ?_⟩
      rw [← hline, render_append]
      exact happly.trans (by rw [hboth, List.append_assoc]; rfl)
  obtain ⟨next, hcut⟩ := hcut
  have hbefore : segmentsLoop 0 (.start .first) (render before) = segments ++ [state.segment] := by
    have happly := hloop [] ⟨by simp, by simp⟩
    rw [List.append_nil] at happly
    exact happly
  rw [SplitsAt, splitTopLevelSegments_eq, splitTopLevelSegments_eq, splitTopLevelSegments_eq, hcut, hbefore,
    texts_append, hbehind]

/-! ### The readers agree -/

theorem plain_of_agree (hparts : parts s = some ps) (h : Agree s ps) : Plain ps := by
  obtain ⟨ws, hws, htexts⟩ := clauseWords_eq hparts
  have hpieces := pieces_eq hparts
  have hsame : (Lib.words jsBlank ps).map Lib.Quoting.text = (Lib.words Part.blank ps).map (List.flatMap wordText) := by
    obtain ⟨ws', hws', hwords⟩ := h.words
    rw [hws, Option.some_inj] at hws'
    subst hws'
    rw [hpieces] at hwords
    have hmap : ((Lib.words jsBlank ps).map Lib.Quoting.text).map some = (ws.map Word.text).map some := by
      rw [List.map_map, List.map_map]
      exact hwords
    rw [← htexts]
    exact List.map_injective_iff.mpr (fun _ _ => Option.some_inj.mp) hmap
  obtain ⟨hblanks, hends⟩ := (texts_eq_iff ps).mp hsame
  refine ⟨fun c hc hjs => ?_, hends, (words_eq_iff ps).mp ?_⟩
  · have hstrange := hblanks _ hc
    have hjs' : jsBlank (.bare c) = true := hjs
    rw [strange, hjs', Bool.true_and, Bool.not_eq_false'] at hstrange
    exact hstrange
  · obtain ⟨ws', hws', hwords⟩ := h.noSpurious
    rw [hws, Option.some_inj] at hws'
    subst hws'
    rw [← hwords, htexts]
    refine List.map_congr_left fun w hw => ?_
    have hin := Lib.isInfix_of_mem_words hw
    refine List.flatMap_congr fun p hp => (if_neg ?_).symm
    rintro rfl
    exact hends (hin.subset hp)

theorem agree_of_plain (hparts : parts s = some ps) (hdoc : heredoc ps = false) (hcomment : comment none ps = false)
    (harith : arithmetic ps = false) (h : Plain ps) (hmisread : NoMisread ps) : Agree s ps := by
  obtain ⟨ws, hws, htexts⟩ := clauseWords_eq hparts
  have hproper := proper_parts hparts
  have hline := render_parts hparts
  -- in a plain command both readers cut the same words
  have hsame := (texts_eq_iff ps).mpr ⟨fun p hp => by
    obtain rfl | ⟨c, rfl, hjs, hblank⟩ | ⟨-, hplain, -⟩ := part_cases p
    · rfl
    · rw [h.blanks c hp hjs] at hblank
      cases hblank
    · exact hplain, h.ends⟩
  have htail : tailLoop 0 none s = (parted ps).map fun found => render found.2 := hline ▸ tailLoop_render hproper
  refine ⟨?_, ⟨ws, hws, ?_⟩, ⟨ws, hws, ?_⟩, ?_, ?_, fun hlength hnone => ?_, fun hlength before behind hsome => ?_⟩
  · rw [splitKeepingQuotes, flatten_keepLoop]
    rfl
  · rw [pieces_eq hparts]
    have hmap := congrArg (List.map some) (hsame.trans htexts.symm)
    rw [List.map_map, List.map_map] at hmap
    exact hmap
  · rw [htexts, ← (words_eq_iff ps).mpr h.words]
    exact hsame.symm.trans (hsame.trans (by
      refine List.map_congr_left fun w hw => ?_
      have hin := Lib.isInfix_of_mem_words hw
      refine List.flatMap_congr fun p hp => if_neg ?_
      rintro rfl
      exact h.ends (hin.subset hp)))
  · rw [quotedSpans, ← hline, spansLoop_render hproper]
  · have htake := take_clauseLoop hproper []
    rw [List.nil_append, hline] at htake
    exact htake
  · rw [extractUnansweredTail, htail, hnone]
    split_ifs <;> rfl
  · have hne : s ≠ [] := by
      rintro rfl
      cases hparts
      cases hsome
    refine ⟨?_, splitsAt hparts hdoc hcomment harith hsome (hmisread before behind hsome)⟩
    rw [extractUnansweredTail, htail, hsome, if_neg (not_or.mpr ⟨hne, Nat.not_lt.mpr hlength⟩)]
    rfl

/-- Lines without here-documents, comments and `((`: the readers agree on a plain one without a misread `#`, and on no
line that is not plain. -/
theorem readers_agree (hparts : parts s = some ps) (hdoc : heredoc ps = false) (hcomment : comment none ps = false)
    (harith : arithmetic ps = false) :
    (Agree s ps → Plain ps) ∧ (NoMisread ps → (Agree s ps ↔ Plain ps)) := by
  refine ⟨plain_of_agree hparts, fun hmisread => ⟨plain_of_agree hparts, fun h => ?_⟩⟩
  exact agree_of_plain hparts hdoc hcomment harith h hmisread

theorem readers_agree_line :
    Agree "a 'b c'; d".toList [.bare 'a', .bare ' ', .single ['b', ' ', 'c'], .bare ';', .bare ' ', .bare 'd'] := by
  have hiff := (@readers_agree [.bare 'a', .bare ' ', .single ['b', ' ', 'c'], .bare ';', .bare ' ', .bare 'd']
    "a 'b c'; d".toList (by decide) (by decide) (by decide) (by decide)).2
  refine (hiff ?_).mpr ⟨?_, by decide, by decide⟩
  · intro before behind h
    obtain rfl : [.bare 'a', .bare ' ', .single ['b', ' ', 'c']] = before := congrArg Prod.fst (Option.some_inj.mp h)
    decide
  · intro c hc hjs
    simp only [List.mem_cons, Part.bare.injEq, reduceCtorEq, List.not_mem_nil, or_false, false_or] at hc
    rcases hc with rfl | rfl | rfl | rfl | rfl
    all_goals first | rfl | exact absurd hjs (by decide)

/-- `splitKeepingQuotes` parts the line at a carriage return, `clauseWords` does not. -/
theorem not_agree_carriageReturn :
    ¬∀ s ps, parts s = some ps → heredoc ps = false → comment none ps = false → arithmetic ps = false → Agree s ps := by
  intro h
  have hplain := plain_of_agree (by rfl) (h ['a', '\r', 'b'] _ (by rfl) (by decide) (by decide) (by decide))
  exact absurd (hplain.blanks '\r' (by decide) (by decide)) (by decide)

end CodeGraph.Plugin.Shell
