import CodeGraph.Plugin.Correct.ShellScans

/-!
# The segments of a shell line

The segment loop passes over the parts before the first `;` or `&&`, where no bare `#` is taken for the start of a
comment (`misread`), and stands there outside quotes and here-documents (`segmentsLoop_run`).
-/

namespace CodeGraph.Plugin.Shell

open CodeGraph.Lib (trim)
open CodeGraph.Lib.Quoting
open CodeGraph.Plugin.Adopt (jsSpace isBlank)

variable {p : Part} {ps : List Part} {c q : Char} {s text rest : List Char}

/-! ### One step of the segment loop -/

section Step

variable {state : Cutting}

theorem segmentsLoop_quoted (h : state.quote = some q) : segmentsLoop 0 state (c :: rest) =
    if q = '"' ∧ c = '\\' ∧ rest ≠ [] then segmentsLoop 1 (state.add (c :: rest.take 1)) rest
    else segmentsLoop 0 { state.add [c] with quote := if c = q then none else some q } rest := by
  rw [segmentsLoop, h]

/-- Outside quotes, comments, `((`, here-strings and here-documents. -/
theorem segmentsLoop_bare (h : state.quote = none) (hcomment : ¬(c = '#' ∧ state.atComment = true))
    (hopen : ¬(c = '(' ∧ rest.head? = some '(')) (harith : c = ')' → state.arith = 0)
    (hhere : ¬(c = '<' ∧ rest.head? = some '<')) (hdocs : c = '\n' → state.heredocs = []) :
    segmentsLoop 0 state (c :: rest) =
    if c = '\\' ∧ rest ≠ [] then
      segmentsLoop 1 (if rest.head? = some '\n' then state else state.add (c :: rest.take 1)) rest
    else if isQuote c then segmentsLoop 0 { state.add [c] with quote := some c } rest
    else if c = '&' ∧ rest.head? = some '&' then state.segment :: segmentsLoop 1 (state.next .both) rest
    else if c = '|' ∧ rest.head? = some '|' then state.segment :: segmentsLoop 1 (state.next .either) rest
    else if c = ';' then state.segment :: segmentsLoop 0 (state.next .semicolon) rest
    else if c = '\n' then state.segment :: segmentsLoop 0 (state.next .newline) rest
    else segmentsLoop 0 (state.add [c]) rest := by
  have hclose : ¬(c = ')' ∧ rest.head? = some ')' ∧ 0 < state.arith) := by
    rintro ⟨hc, -, hpos⟩
    rw [harith hc] at hpos
    exact absurd hpos (Nat.lt_irrefl 0)
  have hstring : ¬(c = '<' ∧ ['<', '<'] <+: rest) := by
    rintro ⟨hc, tail, rfl⟩
    exact hhere ⟨hc, rfl⟩
  have hdoc : ¬(c = '<' ∧ rest.head? = some '<' ∧ state.arith = 0) := fun hall => hhere ⟨hall.1, hall.2.1⟩
  have hnodocs : ¬(c = '\n' ∧ state.heredocs ≠ []) := fun hall => hall.2 (hdocs hall.1)
  rw [segmentsLoop, h]
  dsimp only
  rw [if_neg hcomment, if_neg hopen, if_neg hclose, if_neg hstring, if_neg hdoc]
  dsimp only
  rw [if_neg hnodocs]

end Step

theorem segmentsLoop_passes :
    Passes (fun skip quote (s : Cutting) rest => segmentsLoop skip { s with quote := quote } rest) Cutting.add
      fun c => c ≠ '\n' where
  put_append s a b := by
    show ({ s with cur := s.cur ++ a ++ b } : Cutting) = _
    rw [List.append_assoc]
    rfl
  skip k q s c rest := by
    show segmentsLoop (k + 1) { s with quote := q } (c :: rest) = _
    rw [segmentsLoop]
  escape s c rest := by
    show segmentsLoop 0 { s with quote := some '"' } ('\\' :: c :: rest) = _
    rw [segmentsLoop_quoted rfl, if_pos ⟨rfl, rfl, List.cons_ne_nil _ _⟩]
    rfl
  quoted q s c rest h := by
    show segmentsLoop 0 { s with quote := some q } (c :: rest) = _
    rw [segmentsLoop_quoted rfl, if_neg fun hboth => h ⟨hboth.1, hboth.2.1⟩]
    rfl
  opens c s rest h := by
    -- a quote mark is none of the characters that the loop asks for first
    have hc : c ≠ '\\' ∧ c ≠ '#' ∧ c ≠ '(' ∧ c ≠ ')' ∧ c ≠ '<' ∧ c ≠ '\n' := by
      refine ⟨?_, ?_, ?_, ?_, ?_, ?_⟩ <;>
      · rintro rfl
        exact absurd h (by decide)
    show segmentsLoop 0 { s with quote := none } (c :: rest) = _
    rw [segmentsLoop_bare rfl (fun hboth => hc.2.1 hboth.1) (fun hboth => hc.2.2.1 hboth.1)
      (fun heq => absurd heq hc.2.2.2.1) (fun hboth => hc.2.2.2.2.1 hboth.1) (fun heq => absurd heq hc.2.2.2.2.2),
      if_neg fun hboth => hc.1 hboth.1, if_pos h]
    rfl
  bareEscape s c rest hc := by
    have hnext : ¬(c :: rest).head? = some '\n' := fun heq => hc (Option.some_inj.mp heq)
    show segmentsLoop 0 { s with quote := none } ('\\' :: c :: rest) = _
    rw [segmentsLoop_bare rfl (fun hboth => absurd hboth.1 (by decide)) (fun hboth => absurd hboth.1 (by decide))
      (fun heq => absurd heq (by decide)) (fun hboth => absurd hboth.1 (by decide)) (fun heq => absurd heq (by decide)),
      if_pos ⟨rfl, List.cons_ne_nil _ _⟩, if_neg hnext]
    rfl

/-! ### Segments -/

/-- Behind this part the segment loop takes a `#` for the start of a comment, although no word starts there. -/
def misleading : Part → Bool
  | .bare c => jsSpace c
  | .escaped c => jsSpace c ∨ c = '|' ∨ c = '('
  | _ => false

/-- A `#` that the segment loop takes for the start of a comment. The first argument is the part before, line
continuations apart. -/
def misread : Option Part → List Part → Bool
  | _, [] => false
  | before, p :: ps =>
    if p.continuation then misread before ps else (p = .bare '#' && before.any misleading) || misread (some p) ps

/-- The loop stands outside quotes and here-documents, behind `before`. -/
structure Ready (before : Option Part) (state : Cutting) : Prop where
  quote : state.quote = none
  arith : state.arith = 0
  heredocs : state.heredocs = []
  comment : state.atComment = true → startsWord before = true ∨ before.any misleading = true

section Run

variable {before : Option Part} {state : Cutting}

theorem Ready.add (h : Ready before state) (hp : p.Closed) : Ready (some p) (state.add p.render) := by
  refine ⟨h.quote, h.arith, h.heredocs, fun hcomment => ?_⟩
  have hlast : p.render.getLast?.all (fun last => jsSpace last ∨ last = '|' ∨ last = '(') = true := by
    have hne : p.render ≠ [] := by cases p <;> simp [Part.render]
    unfold Cutting.atComment Cutting.add at hcomment
    rwa [List.getLast?_append_of_ne_nil _ hne] at hcomment
  cases p with
  | bare c =>
    have hc : jsSpace c = true ∨ c = '|' ∨ c = '(' := of_decide_eq_true hlast
    rcases hc with hc | rfl | rfl
    · exact .inr hc
    · exact .inl (by decide)
    · exact .inl (by decide)
  | escaped c => exact .inr hlast
  | single text =>
    have hquote : (Part.single text).render.getLast? = some apostrophe := List.getLast?_concat (l := apostrophe :: text)
    rw [hquote] at hlast
    exact absurd hlast (by decide)
  | double inner =>
    have hquote : (Part.double inner).render.getLast? = some '"' :=
      List.getLast?_concat (l := '"' :: inner.flatMap Inner.render)
    rw [hquote] at hlast
    exact absurd hlast (by decide)
  | dangling => exact absurd hp id

theorem Ready.next {sep : Sep} (h : Ready before state) (hp : startsWord (some p) = true) :
    Ready (some p) (state.next sep) := ⟨h.quote, h.arith, h.heredocs, fun _ => .inl hp⟩

theorem head_behind {d : Char} (hd : d ≠ '\\' ∧ isQuote d = false) (hrest : ps = [] → rest.head? ≠ some d)
    (h : (render ps ++ rest).head? = some d) : ps.head? = some (.bare d) := by
  cases ps with
  | nil => exact absurd h (hrest rfl)
  | cons p ps =>
    refine (head_render hd).mp ?_
    obtain ⟨c, s, hs⟩ : ∃ c s, render (p :: ps) = c :: s := by
      cases p <;> exact ⟨_, _, rfl⟩
    rw [hs] at h ⊢
    exact h

theorem parted_cons (h : parted (p :: ps) = none) :
    p ≠ .bare ';' ∧ ¬(p = .bare '&' ∧ ps.head? = some (.bare '&')) ∧ parted ps = none := by
  rw [parted] at h
  split_ifs at h with hsemi hboth
  exact ⟨hsemi, hboth, Option.map_eq_none_iff.mp h⟩

/-- Nothing in what is behind can be taken together with the last of these parts. -/
structure Apart (ps : List Part) (rest : List Char) : Prop where
  head : rest.head? ≠ some '(' ∧ rest.head? ≠ some '<' ∧ rest.head? ≠ some '|'
  both : ps.getLast? = some (.bare '&') → rest.head? ≠ some '&'

theorem Apart.tail (h : Apart (p :: ps) rest) : Apart ps rest := by
  refine ⟨h.head, fun hlast => h.both ?_⟩
  cases ps with
  | nil => cases hlast
  | cons q ps => exact hlast

/-- One part that is not taken together with what is behind it. -/
theorem segmentsLoop_part (hp : p.Closed) (hready : Ready before state) (hsemi : p ≠ .bare ';')
    (hcomment : p = .bare '#' → state.atComment = false) :
    ∃ segments state', Ready (if p.continuation then before else some p) state' ∧ ∀ rest,
      (∀ d ∈ ['(', '<', '&', '|'], ¬(p = .bare d ∧ rest.head? = some d)) →
      segmentsLoop 0 state (p.render ++ rest) = segments ++ segmentsLoop 0 state' rest := by
  -- a continuation is dropped and changes nothing
  by_cases hcontinuation : p.continuation = true
  · obtain rfl : p = .escaped '\n' := of_decide_eq_true hcontinuation
    refine ⟨[], state, ?_, fun rest _ => ?_⟩
    · rw [if_pos hcontinuation]
      exact hready
    · show segmentsLoop 0 state ('\\' :: '\n' :: rest) = segmentsLoop 0 state rest
      rw [segmentsLoop_bare hready.quote (fun hboth => absurd hboth.1 (by decide))
        (fun hboth => absurd hboth.1 (by decide)) (fun heq => absurd heq (by decide))
        (fun hboth => absurd hboth.1 (by decide)) (fun heq => absurd heq (by decide)),
        if_pos ⟨rfl, List.cons_ne_nil _ _⟩, if_pos (List.head?_cons ..), segmentsLoop]
  rw [if_neg hcontinuation]
  -- a bare character: only a newline ends the segment
  by_cases hbare : ∃ c, p = .bare c
  · obtain ⟨c, rfl⟩ := hbare
    have hclosed := hp
    obtain ⟨hescape, hquote, hdouble⟩ := hp
    have hstep : ∀ rest, (∀ d ∈ ['(', '<', '&', '|'], ¬(Part.bare c = .bare d ∧ rest.head? = some d)) →
        segmentsLoop 0 state (c :: rest) =
          if c = '\n' then state.segment :: segmentsLoop 0 (state.next .newline) rest
          else segmentsLoop 0 (state.add [c]) rest := by
      intro rest hpair
      have hnot : ∀ d ∈ ['(', '<', '&', '|'], ¬(c = d ∧ rest.head? = some d) := fun d hd hboth =>
        hpair d hd ⟨by rw [hboth.1], hboth.2⟩
      rw [segmentsLoop_bare hready.quote (fun hboth => by rw [hcomment (by rw [hboth.1])] at hboth; cases hboth.2)
        (hnot '(' (by decide)) (fun _ => hready.arith) (hnot '<' (by decide)) (fun _ => hready.heredocs),
        if_neg fun hboth => hescape hboth.1, not_isQuote ⟨hquote, hdouble⟩, if_neg Bool.false_ne_true,
        if_neg (hnot '&' (by decide)), if_neg (hnot '|' (by decide)), if_neg fun heq => hsemi (by rw [heq])]
    by_cases hline : c = '\n'
    · refine ⟨[state.segment], state.next .newline, hready.next (by rw [hline]; decide), fun rest hpair => ?_⟩
      show segmentsLoop 0 state (c :: rest) = _
      rw [hstep rest hpair, if_pos hline]
      rfl
    · refine ⟨[], state.add [c], hready.add hclosed, fun rest hpair => ?_⟩
      show segmentsLoop 0 state (c :: rest) = _
      rw [hstep rest hpair, if_neg hline]
      rfl
  · -- a quoted part goes into the segment as it is
    refine ⟨[], state.add p.render, hready.add hp, fun rest _ => ?_⟩
    have hpass := @Passes.part p rest _ _ _ _ _ state segmentsLoop_passes hp (fun c heq => hbare ⟨c, heq⟩) (by
      rintro c rfl rfl
      exact hcontinuation (by decide))
    have houtside : ∀ s : Cutting, s.quote = none → { s with quote := none } = s := fun s hs => by rw [← hs]
    rw [houtside state hready.quote, houtside (state.add p.render) hready.quote] at hpass
    exact hpass

theorem comment_cons (h : comment before (p :: ps) = false) :
    comment (if p.continuation then before else some p) ps = false ∧ (p = .bare '#' → startsWord before = false) := by
  rw [comment] at h
  split_ifs at h ⊢ with hcontinuation
  · exact ⟨h, fun heq => absurd (heq ▸ hcontinuation) (by decide)⟩
  · rw [Bool.or_eq_false_iff] at h
    refine ⟨h.2, fun heq => ?_⟩
    rw [decide_eq_true heq, Bool.true_and] at h
    exact h.1

theorem misread_cons (h : misread before (p :: ps) = false) :
    misread (if p.continuation then before else some p) ps = false ∧ (p = .bare '#' → before.any misleading = false) := by
  rw [misread] at h
  split_ifs at h ⊢ with hcontinuation
  · exact ⟨h, fun heq => absurd (heq ▸ hcontinuation) (by decide)⟩
  · rw [Bool.or_eq_false_iff] at h
    refine ⟨h.2, fun heq => ?_⟩
    rw [decide_eq_true heq, Bool.true_and] at h
    exact h.1

theorem segmentsLoop_either (hready : Ready before state) :
    segmentsLoop 0 state ('|' :: '|' :: rest) = state.segment :: segmentsLoop 0 (state.next .either) rest := by
  rw [segmentsLoop_bare hready.quote (fun hboth => absurd hboth.1 (by decide)) (fun hboth => absurd hboth.1 (by decide))
    (fun heq => absurd heq (by decide)) (fun hboth => absurd hboth.1 (by decide)) (fun heq => absurd heq (by decide)),
    if_neg fun hboth => absurd hboth.1 (by decide), if_neg (by decide), if_neg fun hboth => absurd hboth.1 (by decide),
    if_pos ⟨rfl, rfl⟩, segmentsLoop]

theorem segmentsLoop_string (hready : Ready before state) :
    segmentsLoop 0 state ('<' :: '<' :: '<' :: rest) = segmentsLoop 0 (state.add ['<', '<', '<']) rest := by
  rw [segmentsLoop, hready.quote]
  dsimp only
  rw [if_neg fun hboth => absurd hboth.1 (by decide), if_neg fun hboth => absurd hboth.1 (by decide),
    if_neg fun hboth => absurd hboth.1 (by decide), if_pos ⟨rfl, rest, rfl⟩, segmentsLoop, segmentsLoop]

/-- The loop goes over parts that hold no `;` and no `&&`, and stands ready behind them. -/
theorem segmentsLoop_run (hclosed : ∀ p ∈ ps, p.Closed) (hready : Ready before state) (hdoc : heredoc ps = false)
    (hcomment : comment before ps = false) (harith : arithmetic ps = false) (hmisread : misread before ps = false)
    (hparted : parted ps = none) :
    ∃ segments state', Ready none { state' with cur := [] } ∧ ∀ rest, Apart ps rest →
      segmentsLoop 0 state (render ps ++ rest) = segments ++ segmentsLoop 0 state' rest := by
  -- `||` and `<<<` are taken together.
  induction hn : ps.length using Nat.strong_induction_on generalizing ps before state with
  | _ n ih =>
    cases ps with
    | nil => exact ⟨[], state, ⟨hready.quote, hready.arith, hready.heredocs, fun _ => .inl rfl⟩, fun rest _ => rfl⟩
    | cons p ps =>
      rw [List.length_cons] at hn
      have hp := hclosed p List.mem_cons_self
      have hrest := fun q hq => hclosed q (List.mem_cons_of_mem p hq)
      obtain ⟨hsemi, hboth, hparted'⟩ := parted_cons hparted
      obtain ⟨hcomment', hhash⟩ := comment_cons hcomment
      obtain ⟨hmisread', hhash'⟩ := misread_cons hmisread
      have harith' : ∀ {qs : List Part}, qs <:+ p :: ps → arithmetic qs = false := fun hqs =>
        arithmetic_within harith hqs.isInfix
      -- `||` cuts, and both bars are taken.
      by_cases heither : p = .bare '|' ∧ ps.head? = some (.bare '|')
      · obtain ⟨rfl, hhead⟩ := heither
        obtain ⟨qs, rfl⟩ := List.head?_eq_some_iff.mp hhead
        rw [List.length_cons] at hn
        rw [heredoc_cons fun h => absurd h.1 (by decide), heredoc_cons fun h => absurd h.1 (by decide)] at hdoc
        have hready' : Ready (some (.bare '|')) (state.next .either) := hready.next (by decide)
        obtain ⟨segments, state', hready', hloop⟩ := ih qs.length (by omega)
          (fun q hq => hrest q (List.mem_cons_of_mem _ hq)) hready' hdoc
          (comment_cons hcomment').1 (harith' ((List.suffix_cons _ _).trans (List.suffix_cons _ _)))
          (misread_cons hmisread').1 (parted_cons hparted').2.2 rfl
        refine ⟨state.segment :: segments, state', hready', fun rest hapart => ?_⟩
        show segmentsLoop 0 state ('|' :: '|' :: (render qs ++ rest)) = _
        rw [segmentsLoop_either hready, hloop rest hapart.tail.tail]
        rfl
      -- `<<<` is kept in the segment.
      by_cases hstring : p = .bare '<' ∧ ps.head? = some (.bare '<')
      · obtain ⟨rfl, hhead⟩ := hstring
        obtain ⟨qs, rfl⟩ := List.head?_eq_some_iff.mp hhead
        obtain ⟨qs, rfl, hdoc'⟩ := heredoc_string hdoc
        rw [List.length_cons, List.length_cons] at hn
        have hready' : Ready (some (.bare '<')) (state.add ['<', '<', '<']) := by
          have hadd := ((hready.add (hclosed _ List.mem_cons_self)).add hp).add hp
          have hsame : ((state.add ['<']).add ['<']).add ['<'] = state.add ['<', '<', '<'] := by
            simp [Cutting.add]
          exact hsame ▸ hadd
        obtain ⟨segments, state', hready', hloop⟩ := ih qs.length (by omega)
          (fun q hq => hrest q (List.mem_cons_of_mem _ (List.mem_cons_of_mem _ hq))) hready' hdoc'
          (comment_cons (comment_cons hcomment').1).1
          (harith' ((List.suffix_cons _ _).trans ((List.suffix_cons _ _).trans (List.suffix_cons _ _))))
          (misread_cons (misread_cons hmisread').1).1 (parted_cons (parted_cons hparted').2.2).2.2 rfl
        refine ⟨segments, state', hready', fun rest hapart => ?_⟩
        show segmentsLoop 0 state ('<' :: '<' :: '<' :: (render qs ++ rest)) = _
        rw [segmentsLoop_string hready, hloop rest hapart.tail.tail.tail]
      -- Any other part is taken by itself; a bare `#` starts no comment here.
      rw [heredoc_cons hstring] at hdoc
      have hnocomment : p = .bare '#' → state.atComment = false := by
        intro heq
        rw [Bool.eq_false_iff]
        intro hat
        rcases hready.comment hat with hstarts | hmisleads
        · rw [hhash heq] at hstarts
          cases hstarts
        · rw [hhash' heq] at hmisleads
          cases hmisleads
      obtain ⟨first, state₁, hready₁, hpart⟩ := segmentsLoop_part hp hready hsemi hnocomment
      obtain ⟨segments, state', hready', hloop⟩ := ih ps.length (by omega) hrest hready₁ hdoc hcomment'
        (harith' (List.suffix_cons p ps)) hmisread' hparted' rfl
      refine ⟨first ++ segments, state', hready', fun rest hapart => ?_⟩
      -- Nothing behind the part makes a pair with it.
      have hpair : ∀ d ∈ ['(', '<', '&', '|'], ¬(p = .bare d ∧ (render ps ++ rest).head? = some d) := by
        intro d hd hpair
        have hlone : ps = [] → rest.head? ≠ some d := by
          rintro rfl
          simp only [List.mem_cons, List.not_mem_nil, or_false] at hd
          rcases hd with rfl | rfl | rfl | rfl
          · exact hapart.head.1
          · exact hapart.head.2.1
          · exact hapart.both (by rw [hpair.1]; rfl)
          · exact hapart.head.2.2
        have hspecial : d ≠ '\\' ∧ isQuote d = false := by
          simp only [List.mem_cons, List.not_mem_nil, or_false] at hd
          rcases hd with rfl | rfl | rfl | rfl <;> decide
        have hnext := head_behind hspecial hlone hpair.2
        simp only [List.mem_cons, List.not_mem_nil, or_false] at hd
        rcases hd with rfl | rfl | rfl | rfl
        · obtain ⟨qs, rfl⟩ := List.head?_eq_some_iff.mp hnext
          exact not_infix_of_arithmetic harith ⟨[], qs, by rw [hpair.1]; rfl⟩
        · exact hstring ⟨hpair.1, hnext⟩
        · exact hboth ⟨hpair.1, hnext⟩
        · exact heither ⟨hpair.1, hnext⟩
      rw [render_cons, List.append_assoc, hpart _ hpair, hloop rest hapart.tail, List.append_assoc]

end Run

/-! ### The texts of segments -/

/-- What is written out of segments, whatever separates them. -/
def texts (segments : List Segment) : List (List Char) :=
  ((segments.flatMap fun s => ctrlLoop 0 true [] s.text).map (trim jsSpace)).filter fun text => !text.isEmpty

theorem texts_append (a b : List Segment) : texts (a ++ b) = texts a ++ texts b := by
  unfold texts
  rw [List.flatMap_append, List.map_append, List.filter_append]

theorem texts_congr {a b : List Segment} (h : a.map Segment.text = b.map Segment.text) : texts a = texts b := by
  have hmap : ∀ l : List Segment, (l.flatMap fun s => ctrlLoop 0 true [] s.text) =
      (l.map Segment.text).flatMap (ctrlLoop 0 true []) := fun l => by rw [List.flatMap_map]
  unfold texts
  rw [hmap, hmap, h]

theorem text_joinLoop (first : Bool) (carried : Option Sep) (pieces : List Segment) :
    (joinLoop first carried pieces).map Segment.text =
      ((pieces.map Segment.text).map (trim jsSpace)).filter fun text => !text.isEmpty := by
  induction pieces generalizing first carried with
  | nil => rfl
  | cons p pieces ih =>
    rw [joinLoop, List.map_cons, List.map_cons]
    by_cases hnil : trim jsSpace p.text = []
    · rw [if_pos hnil, ih, List.filter_cons_of_neg (by simp [hnil])]
    · rw [if_neg hnil, List.map_cons, ih, List.filter_cons_of_pos (by simpa using hnil)]

theorem text_pieces (s : Segment) : s.pieces.map Segment.text = ctrlLoop 0 true [] s.text := by
  unfold Segment.pieces
  cases ctrlLoop 0 true [] s.text with
  | nil => rfl
  | cons first others =>
    rw [List.map_cons, List.map_map]
    exact congrArg (first :: ·) (List.map_id' others)

theorem splitTopLevelSegments_eq (cmd : List Char) :
    splitTopLevelSegments cmd = texts (segmentsLoop 0 (.start .first) cmd) := by
  unfold splitTopLevelSegments splitTopLevelSegmentsWithSeps
  split_ifs with hnil
  · rw [hnil]
    rfl
  · rw [text_joinLoop, List.map_flatMap, texts]
    simp only [text_pieces]

theorem map_ite {α β : Type*} {f : α → β} {P : Prop} [Decidable P] {a b a' b' : List α}
    (ha : a.map f = a'.map f) (hb : b.map f = b'.map f) : (if P then a else b).map f = (if P then a' else b').map f := by
  split_ifs
  · exact ha
  · exact hb

/-- The separator before a segment has no part in what the loop reads. -/
theorem text_segmentsLoop (k : ℕ) (cur : List Char) (sep sep' : Sep) (quote : Option Char) (arith : ℕ)
    (heredocs : List Heredoc) (rest : List Char) :
    (segmentsLoop k ⟨cur, sep, quote, arith, heredocs⟩ rest).map Segment.text =
      (segmentsLoop k ⟨cur, sep', quote, arith, heredocs⟩ rest).map Segment.text := by
  induction rest generalizing k cur sep sep' quote arith heredocs with
  | nil => rfl
  | cons c rest ih =>
    -- the separator goes into the segment that is cut, and not into its text
    have hcut : ∀ (k : ℕ) (next : Sep) (docs : List Heredoc),
        (Segment.mk cur sep :: segmentsLoop k ⟨[], next, none, arith, docs⟩ rest).map Segment.text =
          (Segment.mk cur sep' :: segmentsLoop k ⟨[], next, none, arith, docs⟩ rest).map Segment.text :=
      fun _ _ _ => rfl
    cases k with
    | succ k =>
      rw [segmentsLoop, segmentsLoop]
      exact ih k cur sep sep' quote arith heredocs
    | zero =>
      rw [segmentsLoop, segmentsLoop]
      cases quote with
      | some q => exact map_ite (ih ..) (ih ..)
      | none =>
        refine map_ite (ih ..) (map_ite (ih ..) (map_ite (ih ..) (map_ite (ih ..) ?_)))
        dsimp only
        generalize (if c = '<' ∧ rest.head? = some '<' ∧ arith = 0 then heredocAt rest.tail else none) = doc
        cases doc with
        | some doc => exact ih ..
        | none =>
          refine map_ite (hcut ..) (map_ite ?_ (map_ite (ih ..) (map_ite (hcut ..) (map_ite (hcut ..)
            (map_ite (hcut ..) (map_ite (hcut ..) (ih ..)))))))
          split_ifs
          · exact ih ..
          · exact ih ..

end CodeGraph.Plugin.Shell
