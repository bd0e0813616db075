import CodeGraph.Plugin.ShellSegments

/-!
# What the scans of a shell clause make of its parts

Every reader goes over the parts of the line (`Quoting.parts`), one after the other: a loop that only passes over quotes
passes over a part (`Passes.part`). So the clause, the tail, the quoted spans, the words and the pieces are read off the
parts.
-/

namespace CodeGraph.Plugin.Shell

open CodeGraph.Lib.Quoting
open CodeGraph.Plugin.Adopt (jsSpace isBlank)

variable {p : Part} {ps : List Part} {c q : Char} {s text rest : List Char}

/-! ### Loops that pass over quotes -/

/-- A loop with an open quote and a state, which takes up what it passes over. `escapes` are the characters that it
takes up behind a bare backslash. -/
structure Passes {σ β : Type*} (run : ℕ → Option Char → σ → List Char → β) (put : σ → List Char → σ)
    (escapes : Char → Prop) : Prop where
  put_append : ∀ state a b, put (put state a) b = put state (a ++ b)
  skip : ∀ k q state c rest, run (k + 1) q state (c :: rest) = run k q state rest
  escape : ∀ state c rest,
    run 0 (some '"') state ('\\' :: c :: rest) = run 1 (some '"') (put state ['\\', c]) (c :: rest)
  quoted : ∀ q state c rest, ¬(q = '"' ∧ c = '\\') →
    run 0 (some q) state (c :: rest) = run 0 (if c = q then none else some q) (put state [c]) rest
  opens : ∀ c state rest, isQuote c = true → run 0 none state (c :: rest) = run 0 (some c) (put state [c]) rest
  bareEscape : ∀ state c rest, escapes c →
    run 0 none state ('\\' :: c :: rest) = run 1 none (put state ['\\', c]) (c :: rest)

namespace Passes

variable {σ β : Type*} {run : ℕ → Option Char → σ → List Char → β} {put : σ → List Char → σ} {escapes : Char → Prop}
  {state : σ}

theorem single (h : Passes run put escapes) (htext : apostrophe ∉ text) :
    run 0 (some apostrophe) state (text ++ apostrophe :: rest) = run 0 none (put state (text ++ [apostrophe])) rest := by
  have hnot : ∀ c, ¬(apostrophe = '"' ∧ c = '\\') := fun c hboth => absurd hboth.1 (by decide)
  induction text generalizing state with
  | nil => rw [List.nil_append, h.quoted _ _ _ _ (hnot _), if_pos rfl, List.nil_append]
  | cons c text ih =>
    rw [List.mem_cons, not_or] at htext
    rw [List.cons_append, h.quoted _ _ _ _ (hnot c), if_neg (Ne.symm htext.1), ih htext.2, h.put_append]
    rfl

theorem double {inner : List Inner} (h : Passes run put escapes) (hinner : ∀ i ∈ inner, i.Closed) :
    run 0 (some '"') state (inner.flatMap Inner.render ++ '"' :: rest) =
      run 0 none (put state (inner.flatMap Inner.render ++ ['"'])) rest := by
  induction inner generalizing state with
  | nil => rw [List.flatMap_nil, List.nil_append, h.quoted _ _ _ _ (by decide), if_pos rfl, List.nil_append]
  | cons i inner ih =>
    have hrest := fun j hj => hinner j (List.mem_cons_of_mem i hj)
    rw [List.flatMap_cons, List.append_assoc, List.append_assoc]
    cases i with
    | plain c =>
      obtain ⟨hquote, hescape⟩ := hinner _ List.mem_cons_self
      show run 0 (some '"') state (c :: (inner.flatMap Inner.render ++ '"' :: rest)) = _
      rw [h.quoted _ _ _ _ fun hboth => hescape hboth.2, if_neg hquote, ih hrest, h.put_append]
      rfl
    | escape c =>
      show run 0 (some '"') state ('\\' :: c :: (inner.flatMap Inner.render ++ '"' :: rest)) = _
      rw [h.escape, h.skip, ih hrest, h.put_append]
      rfl

/-- A part that is not bare is passed over. -/
theorem part (h : Passes run put escapes) (hp : p.Closed) (hbare : ∀ c, p ≠ .bare c)
    (hescapes : ∀ c, p = .escaped c → escapes c) :
    run 0 none state (p.render ++ rest) = run 0 none (put state p.render) rest := by
  cases p with
  | bare c => exact absurd rfl (hbare c)
  | escaped c =>
    show run 0 none state ('\\' :: c :: rest) = _
    rw [h.bareEscape _ _ _ (hescapes c rfl), h.skip]
    rfl
  | single text =>
    show run 0 none state (apostrophe :: (text ++ [apostrophe] ++ rest)) = _
    rw [h.opens _ _ _ (by decide), List.append_assoc, List.singleton_append, h.single hp, h.put_append]
    rfl
  | double inner =>
    show run 0 none state ('"' :: (inner.flatMap Inner.render ++ ['"'] ++ rest)) = _
    rw [h.opens _ _ _ (by decide), List.append_assoc, List.singleton_append, h.double hp, h.put_append]
    rfl
  | dangling => exact absurd hp id

end Passes

theorem clauseLoop_passes :
    Passes (fun skip quote i rest => clauseLoop skip quote i rest) (fun i text => i + text.length) fun _ => True where
  put_append i a b := by rw [List.length_append, Nat.add_assoc]
  skip k q i c rest := by cases q <;> rfl
  escape i c rest := if_pos ⟨rfl, rfl, List.cons_ne_nil _ _⟩
  quoted q i c rest h := if_neg fun hboth => h ⟨hboth.1, hboth.2.1⟩
  opens c i rest h := by
    have hc : c ≠ '\\' := by
      rintro rfl
      exact absurd h (by decide)
    show clauseLoop 0 none i (c :: rest) = _
    rw [clauseLoop, if_neg hc, if_pos h]
    rfl
  bareEscape i c rest _ := if_pos rfl

theorem tailLoop_passes :
    Passes (fun skip quote (_ : Unit) rest => tailLoop skip quote rest) (fun _ _ => ()) fun _ => True where
  put_append _ _ _ := rfl
  skip k q _ c rest := by cases q <;> rfl
  escape _ c rest := if_pos ⟨rfl, rfl, List.cons_ne_nil _ _⟩
  quoted q _ c rest h := if_neg fun hboth => h ⟨hboth.1, hboth.2.1⟩
  opens c _ rest h := by
    have hc : c ≠ '\\' := by
      rintro rfl
      exact absurd h (by decide)
    show tailLoop 0 none (c :: rest) = _
    rw [tailLoop, if_neg hc, if_pos h]
  bareEscape _ c rest _ := if_pos rfl

theorem keepLoop_passes :
    Passes (fun skip quote cur rest => keepLoop skip quote cur rest) (fun cur text => cur ++ text) fun _ => True where
  put_append cur a b := List.append_assoc ..
  skip k q cur c rest := by cases q <;> rfl
  escape cur c rest := if_pos ⟨rfl, rfl, List.cons_ne_nil _ _⟩
  quoted q cur c rest h := if_neg fun hboth => h ⟨hboth.1, hboth.2.1⟩
  opens c cur rest h := by
    have hc : c ≠ '\\' := by
      rintro rfl
      exact absurd h (by decide)
    show keepLoop 0 none cur (c :: rest) = _
    rw [keepLoop, if_neg fun hboth => hc hboth.1, if_pos h]
  bareEscape cur c rest _ := if_pos ⟨rfl, List.cons_ne_nil _ _⟩

/-! ### Clauses and tails -/

/-- Only a bare part begins with a character that is no quote and no backslash. -/
theorem head_render (hc : c ≠ '\\' ∧ isQuote c = false) : (render ps).head? = some c ↔ ps.head? = some (.bare c) := by
  cases ps with
  | nil => simp
  | cons p ps =>
    have hquote : apostrophe ≠ c ∧ '"' ≠ c := by
      refine ⟨?_, ?_⟩ <;>
      · rintro rfl
        exact absurd hc.2 (by decide)
    cases p with
    | bare d => simp [Part.render]
    | escaped d => simp [Part.render, Ne.symm hc.1]
    | single text => simp [Part.render, hquote.1]
    | double inner => simp [Part.render, hquote.2]
    | dangling => simp [Part.render, Ne.symm hc.1]

/-- The clause ends before this part. -/
def endsClause (p : Part) (behind : List Part) : Bool :=
  p ∈ [.bare ';', .bare '|', .bare '\n'] ∨ p = .bare '&' ∧ behind.head? = some (.bare '&')

/-- The first clause. -/
def clause : List Part → List Part
  | [] => []
  | p :: ps => if endsClause p ps then [] else p :: clause ps

/-- What is before the first `;` or `&&`, and what is behind it. -/
def parted : List Part → Option (List Part × List Part)
  | [] => none
  | p :: ps =>
    if p = .bare ';' then some ([], ps)
    else if p = .bare '&' ∧ ps.head? = some (.bare '&') then some ([], ps.tail)
    else (parted ps).map fun (before, behind) => (p :: before, behind)

theorem not_isQuote (h : c ≠ apostrophe ∧ c ≠ '"') : isQuote c = false := by
  unfold isQuote
  rw [decide_eq_false_iff_not, not_or]
  exact ⟨h.2, h.1⟩

theorem take_clauseLoop (h : Proper ps) (before : List Char) :
    (before ++ render ps).take (clauseLoop 0 none before.length (render ps)) = before ++ render (clause ps) := by
  -- the induction is on the parts; the loop goes on as long as none of them ends the clause
  induction h generalizing before with
  | nil => simp [clauseLoop, clause]
  | dangling =>
    show (before ++ ['\\']).take (before.length + 2) = _
    rw [List.take_of_length_le (by simp)]
    rfl
  | @cons p ps hp hps ih =>
    have hgoes : ∀ {p : Part}, endsClause p ps = false →
        clauseLoop 0 none before.length (p.render ++ render ps) =
          clauseLoop 0 none (before.length + p.render.length) (render ps) →
        (before ++ (p.render ++ render ps)).take (clauseLoop 0 none before.length (p.render ++ render ps)) =
          before ++ render (clause (p :: ps)) := by
      intro p hends hloop
      rw [hloop, ← List.append_assoc, ← List.length_append, ih, clause, hends, List.append_assoc]
      rfl
    rw [render_cons]
    by_cases hbare : ∃ c, p = .bare c
    · obtain ⟨c, rfl⟩ := hbare
      obtain ⟨hescape, hquote, hdouble⟩ := hp
      have hnext : (render ps).head? = some '&' ↔ ps.head? = some (.bare '&') := head_render (by decide)
      -- a bare character ends the clause, alone or with the next one
      have hloop : clauseLoop 0 none before.length (c :: render ps) =
          if endsClause (.bare c) ps then before.length else clauseLoop 0 none (before.length + 1) (render ps) := by
        rw [clauseLoop, if_neg hescape, not_isQuote ⟨hquote, hdouble⟩, if_neg Bool.false_ne_true]
        unfold endsClause
        simp only [hnext, List.mem_cons, Part.bare.injEq, List.not_mem_nil, or_false, decide_eq_true_eq]
        split_ifs with hsep hall hboth hall hall
        · rfl
        · exact absurd (.inl hsep) hall
        · rfl
        · exact absurd (.inr hboth) hall
        · exact absurd hall (not_or.mpr ⟨hsep, hboth⟩)
        · rfl
      by_cases hends : endsClause (.bare c) ps = true
      · show (before ++ ([c] ++ render ps)).take (clauseLoop 0 none before.length (c :: render ps)) = _
        rw [hloop, if_pos hends, clause, if_pos hends, List.take_left, render_nil, List.append_nil]
      · refine hgoes (Bool.eq_false_iff.mpr hends) ?_
        show clauseLoop 0 none before.length (c :: render ps) = _
        rw [hloop, if_neg hends]
        rfl
    · have hnot : ∀ c, p ≠ .bare c := fun c heq => hbare ⟨c, heq⟩
      refine hgoes ?_ (clauseLoop_passes.part hp hnot fun _ _ => trivial)
      unfold endsClause
      simp [hnot]

theorem tailLoop_render (h : Proper ps) :
    tailLoop 0 none (render ps) = (parted ps).map fun found => render found.2 := by
  induction h with
  | nil => rfl
  | dangling => rfl
  | @cons p ps hp hps ih =>
    rw [render_cons, parted]
    by_cases hbare : ∃ c, p = .bare c
    · obtain ⟨c, rfl⟩ := hbare
      obtain ⟨hescape, hquote, hdouble⟩ := hp
      have hnext : (render ps).head? = some '&' ↔ ps.head? = some (.bare '&') := head_render (by decide)
      show tailLoop 0 none (c :: render ps) = _
      rw [tailLoop, if_neg hescape, not_isQuote ⟨hquote, hdouble⟩, if_neg Bool.false_ne_true]
      simp only [hnext, Part.bare.injEq]
      split_ifs with hsemi hboth
      · rfl
      · obtain ⟨qs, rfl⟩ := List.head?_eq_some_iff.mp hboth.2
        rfl
      · rw [ih, Option.map_map]
        rfl
    · have hnot : ∀ c, p ≠ .bare c := fun c heq => hbare ⟨c, heq⟩
      rw [if_neg (hnot ';'), if_neg fun hboth => hnot '&' hboth.1, Option.map_map]
      exact (@Passes.part p _ _ _ _ _ _ () tailLoop_passes hp hnot fun _ _ => trivial).trans ih

/-! ### Quoted parts -/

theorem jsLength_append (a b : List Char) : jsLength (a ++ b) = jsLength a + jsLength b := by
  unfold jsLength utf16
  rw [List.flatMap_append, List.length_append]

/-- The quoted parts with their places. -/
def quotedParts : ℕ → List Part → List Span
  | _, [] => []
  | pos, p :: ps =>
    let next := pos + jsLength p.render
    (if p.quoted then [⟨pos, next, p.text⟩] else []) ++ quotedParts next ps

theorem escapedNext_none (h : ¬(q = '"' ∧ c = '\\')) : escapedNext q c rest = none := if_neg h

theorem escapedNext_escape : escapedNext '"' '\\' (c :: rest) = if c ∈ escapable then some c else none := by
  rw [escapedNext, if_pos ⟨rfl, rfl⟩, List.head?_cons, Option.filter_some]
  by_cases hmem : c ∈ escapable
  · rw [if_pos hmem]
    exact if_pos (decide_eq_true hmem)
  · rw [if_neg hmem]
    exact if_neg fun htrue => hmem (of_decide_eq_true htrue)

/-- What a character behind a backslash adds between double quotes. -/
theorem text_escape : (Inner.escape c).text =
    if c ∈ escapable then if c = '\n' then [] else [c] else ['\\', c] := by
  show (if c = '\n' then [] else if c ∈ escapable then [c] else ['\\', c]) = _
  by_cases hline : c = '\n'
  · have hmem : c ∈ escapable := hline ▸ by decide
    rw [if_pos hline, if_pos hmem, if_pos hline]
  · rw [if_neg hline, if_neg hline]

theorem spansLoop_single {start pos : ℕ} {body : List Char} (h : apostrophe ∉ text) :
    spansLoop 0 (some (apostrophe, start, body)) pos (text ++ apostrophe :: rest) =
      ⟨start, pos + jsLength (text ++ [apostrophe]), body ++ text⟩ ::
        spansLoop 0 none (pos + jsLength (text ++ [apostrophe])) rest := by
  induction text generalizing pos body with
  | nil =>
    rw [List.nil_append, List.nil_append, spansLoop, if_pos rfl, List.append_nil]
  | cons c text ih =>
    rw [List.mem_cons, not_or] at h
    rw [List.cons_append, spansLoop, if_neg (Ne.symm h.1), escapedNext_none fun hboth => absurd hboth.1 (by decide)]
    dsimp only
    rw [ih h.2, List.append_assoc, Nat.add_assoc, ← jsLength_append]
    rfl

theorem spansLoop_double {start pos : ℕ} {body : List Char} {inner : List Inner} (h : ∀ i ∈ inner, i.Closed) :
    spansLoop 0 (some ('"', start, body)) pos (inner.flatMap Inner.render ++ '"' :: rest) =
      ⟨start, pos + jsLength (inner.flatMap Inner.render ++ ['"']), body ++ inner.flatMap Inner.text⟩ ::
        spansLoop 0 none (pos + jsLength (inner.flatMap Inner.render ++ ['"'])) rest := by
  induction inner generalizing pos body with
  | nil => rw [List.flatMap_nil, List.nil_append, spansLoop, if_pos rfl, List.flatMap_nil, List.append_nil]; rfl
  | cons i inner ih =>
    have hrest := fun j hj => h j (List.mem_cons_of_mem i hj)
    rw [List.flatMap_cons, List.flatMap_cons, List.append_assoc, List.append_assoc]
    cases i with
    | plain c =>
      obtain ⟨hquote, hescape⟩ := h _ List.mem_cons_self
      show spansLoop 0 (some ('"', start, body)) pos (c :: (inner.flatMap Inner.render ++ '"' :: rest)) = _
      rw [spansLoop, if_neg hquote, escapedNext_none fun hboth => hescape hboth.2]
      dsimp only
      rw [ih hrest, List.append_assoc, Nat.add_assoc, ← jsLength_append]
      rfl
    | escape c =>
      show spansLoop 0 (some ('"', start, body)) pos ('\\' :: c :: (inner.flatMap Inner.render ++ '"' :: rest)) = _
      rw [spansLoop, if_neg (by decide), escapedNext_escape, text_escape]
      by_cases hmem : c ∈ escapable
      · rw [if_pos hmem, if_pos hmem]
        dsimp only
        rw [spansLoop, ih hrest, Nat.add_assoc, Nat.add_assoc, ← jsLength_append, ← jsLength_append]
        split_ifs
        · rfl
        · rw [List.append_assoc]
          rfl
      · -- the backslash and the character are both taken up
        have hquote : c ≠ '"' := fun heq => hmem (heq ▸ by decide)
        have hescape : c ≠ '\\' := fun heq => hmem (heq ▸ by decide)
        rw [if_neg hmem, if_neg hmem]
        dsimp only
        rw [spansLoop, if_neg hquote, escapedNext_none fun hboth => hescape hboth.2]
        dsimp only
        rw [ih hrest, Nat.add_assoc, Nat.add_assoc, ← jsLength_append, ← jsLength_append, List.append_assoc,
          List.append_assoc]
        rfl

/-- `quotedSpans` finds the quoted parts. -/
theorem spansLoop_render (h : Proper ps) (pos : ℕ) : spansLoop 0 none pos (render ps) = quotedParts pos ps := by
  induction h generalizing pos with
  | nil => rfl
  | dangling => rfl
  | @cons p ps hp hps ih =>
    rw [render_cons, quotedParts]
    cases p with
    | bare c =>
      obtain ⟨hescape, hquote, hdouble⟩ := hp
      show spansLoop 0 none pos (c :: render ps) = _
      rw [spansLoop, if_neg hescape, not_isQuote ⟨hquote, hdouble⟩, if_neg Bool.false_ne_true]
      exact ih _
    | escaped c =>
      show spansLoop 0 none pos ('\\' :: c :: render ps) = _
      rw [spansLoop, if_pos rfl, spansLoop, ih, Nat.add_assoc, ← jsLength_append]
      rfl
    | single text =>
      show spansLoop 0 none pos (apostrophe :: (text ++ [apostrophe] ++ render ps)) = _
      rw [spansLoop, if_neg (by decide), if_pos (by decide), List.append_assoc, List.singleton_append,
        spansLoop_single hp, ih, Nat.add_assoc, ← jsLength_append]
      rfl
    | double inner =>
      show spansLoop 0 none pos ('"' :: (inner.flatMap Inner.render ++ ['"'] ++ render ps)) = _
      rw [spansLoop, if_neg (by decide), if_pos (by decide), List.append_assoc, List.singleton_append,
        spansLoop_double hp, ih, Nat.add_assoc, ← jsLength_append]
      rfl
    | dangling => exact absurd hp id

/-! ### Words -/

/-- What a part adds to a word of `clauseWords`: a dangling backslash is lost. -/
def wordText (p : Part) : List Char := if p = .dangling then [] else p.text

/-- The text of the open word. -/
def WordScan.openText : WordScan → Option (List Char)
  | between => none
  | word w | quoted _ w => some w.text

theorem wordsLoop_single {w : Word} (h : apostrophe ∉ text) :
    ∃ w', w'.text = w.text ++ text ∧
      wordsLoop 0 (.quoted apostrophe w) (text ++ apostrophe :: rest) = wordsLoop 0 (.word w') rest := by
  induction text generalizing w with
  | nil => exact ⟨w, (List.append_nil _).symm, by rw [List.nil_append, wordsLoop, if_pos rfl]⟩
  | cons c text ih =>
    rw [List.mem_cons, not_or] at h
    rw [List.cons_append, wordsLoop, if_neg (Ne.symm h.1), escapedNext_none fun hboth => absurd hboth.1 (by decide)]
    dsimp only
    obtain ⟨w', htext, hloop⟩ := ih h.2
    refine ⟨w', ?_, hloop⟩
    rw [htext, List.append_assoc]
    rfl

theorem wordsLoop_double {w : Word} {inner : List Inner} (h : ∀ i ∈ inner, i.Closed) :
    ∃ w', w'.text = w.text ++ inner.flatMap Inner.text ∧
      wordsLoop 0 (.quoted '"' w) (inner.flatMap Inner.render ++ '"' :: rest) = wordsLoop 0 (.word w') rest := by
  induction inner generalizing w with
  | nil => exact ⟨w, (List.append_nil _).symm, by rw [List.flatMap_nil, List.nil_append, wordsLoop, if_pos rfl]⟩
  | cons i inner ih =>
    have hrest := fun j hj => h j (List.mem_cons_of_mem i hj)
    rw [List.flatMap_cons, List.flatMap_cons, List.append_assoc]
    cases i with
    | plain c =>
      obtain ⟨hquote, hescape⟩ := h _ List.mem_cons_self
      show ∃ w', _ ∧ wordsLoop 0 (.quoted '"' w) (c :: (inner.flatMap Inner.render ++ '"' :: rest)) = _
      rw [wordsLoop, if_neg hquote, escapedNext_none fun hboth => hescape hboth.2]
      dsimp only
      obtain ⟨w', htext, hloop⟩ := ih hrest
      refine ⟨w', ?_, hloop⟩
      rw [htext, List.append_assoc]
      rfl
    | escape c =>
      show ∃ w', _ ∧ wordsLoop 0 (.quoted '"' w) ('\\' :: c :: (inner.flatMap Inner.render ++ '"' :: rest)) = _
      rw [wordsLoop, if_neg (by decide), escapedNext_escape, text_escape]
      by_cases hmem : c ∈ escapable
      · rw [if_pos hmem, if_pos hmem]
        dsimp only
        rw [wordsLoop]
        obtain ⟨w', htext, hloop⟩ := ih hrest
        refine ⟨w', ?_, hloop⟩
        rw [htext]
        split_ifs
        · rfl
        · rw [List.append_assoc]
      · -- a backslash before any other character stands for itself
        have hquote : c ≠ '"' := fun heq => hmem (heq ▸ by decide)
        have hescape : c ≠ '\\' := fun heq => hmem (heq ▸ by decide)
        rw [if_neg hmem, if_neg hmem]
        dsimp only
        rw [wordsLoop, if_neg hquote, escapedNext_none fun hboth => hescape hboth.2]
        dsimp only
        obtain ⟨w', htext, hloop⟩ := ih hrest
        refine ⟨w', ?_, hloop⟩
        rw [htext, List.append_assoc, List.append_assoc]
        rfl

theorem wordsLoop_char {scan : WordScan} (hscan : ∀ q w, scan ≠ .quoted q w) (hblank : (Part.bare c).blank = false) :
    wordsLoop 0 scan (c :: rest) =
      let w := scan.current c
      if c = '\\' then
        wordsLoop 1 (.word { w with text := w.text ++ (rest.head?.filter (· ≠ '\n')).toList }) rest
      else if isQuote c then
        wordsLoop 0 (.quoted c { w with quotedFrom := w.quotedFrom.or (some (jsLength w.text)) }) rest
      else wordsLoop 0 (.word { w with text := w.text ++ [c], expands := w.expands || expandsAt false c rest })
        rest := by
  have hnot : ¬(c = ' ' ∨ c = '\t' ∨ c = '\n') := of_decide_eq_false hblank
  cases scan with
  | between =>
    rw [wordsLoop, if_neg hnot]
    all_goals nofun
  | word w => rw [wordsLoop, if_neg hnot]
  | quoted q w => exact absurd rfl (hscan q w)

/-- A part of a word, read on from the open word. -/
theorem wordsLoop_part {scan : WordScan} (hp : p.Closed) (hblank : p.blank = false)
    (hscan : ∀ q w, scan ≠ .quoted q w) :
    ∃ w, w.text = scan.openText.getD [] ++ wordText p ∧
      wordsLoop 0 scan (p.render ++ rest) = wordsLoop 0 (.word w) rest := by
  have hcurrent : ∀ c, (scan.current c).text = scan.openText.getD [] := by
    intro c
    cases scan with
    | between => rfl
    | word w => rfl
    | quoted q w => exact absurd rfl (hscan q w)
  -- one case for each kind of part: each leaves the loop in a word that ends in its text
  cases p with
  | bare c =>
    obtain ⟨hescape, hquote, hdouble⟩ := hp
    show ∃ w, _ ∧ wordsLoop 0 scan (c :: rest) = _
    rw [wordsLoop_char hscan hblank]
    dsimp only
    rw [if_neg hescape, not_isQuote ⟨hquote, hdouble⟩, if_neg Bool.false_ne_true, hcurrent]
    exact ⟨_, rfl, rfl⟩
  | escaped c =>
    show ∃ w, _ ∧ wordsLoop 0 scan ('\\' :: c :: rest) = _
    rw [wordsLoop_char hscan (by decide)]
    dsimp only
    rw [if_pos rfl, wordsLoop, hcurrent]
    refine ⟨_, ?_, rfl⟩
    show _ ++ ((some c).filter (· ≠ '\n')).toList = _ ++ (if c = '\n' then [] else [c])
    rw [Option.filter_some]
    by_cases hline : c = '\n'
    · rw [if_pos hline, hline]
      rfl
    · rw [if_neg hline, if_pos (decide_eq_true hline)]
      rfl
  | single text =>
    show ∃ w, _ ∧ wordsLoop 0 scan (apostrophe :: (text ++ [apostrophe] ++ rest)) = _
    rw [wordsLoop_char hscan (by decide)]
    dsimp only
    rw [if_neg (by decide), if_pos (by decide), List.append_assoc, List.singleton_append]
    obtain ⟨w, htext, hloop⟩ := @wordsLoop_single text rest
      { scan.current apostrophe with
        quotedFrom := (scan.current apostrophe).quotedFrom.or (some (jsLength (scan.current apostrophe).text)) } hp
    exact ⟨w, by rw [htext, hcurrent]; rfl, hloop⟩
  | double inner =>
    show ∃ w, _ ∧ wordsLoop 0 scan ('"' :: (inner.flatMap Inner.render ++ ['"'] ++ rest)) = _
    rw [wordsLoop_char hscan (by decide)]
    dsimp only
    rw [if_neg (by decide), if_pos (by decide), List.append_assoc, List.singleton_append]
    obtain ⟨w, htext, hloop⟩ := @wordsLoop_double rest
      { scan.current '"' with
        quotedFrom := (scan.current '"').quotedFrom.or (some (jsLength (scan.current '"').text)) } inner hp
    exact ⟨w, by rw [htext, hcurrent]; rfl, hloop⟩
  | dangling => exact absurd hp id

/-- `clauseWords` gathers the texts of the parts between bare blanks. -/
theorem wordsLoop_render {scan : WordScan} (h : Proper ps) (hscan : ∀ q w, scan ≠ .quoted q w) :
    ∃ ws, wordsLoop 0 scan (render ps) = some ws ∧
      ws.map Word.text = Lib.gather Part.blank wordText scan.openText ps := by
  induction h generalizing scan with
  | nil =>
    cases scan with
    | between => exact ⟨[], rfl, rfl⟩
    | word w => exact ⟨[w], rfl, rfl⟩
    | quoted q w => exact absurd rfl (hscan q w)
  | dangling =>
    cases scan with
    | between => exact ⟨_, rfl, rfl⟩
    | word w => exact ⟨_, rfl, rfl⟩
    | quoted q w => exact absurd rfl (hscan q w)
  | @cons p ps hp hps ih =>
    rw [render_cons, Lib.gather]
    -- a blank ends the word that is open, and any other part goes into one
    by_cases hblank : p.blank = true
    · obtain ⟨c, rfl⟩ : ∃ c, p = .bare c := by
        cases p with
        | bare c => exact ⟨c, rfl⟩
        | _ => cases hblank
      obtain ⟨ws, hloop, htexts⟩ := @ih .between (by simp)
      have hc : c = ' ' ∨ c = '\t' ∨ c = '\n' := of_decide_eq_true hblank
      rw [if_pos hblank]
      show ∃ ws, wordsLoop 0 scan (c :: render ps) = some ws ∧ _
      cases scan with
      | between =>
        refine ⟨ws, ?_, htexts⟩
        rw [wordsLoop, if_pos hc, hloop]
        all_goals simp
      | word w =>
        refine ⟨w :: ws, ?_, congrArg (w.text :: ·) htexts⟩
        rw [wordsLoop, if_pos hc, hloop, Option.map_some]
      | quoted q w => exact absurd rfl (hscan q w)
    · obtain ⟨w, htext, hpart⟩ := @wordsLoop_part p (render ps) scan hp (Bool.eq_false_iff.mpr hblank) hscan
      obtain ⟨ws, hloop, htexts⟩ := @ih (.word w) (by simp)
      refine ⟨ws, hpart.trans hloop, ?_⟩
      rw [htexts, if_neg hblank, ← htext]
      rfl

/-! ### Pieces -/

/-- A bare character at which `splitKeepingQuotes` splits. -/
def jsBlank : Part → Bool
  | .bare c => jsSpace c
  | _ => false

theorem flatten_pushed (cur : List Char) (out : List (List Char)) : (pushed cur out).flatten = cur ++ out.flatten := by
  unfold pushed
  split_ifs with hcur
  · rw [hcur]
    rfl
  · rfl

theorem drop_length_takeWhile (test : Char → Bool) (s : List Char) :
    s.drop (s.takeWhile test).length = s.dropWhile test := by
  have hsplit : s.takeWhile test ++ s.dropWhile test = s := List.takeWhile_append_dropWhile
  calc s.drop (s.takeWhile test).length
      = (s.takeWhile test ++ s.dropWhile test).drop (s.takeWhile test).length := by rw [hsplit]
    _ = s.dropWhile test := List.drop_left

/-- The pieces hold all that is left, and what has been read of the open one. -/
theorem flatten_keepLoop (k : ℕ) (quote : Option Char) (cur s : List Char) :
    (keepLoop k quote cur s).flatten = cur ++ s.drop k := by
  -- the induction is on the text: each character goes into a piece, in order
  induction s generalizing k quote cur with
  | nil =>
    rw [keepLoop, flatten_pushed, List.drop_nil]
    rfl
  | cons c rest ih =>
    have htake : ∀ cur : List Char, cur ++ c :: rest.take 1 ++ rest.drop 1 = cur ++ c :: rest := by
      intro cur
      rw [List.append_assoc, List.cons_append, List.take_append_drop]
    cases k with
    | succ k =>
      rw [keepLoop, ih]
      rfl
    | zero =>
      cases quote with
      | some q =>
        rw [keepLoop]
        by_cases hescape : q = '"' ∧ c = '\\' ∧ rest ≠ []
        · rw [if_pos hescape, ih, htake]
          rfl
        · rw [if_neg hescape, ih, List.append_assoc]
          rfl
      | none =>
        rw [keepLoop]
        split_ifs with hescape hquote hblank
        · rw [ih, htake]
          rfl
        · rw [ih, List.append_assoc]
          rfl
        · dsimp only
          rw [flatten_pushed, List.flatten_cons, ih, List.nil_append, List.cons_append]
          rw [drop_length_takeWhile, List.takeWhile_append_dropWhile]
          rfl
        · rw [ih, List.append_assoc]
          rfl

theorem keepLoop_drop (k : ℕ) (quote : Option Char) (cur s : List Char) :
    keepLoop k quote cur s = keepLoop 0 quote cur (s.drop k) := by
  induction k generalizing s with
  | zero => rfl
  | succ k ih =>
    cases s with
    | nil => cases quote <;> rfl
    | cons c s =>
      rw [List.drop_succ_cons, ← ih, keepLoop_passes.skip]

theorem head_render_space (h : jsSpace c = true) (hc : (render ps).head? = some c) : ps.head? = some (.bare c) := by
  refine (head_render ⟨?_, not_isQuote ⟨?_, ?_⟩⟩).mp hc <;>
  · rintro rfl
    exact absurd h (by decide)

theorem dropWhile_render (ps : List Part) : (render ps).dropWhile jsSpace = render (ps.dropWhile jsBlank) := by
  induction ps with
  | nil => rfl
  | cons p ps ih =>
    by_cases hp : jsBlank p = true
    · obtain ⟨c, rfl⟩ : ∃ c, p = .bare c := by
        cases p with
        | bare c => exact ⟨c, rfl⟩
        | _ => cases hp
      rw [List.dropWhile_cons_of_pos hp, ← ih]
      exact List.dropWhile_cons_of_pos hp
    · rw [List.dropWhile_cons_of_neg hp]
      obtain ⟨c, s, hs⟩ : ∃ c s, render (p :: ps) = c :: s := by
        cases p <;> exact ⟨_, _, rfl⟩
      rw [hs]
      refine List.dropWhile_cons_of_neg fun hc => hp ?_
      have hhead := @head_render_space (p :: ps) c hc (by rw [hs]; rfl)
      rw [List.head?_cons, Option.some_inj] at hhead
      rw [hhead]
      exact hc

/-- A part that does not part pieces has a character that is no blank. -/
theorem not_isBlank_render (hp : jsBlank p = false) (cur : List Char) : isBlank (cur ++ p.render) = false := by
  have hsolid : ∃ c ∈ p.render, jsSpace c = false := by
    cases p with
    | bare c => exact ⟨c, List.mem_singleton.mpr rfl, hp⟩
    | escaped c => exact ⟨'\\', List.mem_cons_self, by decide⟩
    | single text => exact ⟨apostrophe, List.mem_cons_self, by decide⟩
    | double inner => exact ⟨'"', List.mem_cons_self, by decide⟩
    | dangling => exact ⟨'\\', List.mem_cons_self, by decide⟩
  obtain ⟨c, hc, hsolid⟩ := hsolid
  rw [isBlank, List.all_eq_false]
  exact ⟨c, List.mem_append_right cur hc, by rw [hsolid]; exact Bool.false_ne_true⟩

theorem filter_pushed {cur : List Char} (hcur : cur = [] ∨ isBlank cur = false) (out : List (List Char)) :
    (pushed cur out).filter (fun piece => !isBlank piece) =
      (if cur = [] then none else some cur).toList ++ out.filter fun piece => !isBlank piece := by
  unfold pushed
  split_ifs with hnil
  · rfl
  · have hblank : isBlank cur = false := hcur.resolve_left hnil
    rw [List.filter_cons_of_pos (by rw [hblank]; rfl)]
    rfl

/-- The pieces that are not blank are the parts between the characters at which `splitKeepingQuotes` splits. -/
theorem filter_keepLoop (h : Proper ps) {cur : List Char} (hcur : cur = [] ∨ isBlank cur = false) :
    (keepLoop 0 none cur (render ps)).filter (fun piece => !isBlank piece) =
      Lib.gather jsBlank Part.render (if cur = [] then none else some cur) ps := by
  -- A run of blanks is passed over at once.
  induction hn : ps.length using Nat.strong_induction_on generalizing ps cur with
  | _ n ih =>
    have hopen : (if cur = [] then none else some cur).getD [] = cur := by
      split_ifs with hnil
      · exact hnil.symm
      · rfl
    cases h with
    | nil =>
      rw [render_nil, keepLoop, filter_pushed hcur, Lib.gather, List.filter_nil, List.append_nil]
    | dangling =>
      have hblank : isBlank (cur ++ ['\\']) = false := @not_isBlank_render .dangling rfl cur
      show (keepLoop 0 none cur ['\\']).filter _ = _
      rw [keepLoop, if_neg fun hboth => hboth.2 rfl, if_neg (by decide), if_neg (by decide), keepLoop,
        filter_pushed (.inr hblank), if_neg (by simp), Lib.gather, if_neg (by decide), hopen]
      rfl
    | @cons p ps hp hps =>
      rw [List.length_cons] at hn
      rw [render_cons, Lib.gather]
      by_cases hblank : jsBlank p = true
      · obtain ⟨c, rfl⟩ : ∃ c, p = .bare c := by
          cases p with
          | bare c => exact ⟨c, rfl⟩
          | _ => cases hblank
        obtain ⟨hescape, hquote, hdouble⟩ := hp
        have hspace : jsSpace c = true := hblank
        have hrest : (render ps).drop ((render ps).takeWhile jsSpace).length = render (ps.dropWhile jsBlank) := by
          rw [drop_length_takeWhile, dropWhile_render]
        have hrun : isBlank (c :: (render ps).takeWhile jsSpace) = true := by
          rw [isBlank, List.all_cons, hspace, Bool.true_and, List.all_eq_true]
          exact fun d hd => List.mem_takeWhile_imp hd
        have hshort : (ps.dropWhile jsBlank).length < n := by
          have hle := (List.dropWhile_sublist (l := ps) jsBlank).length_le
          omega
        have hproper : Proper (ps.dropWhile jsBlank) := by
          have hsplit : Proper (ps.takeWhile jsBlank ++ ps.dropWhile jsBlank) := by
            rw [List.takeWhile_append_dropWhile]
            exact hps
          exact hsplit.append_right
        have hih := @ih _ hshort _ hproper [] (.inl rfl) rfl
        rw [if_pos rfl, Lib.gather_dropWhile] at hih
        show (keepLoop 0 none cur (c :: render ps)).filter _ = _
        rw [keepLoop, if_neg fun hboth => hescape hboth.1, not_isQuote ⟨hquote, hdouble⟩, if_neg Bool.false_ne_true,
          if_pos hspace]
        dsimp only
        rw [filter_pushed hcur, List.filter_cons_of_neg (by rw [hrun]; exact Bool.false_ne_true), keepLoop_drop, hrest,
          hih, if_pos hblank]
      · have hsolid : jsBlank p = false := Bool.eq_false_iff.mpr hblank
        have hloop : keepLoop 0 none cur (p.render ++ render ps) = keepLoop 0 none (cur ++ p.render) (render ps) := by
          by_cases hbare : ∃ c, p = .bare c
          · obtain ⟨c, rfl⟩ := hbare
            obtain ⟨hescape, hquote, hdouble⟩ := hp
            have hspace : ¬jsSpace c = true := hblank
            show keepLoop 0 none cur (c :: render ps) = _
            rw [keepLoop, if_neg fun hboth => hescape hboth.1, not_isQuote ⟨hquote, hdouble⟩,
              if_neg Bool.false_ne_true, if_neg hspace]
            rfl
          · exact keepLoop_passes.part hp (fun c heq => hbare ⟨c, heq⟩) fun _ _ => trivial
        have hne : cur ++ p.render ≠ [] := by
          cases p <;> simp [Part.render]
        have hih := ih ps.length (by omega) hps (.inr (not_isBlank_render hsolid cur)) rfl
        rw [if_neg hne] at hih
        rw [hloop, hih, if_neg hblank, hopen]

end CodeGraph.Plugin.Shell
