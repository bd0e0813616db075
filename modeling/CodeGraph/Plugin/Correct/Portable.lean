import CodeGraph.Plugin.Portable
import CodeGraph.Plugin.GrepDialects
import CodeGraph.Plugin.Correct.Patterns

/-!
# What a pattern that is passed on means

The tokens of such a pattern are the same in all dialects, and the places where the dialects read tokens apart do not
occur among them (`Admitted`): no quantifier has nothing to repeat or stands behind another one. On such tokens the
readers run in step (`Parse.InStep`).
-/

namespace CodeGraph.Plugin.Patterns

open CodeGraph.Lib
open CodeGraph.Pipeline.InFlight (isWhitespace)

variable {word space : Char → Bool} {w : List Char} {ts ts' : List Token} {t : Token} {q : Quantifier} {d : Matcher}
  {f f' : Flags} {c : Char} {rest text : List Char} {n k : ℕ} {perl : Bool}

/-! ### What is let through -/

namespace Flags

/-- A quantifier may stand here. -/
def Repeats (f : Flags) : Prop := f.atomStart = false ∧ f.quantified = false ∧ f.assertion = false

/-- The flags behind a token. -/
def after (f : Flags) (t : Token) : Flags :=
  match t with
  | .quant _ => { f with quantified := true, altStart := false }
  | .opened | .bar => ⟨true, false, false, true⟩
  | .hat => ⟨true, false, false, false⟩
  | t => { piece with assertion := boundary t }

end Flags

/-- Tokens that all dialects read alike. -/
def Admitted : Flags → List Token → Prop
  | _, [] => True
  | f, t :: ts =>
    t ≠ .beyond ∧ (∀ q, t = .quant q → f.Repeats) ∧ (t = .dollar → Reading.ends ts = true) ∧ Admitted (f.after t) ts

/-- One step of the loop: an escape, a count, a bracket, or another character. -/
theorem portableStep_eq_some (h : portableStep perl f c rest = some (f', n)) :
    (c = '\\' ∧ n = 1 ∧ ∃ x after, rest = x :: after ∧ (x ∈ extSameEscape ∨ perl = false ∧ (x = '<' ∨ x = '>')) ∧
      f' = { Flags.piece with assertion := x ∈ ['b', 'B', '<', '>'] }) ∨
    (c = '{' ∧ f.Repeats ∧ countLength rest = some n ∧ f' = { f with quantified := true, altStart := false }) ∨
    (c = '[' ∧ f' = Flags.piece ∧ ∃ k, bracketEnd rest = some k ∧ n = k + 1) ∨
    (c ∉ ['\\', '{', '[', '}'] ∧ n = 0 ∧ (c ∈ ['*', '+', '?'] → f.Repeats) ∧
      (c = '$' → rest = [] ∨ rest.head? = some ')' ∨ rest.head? = some '|') ∧
      f' = if c ∈ ['*', '+', '?'] then { f with quantified := true, altStart := false }
        else if c ∈ ['(', '|', '^'] then ⟨true, false, false, c = '(' ∨ c = '|'⟩ else Flags.piece) := by
  unfold portableStep at h
  -- an escape that the dialects share
  by_cases hescape : c = '\\'
  · rw [if_pos hescape] at h
    cases rest with
    | nil => cases h
    | cons x after =>
      dsimp only at h
      split_ifs at h with hsame
      cases h
      exact .inl ⟨hescape, rfl, x, after, rfl, hsame, rfl⟩
  rw [if_neg hescape] at h
  -- a count in braces, or another quantifier
  by_cases hquant : c ∈ ['*', '+', '?', '{']
  · rw [if_pos hquant] at h
    split_ifs at h with hbad hcount
    · obtain ⟨n, hn, heq⟩ := Option.map_eq_some_iff.mp h
      cases heq
      simp only [not_or, Bool.not_eq_true] at hbad
      exact .inr (.inl ⟨hcount, hbad, hn, rfl⟩)
    · cases h
      simp only [not_or, Bool.not_eq_true] at hbad
      have hmem : c ∈ ['*', '+', '?'] := by
        simp only [List.mem_cons, List.not_mem_nil, or_false] at hquant ⊢
        tauto
      refine .inr (.inr (.inr ⟨?_, rfl, fun _ => hbad, ?_, by rw [if_pos hmem]⟩))
      · rintro hc
        revert hmem
        simp only [List.mem_cons, List.not_mem_nil, or_false] at hc ⊢
        rcases hc with rfl | rfl | rfl | rfl <;> decide
      · rintro rfl
        exact absurd hmem (by decide)
  rw [if_neg hquant] at h
  have hstar : c ∉ ['*', '+', '?'] := fun hmem => hquant (by simp at hmem ⊢; tauto)
  have hbrace : c ≠ '{' := by
    rintro rfl
    exact hquant (by decide)
  -- a character that opens a branch, a plain one, or a bracket
  split_ifs at h with hhat hdollar hclose hopens hbracket
  · cases h
    refine .inr (.inr (.inr ⟨?_, rfl, fun hmem => absurd hmem hstar, ?_, by rw [if_neg hstar, if_pos hopens]⟩))
    · simp only [List.mem_cons, List.not_mem_nil, or_false, not_or]
      refine ⟨hescape, hbrace, ?_, hclose⟩
      rintro rfl
      exact absurd hopens (by decide)
    · rintro rfl
      exact absurd hopens (by decide)
  · cases h
    refine .inr (.inr (.inr ⟨?_, rfl, fun hmem => absurd hmem hstar, fun hc => ?_, by
      rw [if_neg hstar, if_neg hopens]⟩))
    · simp only [List.mem_cons, List.not_mem_nil, or_false, not_or]
      exact ⟨hescape, hbrace, hbracket, hclose⟩
    · by_contra hbehind
      rw [not_or] at hbehind
      exact hdollar ⟨hc, hbehind⟩
  · obtain ⟨k, hk, heq⟩ := Option.map_eq_some_iff.mp h
    cases heq
    exact .inr (.inr (.inl ⟨by_contra hbracket, rfl, k, hk, rfl⟩))

theorem portableLoop_drop (n : ℕ) (f : Flags) (rest : List Char) :
    portableLoop perl n f rest = portableLoop perl 0 f (rest.drop n) := by
  induction n generalizing rest with
  | zero => rfl
  | succ n ih =>
    cases rest with
    | nil => rfl
    | cons c rest => exact ih rest

theorem portableLoop_cons (h : portableLoop perl 0 f (c :: rest) = true) :
    ∃ f' n, portableStep perl f c rest = some (f', n) ∧ portableLoop perl 0 f' (rest.drop n) = true := by
  rw [portableLoop] at h
  split at h
  · cases h
  case h_2 f' n hstep =>
    rw [portableLoop_drop] at h
    exact ⟨f', n, hstep, h⟩

/-- No quantifier stands where nothing can be repeated. -/
theorem head_of_not_repeats (h : portableLoop perl 0 f rest = true) (hf : ¬f.Repeats) :
    rest.head? ≠ some '?' ∧ rest.head? ≠ some '*' ∧ rest.head? ≠ some '{' := by
  cases rest with
  | nil => exact ⟨(nomatch ·), (nomatch ·), (nomatch ·)⟩
  | cons c rest =>
    obtain ⟨f', n, hstep, -⟩ := portableLoop_cons h
    rw [List.head?_cons]
    obtain ⟨rfl, -⟩ | ⟨-, hrepeats, -⟩ | ⟨rfl, -⟩ | ⟨hc, -, hrepeats, -⟩ := portableStep_eq_some hstep
    · exact ⟨by decide, by decide, by decide⟩
    · exact absurd hrepeats hf
    · exact ⟨by decide, by decide, by decide⟩
    · refine ⟨?_, ?_, ?_⟩
      · intro heq
        obtain rfl := Option.some_inj.mp heq
        exact hf (hrepeats (by decide))
      · intro heq
        obtain rfl := Option.some_inj.mp heq
        exact hf (hrepeats (by decide))
      · intro heq
        obtain rfl := Option.some_inj.mp heq
        exact hc (by decide)

/-! ### The same tokens -/

/-- What the dialects find where the loop has read `c`: one token, which leads to the flags of the loop. -/
structure SameToken (f : Flags) (behind : List Char) (f' : Flags) (t t' : Token) : Prop where
  same : t' = t
  known : t ≠ .beyond
  repeats : ∀ q, t = .quant q → f.Repeats
  ends : t = .dollar → behind = [] ∨ behind.head? = some ')' ∨ behind.head? = some '|'
  flags : f' = f.after t

theorem escape_same {x : Char} {after behind : List Char} (hx : x ∈ extSameEscape ∨ d ≠ .perl ∧ (x = '<' ∨ x = '>'))
    (hword : x = 'b' → after.head? ≠ some '{') :
    SameToken f behind { Flags.piece with assertion := x ∈ ['b', 'B', '<', '>'] } (Rust.escape x after) (d.escape x) := by
  unfold Rust.escape Matcher.escape
  by_cases hswapped : x ∈ ['(', ')', '{', '}', '+', '?', '|']
  · rw [if_pos hswapped, if_pos hswapped]
    have hnot : x ∉ ['b', 'B', '<', '>'] := by
      intro hmem
      revert hswapped
      simp only [List.mem_cons, List.not_mem_nil, or_false] at hmem
      rcases hmem with rfl | rfl | rfl | rfl <;> decide
    refine ⟨rfl, (nomatch ·), (fun q heq => nomatch heq), (nomatch ·), ?_⟩
    rw [decide_eq_false hnot]
    rfl
  · have hangle : ¬(d = .perl ∧ (x = '<' ∨ x = '>')) := by
      rintro ⟨hd, hangle⟩
      rcases hx with hx | ⟨hnot, -⟩
      · rcases hangle with rfl | rfl <;> exact absurd hx (by decide)
      · exact hnot hd
    have hmem : x ∈ ['w', 's', 'S', 'b', 'B', '<', '>', '.', '*', '[', ']', '^', '$', '\\', '/'] := by
      have hall : extSameEscape.all (fun y => y ∈ ['(', ')', '{', '}', '+', '?', '|'] ∨
          y ∈ ['w', 's', 'S', 'b', 'B', '<', '>', '.', '*', '[', ']', '^', '$', '\\', '/']) = true := by decide
      rcases hx with hx | ⟨-, rfl | rfl⟩
      · exact (of_decide_eq_true (List.all_eq_true.mp hall x hx)).resolve_left hswapped
      · decide
      · decide
    rw [if_neg hswapped, if_neg hswapped, if_neg fun hb => hword hb.1 hb.2, if_neg hangle, if_pos hmem]
    refine ⟨rfl, (nomatch ·), (fun q heq => nomatch heq), (nomatch ·), ?_⟩
    show _ = ({ Flags.piece with assertion := boundary (.escape x) } : Flags)
    simp [boundary]

theorem plain_same (hc : c ∉ ['\\', '{', '[', '}']) (hnewline : c ≠ '\n')
    (hgroup : c = '(' → rest.head? ≠ some '?' ∧ rest.head? ≠ some '*') (hrepeats : c ∈ ['*', '+', '?'] → f.Repeats)
    (hends : c = '$' → rest = [] ∨ rest.head? = some ')' ∨ rest.head? = some '|')
    (hf' : f' = if c ∈ ['*', '+', '?'] then { f with quantified := true, altStart := false }
      else if c ∈ ['(', '|', '^'] then ⟨true, false, false, c = '(' ∨ c = '|'⟩ else Flags.piece) :
    SameToken f rest f' (Rust.plain c rest) (d.plain c rest) := by
  unfold Rust.plain Matcher.plain
  rw [if_neg hnewline]
  -- a group with flags is the one thing that the dialects open in different ways
  by_cases hopen : c = '('
  · subst hopen
    obtain ⟨hopt, hstar⟩ := hgroup rfl
    have hflags : ¬(d = .perl ∧ (rest.head? = some '?' ∨ rest.head? = some '*')) := by
      rintro ⟨-, h | h⟩
      · exact hopt h
      · exact hstar h
    rw [if_pos rfl, if_pos rfl, if_neg hopt, if_neg hflags]
    exact ⟨rfl, (nomatch ·), (fun q heq => nomatch heq), (nomatch ·), hf'⟩
  rw [if_neg hopen, if_neg hopen]
  split_ifs with hclosed hbar hstar hplus hopt hdot hhat hdollar
  · subst hclosed
    exact ⟨rfl, (nomatch ·), (fun q heq => nomatch heq), (nomatch ·), hf'⟩
  · subst hbar
    exact ⟨rfl, (nomatch ·), (fun q heq => nomatch heq), (nomatch ·), hf'⟩
  · subst hstar
    exact ⟨rfl, (nomatch ·), fun q _ => hrepeats (by decide), (nomatch ·), hf'⟩
  · subst hplus
    exact ⟨rfl, (nomatch ·), fun q _ => hrepeats (by decide), (nomatch ·), hf'⟩
  · subst hopt
    exact ⟨rfl, (nomatch ·), fun q _ => hrepeats (by decide), (nomatch ·), hf'⟩
  · subst hdot
    exact ⟨rfl, (nomatch ·), (fun q heq => nomatch heq), (nomatch ·), hf'⟩
  · subst hhat
    exact ⟨rfl, (nomatch ·), (fun q heq => nomatch heq), (nomatch ·), hf'⟩
  · subst hdollar
    exact ⟨rfl, (nomatch ·), (fun q heq => nomatch heq), fun _ => hends rfl, hf'⟩
  · rw [if_neg (by simp [hstar, hplus, hopt]), if_neg (by simp [hopen, hbar, hhat])] at hf'
    exact ⟨rfl, (nomatch ·), (fun q heq => nomatch heq), (nomatch ·), hf'⟩

/-- A bracket that is passed on. -/
theorem bracket_same {j j' : ℕ} (h : bracketEnd rest = some k) (ht : Rust.bracket rest = some (t, j))
    {t' : Token} {behind : List Char} (ht' : d.bracket rest = some (t', j')) :
    SameToken f behind Flags.piece t t' ∧ j = k + 1 ∧ j' = k + 1 := by
  obtain ⟨negated, chars, tail, hrest, -, hsame, hparts⟩ := bracketParts_of_bracketEnd h
  -- a bracket that both end alike has no class, no escape and no set operation
  have hclasses : ([['[', ':'], ['[', '.'], ['[', '=']].any (· <:+: chars)) = false := by
    rw [List.any_eq_false]
    intro l hl hin
    rw [decide_eq_true_iff] at hin
    have hopens : '[' ∈ l := by
      revert hl
      simp only [List.mem_cons, List.not_mem_nil, or_false]
      rintro (rfl | rfl | rfl) <;> exact List.mem_cons_self
    exact hsame.opens (hin.subset hopens)
  have hbad : ¬('\\' ∈ chars ∨ '[' ∈ chars ∨ Rust.doubled chars = true) := by
    rw [hsame.doubled]
    rintro (hbad | hbad | hbad)
    · exact hsame.escape hbad
    · exact hsame.opens hbad
    · cases hbad
  have hbad' : ¬(([['[', ':'], ['[', '.'], ['[', '=']].any (· <:+: chars)) = true ∨ d = .perl ∧ '\\' ∈ chars) := by
    rw [hclasses]
    rintro (hbad | ⟨-, hbad⟩)
    · cases hbad
    · exact hsame.escape hbad
  unfold Rust.bracket at ht
  unfold Matcher.bracket at ht'
  rw [hrest, hparts, Option.bind_some] at ht ht'
  dsimp only at ht ht'
  rw [if_neg hbad, Option.map_eq_some_iff] at ht
  rw [if_neg hbad', Option.map_eq_some_iff] at ht'
  obtain ⟨l, hl, heq⟩ := ht
  obtain ⟨l', hl', heq'⟩ := ht'
  rw [hl, Option.some_inj] at hl'
  subst hl'
  cases heq
  cases heq'
  exact ⟨⟨rfl, (nomatch ·), (fun q heq => nomatch heq), (nomatch ·), rfl⟩, rfl, rfl⟩

theorem interval_one {least tail : List Char} (hleast : rest.takeWhile digit = least) (hne : least ≠ [])
    (h : rest.dropWhile digit = '}' :: tail) :
    Matcher.interval rest = some (some (.count (value least) (some (value least))), least.length + 1) := by
  unfold Matcher.interval
  simp [hleast, hne, h]

theorem interval_two {least behind tail : List Char} (hleast : rest.takeWhile digit = least) (hne : least ≠ [])
    (hbehind : rest.dropWhile digit = ',' :: behind) (h : behind.dropWhile digit = '}' :: tail) :
    Matcher.interval rest = some (bounds (value least) (behind.takeWhile digit),
      least.length + (behind.takeWhile digit).length + 2) := by
  unfold Matcher.interval
  simp [hleast, hne, hbehind, h]

/-- A count has the same bounds everywhere. -/
theorem count_same (h : countLength rest = some n) :
    ∃ q? : Option Quantifier, Matcher.interval rest = some (q?, n) ∧ Rust.count rest = q?.map (·, n) := by
  have hsplit : rest = rest.takeWhile digit ++ rest.dropWhile digit := List.takeWhile_append_dropWhile.symm
  have hdigits : ∀ {l : List Char}, ∀ c ∈ l.takeWhile digit, digit c = true := fun c hc => List.mem_takeWhile_imp hc
  have hclosing : ∀ {l : List Char} (r : List Char), (∀ c ∈ l, digit c = true) →
      Rust.decimal (l ++ '}' :: r) = (l, '}' :: r) := fun r hl => decimal_append hl (by decide) (by decide)
  unfold countLength at h
  unfold Rust.count
  dsimp only at h ⊢
  generalize hleast : rest.takeWhile digit = least at h hsplit
  generalize hbehind : rest.dropWhile digit = behind at h hsplit
  have hd : ∀ c ∈ least, digit c = true := hleast ▸ hdigits
  split_ifs at h with hne
  split at h
  case h_1 tail =>
    cases h
    refine ⟨_, interval_one hleast hne hbehind, ?_⟩
    have hrust : Rust.countAndRest rest = some (.count (value least) (some (value least)), tail) := by
      unfold Rust.countAndRest
      rw [hsplit, hclosing tail hd]
      dsimp only
      rw [if_neg hne]
      rfl
    have hlength : rest.length - tail.length = least.length + 1 := by
      rw [hsplit, List.length_append, List.length_cons]
      omega
    rw [hrust, Option.map_some, hlength]
    rfl
  case h_2 behind' =>
    split at h
    case h_1 tail hclose =>
      cases h
      refine ⟨bounds (value least) (behind'.takeWhile digit), interval_two hleast hne hbehind hclose, ?_⟩
      have hsplit' : behind' = behind'.takeWhile digit ++ '}' :: tail := hclose ▸ List.takeWhile_append_dropWhile.symm
      have hd' : ∀ c ∈ behind'.takeWhile digit, digit c = true := hdigits
      generalize behind'.takeWhile digit = most at hsplit' hd' ⊢
      have hcomma : ¬(',' :: behind').head? = some '}' := by simp
      have hrust : Rust.countAndRest rest = (bounds (value least) most).map (·, tail) := by
        unfold Rust.countAndRest
        rw [hsplit, decimal_append hd (by decide) (by decide)]
        dsimp only
        rw [if_neg hne, if_neg hcomma, if_pos (List.head?_cons ..), List.tail_cons, hsplit', hclosing tail hd']
        by_cases hmost : most = []
        · subst hmost
          rfl
        · -- a digit stands first, and closes nothing
          obtain ⟨x, most, rfl⟩ := List.exists_cons_of_ne_nil hmost
          have hx : ¬(x :: most ++ '}' :: tail).head? = some '}' := fun heq => by
            obtain rfl := Option.some_inj.mp heq
            exact absurd (hd' _ List.mem_cons_self) (by decide)
          rw [if_neg hx, if_pos ⟨hmost, rfl⟩]
          rfl
      have hlength : rest.length - tail.length = least.length + most.length + 2 := by
        rw [hsplit, hsplit', List.length_append, List.length_cons, List.length_append, List.length_cons]
        omega
      rw [hrust, Option.map_map]
      show (bounds (value least) most).map (fun q => (q, rest.length - tail.length)) = _
      rw [hlength]
    case h_2 => cases h
  case h_3 => cases h

/-- What one step of the loop has read is one token, and the same for rust and the dialect of the grep. -/
theorem token_same {t' : Token} {j : ℕ} (h : portableStep (d = .perl) f c rest = some (f', n))
    (hloop : portableLoop (d = .perl) 0 f' (rest.drop n) = true) (hnewline : c ≠ '\n')
    (ht : Rust.token c rest = some (t, k)) (ht' : d.token c rest = some (t', j)) :
    SameToken f (rest.drop n) f' t t' ∧ k = n ∧ j = n := by
  unfold Rust.token at ht
  unfold Matcher.token at ht'
  obtain ⟨rfl, rfl, x, after, rfl, hx, rfl⟩ | ⟨rfl, hrepeats, hcount, rfl⟩ | ⟨rfl, rfl, m, hm, rfl⟩ |
    ⟨hc, rfl, hrepeats, hends, hf'⟩ := portableStep_eq_some h
  · rw [if_pos rfl] at ht ht'
    cases ht
    cases ht'
    refine ⟨escape_same (hx.imp_right fun h => ⟨of_decide_eq_false h.1, h.2⟩) ?_, rfl, rfl⟩
    rintro rfl
    -- a count would stand behind an assertion
    exact (head_of_not_repeats hloop fun h => Bool.noConfusion h.2.2).2.2
  · rw [if_neg (by decide), if_neg (by decide), if_pos rfl] at ht ht'
    obtain ⟨q?, hinterval, hrust⟩ := count_same hcount
    rw [hrust, Option.map_map, Option.map_eq_some_iff] at ht
    obtain ⟨q, hq, heq⟩ := ht
    cases heq
    rw [hinterval, hq] at ht'
    cases ht'
    exact ⟨⟨rfl, (nomatch ·), fun _ _ => hrepeats, (nomatch ·), rfl⟩, rfl, rfl⟩
  · rw [if_neg (by decide), if_pos rfl] at ht ht'
    exact bracket_same hm ht ht'
  · have hne : c ≠ '\\' ∧ c ≠ '[' ∧ c ≠ '{' := by
      simp only [List.mem_cons, List.not_mem_nil, or_false, not_or] at hc
      exact ⟨hc.1, hc.2.2.1, hc.2.1⟩
    rw [if_neg hne.1, if_neg hne.2.1, if_neg hne.2.2] at ht ht'
    cases ht
    cases ht'
    refine ⟨plain_same hc hnewline ?_ hrepeats hends hf', rfl, rfl⟩
    rintro rfl
    -- nothing stands before a quantifier at the start of a group
    have hopen : ¬f'.Repeats := by
      rw [hf']
      exact fun h => Bool.noConfusion h.1
    obtain ⟨hopt, hstar, -⟩ := head_of_not_repeats hloop hopen
    exact ⟨hopt, hstar⟩

theorem ends_of_head (h : rest = [] ∨ rest.head? = some ')' ∨ rest.head? = some '|')
    (hts : cut Rust.token 0 rest = some ts) : Reading.ends ts = true := by
  rcases h with rfl | h | h
  · cases hts
    rfl
  · obtain ⟨after, rfl⟩ := List.head?_eq_some_iff.mp h
    have htoken : Rust.token ')' after = some (.closed, 0) := rfl
    rw [cut_cons_eq_some htoken (nomatch ·), Option.map_eq_some_iff] at hts
    obtain ⟨ts, -, rfl⟩ := hts
    rfl
  · obtain ⟨after, rfl⟩ := List.head?_eq_some_iff.mp h
    have htoken : Rust.token '|' after = some (.bar, 0) := rfl
    rw [cut_cons_eq_some htoken (nomatch ·), Option.map_eq_some_iff] at hts
    obtain ⟨ts, -, rfl⟩ := hts
    rfl

/-- A pattern that the loop lets through has the same tokens for rust and for the dialect of the grep. -/
theorem cut_same (h : portableLoop (d = .perl) 0 f text = true) (hnewline : '\n' ∉ text)
    (hts : cut Rust.token 0 text = some ts) (hts' : cut d.token 0 text = some ts') : ts' = ts ∧ Admitted f ts := by
  -- The steps pass over characters, so the induction is on a bound of the length.
  suffices hlength : ∀ (m : ℕ) {f : Flags} {text : List Char} {ts ts' : List Token}, text.length ≤ m →
      portableLoop (d = .perl) 0 f text = true → '\n' ∉ text → cut Rust.token 0 text = some ts →
      cut d.token 0 text = some ts' → ts' = ts ∧ Admitted f ts from
    hlength _ (Nat.le_refl _) h hnewline hts hts'
  intro m
  induction m with
  | zero =>
    intro f text ts ts' hm _ _ hts hts'
    obtain rfl := List.length_eq_zero_iff.mp (Nat.le_zero.mp hm)
    cases hts
    cases hts'
    exact ⟨rfl, trivial⟩
  | succ m ih =>
    intro f text ts ts' hm h hnewline hts hts'
    cases text with
    | nil =>
      cases hts
      cases hts'
      exact ⟨rfl, trivial⟩
    | cons c rest =>
      rw [List.length_cons, Nat.succ_le_succ_iff] at hm
      rw [List.mem_cons, not_or] at hnewline
      obtain ⟨f', n, hstep, hloop⟩ := portableLoop_cons h
      obtain ⟨t, k, ht, hcut⟩ := cut_cons_inv hts
      obtain ⟨t', j, ht', hcut'⟩ := cut_cons_inv hts'
      obtain ⟨hsame, hk, hj⟩ := token_same hstep hloop (Ne.symm hnewline.1) ht ht'
      obtain ⟨rest', rfl, hrest⟩ := hcut hsame.known
      obtain ⟨rest'', rfl, hrest'⟩ := hcut' (hsame.same ▸ hsame.known)
      rw [hk] at hrest
      rw [hj] at hrest'
      have hshort : (rest.drop n).length ≤ m := by
        rw [List.length_drop]
        omega
      have hnewline' : '\n' ∉ rest.drop n := fun hmem => hnewline.2 (List.mem_of_mem_drop hmem)
      obtain ⟨rfl, hadmitted⟩ := ih hshort hloop hnewline' hrest hrest'
      exact ⟨by rw [hsame.same], hsame.known, hsame.repeats, fun heq => ends_of_head (hsame.ends heq) hrest,
        hsame.flags ▸ hadmitted⟩

/-- Behind admitted tokens no quantifier has nothing to repeat. -/
theorem loose_eq_false {empty : Bool} (h : Admitted f ts)
    (hempty : empty = true → f.atomStart = true ∨ f.assertion = true ∨ Reading.ends ts = true) :
    loose empty ts = false := by
  induction ts generalizing f empty with
  | nil => rfl
  | cons t ts ih =>
    obtain ⟨-, hrepeats, hdollar, hrest⟩ := h
    have hbehind : t.isEmpty = true → (f.after t).atomStart = true ∨ (f.after t).assertion = true ∨ Reading.ends ts = true := by
      intro ht
      simp only [Token.isEmpty, List.mem_cons, List.not_mem_nil, or_false, decide_eq_true_eq] at ht
      rcases ht with rfl | rfl | rfl | rfl | rfl | rfl | rfl | rfl
      · exact .inl rfl
      · exact .inl rfl
      · exact .inl rfl
      · exact .inr (.inr (hdollar rfl))
      all_goals exact .inr (.inl rfl)
    rw [loose, ih hrest hbehind, Bool.or_false, Bool.and_eq_false_iff]
    cases t with
    | quant q =>
      left
      obtain ⟨hatom, -, hassert⟩ := hrepeats q rfl
      rw [Bool.eq_false_iff]
      intro hsome
      rcases hempty hsome with h | h | h
      · rw [hatom] at h
        cases h
      · rw [hassert] at h
        cases h
      · cases h
    | _ => exact .inr rfl

/-! ### The same meaning -/

/-- The pattern can be searched in every way, and says what the expression says. -/
structure Stands (w : List Char) (p : Pattern Char) (r : Re Char) : Prop where
  backtracks : p.Backtracks
  same : Re.Same w p.toRe r

namespace Stands

variable {p p' : Pattern Char} {r r' : Re Char}

theorem ofRe (r : Re Char) : Stands w (.ofRe r) r := ⟨Pattern.backtracks_ofRe r, by rw [Pattern.toRe_ofRe]; exact .refl r⟩

theorem one {p q : Char → Bool} (h : ∀ c ∈ w, p c = q c) : Stands w (.one p) (.one q) := ⟨trivial, Re.same_one h⟩

theorem seq (h : Stands w p r) (h' : Stands w p' r') : Stands w (.seq p p') (.seq r r') :=
  ⟨⟨h.backtracks, h'.backtracks⟩, h.same.seq h'.same⟩

theorem alt (h : Stands w p r) (h' : Stands w p' r') : Stands w (.alt p p') (.alt r r') :=
  ⟨⟨h.backtracks, h'.backtracks⟩, h.same.alt h'.same⟩

theorem rep {least : ℕ} {most : Option ℕ} (h : Stands w p r) :
    Stands w (.rep p least most .greedy) (.rep r least most) :=
  ⟨⟨h.backtracks, (nomatch ·)⟩, h.same.rep⟩

/-- The end of a line without newlines. -/
theorem dollar (hw : '\n' ∉ w) : Stands w (.look fun _ behind => behind.isEmpty ∨ d = .perl ∧ behind = ['\n'])
    (.look fun _ behind => behind.isEmpty) := by
  refine ⟨trivial, ?_⟩
  have hbehind : ∀ i, decide ((w.drop i).isEmpty = true ∨ d = .perl ∧ w.drop i = ['\n']) = (w.drop i).isEmpty := by
    intro i
    rw [Bool.eq_iff_iff, decide_eq_true_iff]
    refine or_iff_left_of_imp ?_
    rintro ⟨-, hlast⟩
    have hmem : '\n' ∈ w.drop i := hlast ▸ List.mem_singleton.mpr rfl
    exact absurd (List.mem_of_mem_drop hmem) hw
  funext i j
  refine propext (and_congr_right ?_)
  rintro rfl
  show decide ((w.drop i).isEmpty = true ∨ d = .perl ∧ w.drop i = ['\n']) = true ↔ _
  rw [hbehind i]

theorem seqAll {l : List (Pattern Char)} {l' : List (Re Char)} (h : List.Forall₂ (Stands w) l l') :
    Stands w (l.foldl (fun p piece => .seq piece p) .empty) (Re.seqAll l') := by
  suffices hfold : ∀ {p : Pattern Char} {r : Re Char}, Stands w p r →
      Stands w (l.foldl (fun p piece => .seq piece p) p) (l'.foldl (fun r piece => .seq piece r) r) from
    hfold ⟨trivial, .refl _⟩
  induction h with
  | nil => exact fun hp => hp
  | cons hpiece _ ih => exact fun hp => ih (hpiece.seq hp)

theorem altAll {l : List (Pattern Char)} {l' : List (Re Char)} (h : List.Forall₂ (Stands w) l l') (hp : Stands w p r) :
    Stands w (l.foldl (fun p a => .alt a p) p) (Re.altAll l' r) := by
  induction h generalizing p r with
  | nil => exact hp
  | cons ha _ ih => exact ih (ha.alt hp)

end Stands

namespace Matcher

structure Level.Stands (w : List Char) (l : Level) (g : Group) : Prop where
  alternatives : List.Forall₂ (Patterns.Stands w) l.alternatives g.alternatives
  pieces : List.Forall₂ (Patterns.Stands w) l.pieces g.pieces

theorem Level.Stands.pattern {l : Level} {g : Group} (h : l.Stands w g) : Patterns.Stands w l.pattern g.re :=
  .altAll h.alternatives (.seqAll h.pieces)

namespace Parse

variable {s u : Parse} {s' u' : Reading} {p : Pattern Char} {r : Re Char} {last : Last} {atEnd : Bool}

/-- A reading of a grep's dialect and one of rust, behind the same tokens. -/
structure InStep (w : List Char) (f : Flags) (s : Parse) (s' : Reading) : Prop where
  outer : List.Forall₂ (Level.Stands w) s.outer s'.outer
  inner : s.inner.Stands w s'.inner
  quantified : f.quantified = false → s.quantified = false
  last : f.atomStart = false → f.quantified = false → s'.last = .piece

theorem InStep.push (h : InStep w f s s') (hp : Stands w p r) (hlast : f'.atomStart = false → last = .piece) :
    InStep w f' (s.push p) (s'.push r last) :=
  ⟨h.outer, ⟨h.inner.alternatives, .cons hp h.inner.pieces⟩, fun _ => rfl, fun hatom _ => hlast hatom⟩

/-- A quantifier behind a piece that it can repeat. -/
theorem InStep.quantify (h : InStep w f s s') (hf : f.Repeats) (hstep : s.quantify d q = some u)
    (hstep' : s'.quantify .rust q = some u') : InStep w (f.after (.quant q)) u u' := by
  -- there is a piece to repeat, and it has no quantifier yet
  have hlast : s'.last = .piece := h.last hf.1 hf.2.1
  have hquant : s'.quantify .rust q = s'.repeatLast q := by
    unfold Reading.quantify
    rw [hlast]
  rw [hquant] at hstep'
  unfold Parse.quantify at hstep
  unfold Reading.repeatLast at hstep'
  have hpieces := h.inner.pieces
  cases hs : s.inner.pieces with
  | nil =>
    rw [hs] at hstep
    cases hstep
  | cons p rest =>
    cases hs' : s'.inner.pieces with
    | nil =>
      rw [hs'] at hstep'
      cases hstep'
    | cons r rest' =>
      rw [hs] at hstep hpieces
      rw [hs'] at hstep' hpieces
      have hgreedy : repeated d q s.quantified p = some (.rep p q.least q.most .greedy) := by
        unfold repeated
        rw [h.quantified hf.2.1, if_neg fun hboth => Bool.noConfusion hboth.2]
      dsimp only at hstep
      rw [hgreedy] at hstep
      cases hstep
      cases hstep'
      cases hpieces with
      | cons hp hrest =>
        exact ⟨h.outer, ⟨h.inner.alternatives, .cons hp.rep hrest⟩, (nomatch ·), fun _ hfalse => nomatch hfalse⟩

/-- One token, where all dialects read it alike. -/
theorem InStep.step (hw : '\n' ∉ w) (h : InStep w f s s') (hrepeats : ∀ q, t = .quant q → f.Repeats)
    (hstep : s.step word space d t = some u) (hstep' : s'.step word space .rust atEnd t = some u') :
    InStep w (f.after t) u u' := by
  -- but for the dot and the dollar, both readings push the same piece
  cases t with
  | lit c =>
    cases hstep
    cases hstep'
    exact h.push (.one fun _ _ => rfl) fun _ => rfl
  | escape n =>
    cases hstep
    cases hstep'
    exact h.push (.ofRe _) fun _ => rfl
  | any =>
    cases hstep
    cases hstep'
    refine h.push (.one fun c hc => ?_) fun _ => rfl
    have hne : c ≠ '\n' := fun heq => hw (heq ▸ hc)
    simp [hne]
  | members negated ranges =>
    cases hstep
    cases hstep'
    exact h.push (.one fun _ _ => rfl) fun _ => rfl
  | hat =>
    cases hstep
    cases hstep'
    exact h.push ⟨trivial, .refl _⟩ fun hfalse => nomatch hfalse
  | dollar =>
    cases hstep
    cases hstep'
    exact h.push (.dollar hw) fun _ => rfl
  | bar =>
    cases hstep
    cases hstep'
    exact ⟨h.outer, ⟨.cons (.seqAll h.inner.pieces) h.inner.alternatives, .nil⟩, fun _ => rfl,
      fun hfalse => nomatch hfalse⟩
  | opened =>
    cases hstep
    cases hstep'
    exact ⟨.cons h.inner h.outer, ⟨.nil, .nil⟩, fun _ => rfl, fun hfalse => nomatch hfalse⟩
  | closed =>
    unfold Parse.step at hstep
    unfold Reading.step at hstep'
    dsimp only at hstep hstep'
    have houter := h.outer
    cases hs : s.outer with
    | nil =>
      rw [hs] at hstep
      cases hstep
    | cons l outer =>
      cases hs' : s'.outer with
      | nil =>
        rw [hs'] at hstep'
        cases hstep'
      | cons g outer' =>
        rw [hs, hs'] at houter
        rw [hs] at hstep
        rw [hs'] at hstep'
        cases houter with
        | cons hl hrest =>
          cases hstep
          cases hstep'
          have hopen : InStep w f ⟨outer, l, false⟩ ⟨outer', g, .piece⟩ := ⟨hrest, hl, fun _ => rfl, fun _ _ => rfl⟩
          exact hopen.push h.inner.pattern fun _ => rfl
  | quant q => exact h.quantify (hrepeats q rfl) hstep hstep'
  | beyond => cases hstep

/-- Readings of admitted tokens. -/
theorem InStep.read (hw : '\n' ∉ w) (h : InStep w f s s') (hadmitted : Admitted f ts)
    (hread : s.read word space d ts = some p) (hread' : s'.read word space .rust ts = some r) : Stands w p r := by
  induction ts generalizing f s s' with
  | nil =>
    unfold Parse.read at hread
    unfold Reading.read at hread'
    split_ifs at hread hread'
    cases hread
    cases hread'
    exact h.inner.pattern
  | cons t ts ih =>
    unfold Parse.read at hread
    unfold Reading.read at hread'
    obtain ⟨-, hrepeats, -, hrest⟩ := hadmitted
    obtain ⟨u, hstep, hread⟩ := Option.bind_eq_some_iff.mp hread
    obtain ⟨u', hstep', hread'⟩ := Option.bind_eq_some_iff.mp hread'
    exact ih (h.step hw hrepeats hstep hstep') hrest hread hread'

end Parse

theorem lines_iff {p : Pattern Char} {r : Re Char} (h : Stands w p r) : d.lines p w ↔ r.Selects w := by
  cases d with
  | extended => exact h.same.selects
  | perl => exact (Pattern.finds_iff h.backtracks).trans h.same.selects

/-- The text selects the same lines for this matcher and for rust, where both take it. -/
def SameLines (word space : Char → Bool) (d : Matcher) (beyond : List Char → Option (List Char → Prop))
    (rustBeyond : List Char → Option (Re Char)) (text : List Char) : Prop :=
  ∀ lines rust, d.read word space beyond text = some lines → Rust.read word space rustBeyond text = some rust →
    ∀ line, '\n' ∉ line → (lines line ↔ rust.Selects line)

/-- A pattern that the loop lets through selects the same lines. -/
theorem sameLines_of_portable (beyond : List Char → Option (List Char → Prop))
    (rustBeyond : List Char → Option (Re Char)) (hnewline : '\n' ∉ text)
    (h : portableLoop (d = .perl) 0 .start text = true) : d.SameLines word space beyond rustBeyond text := by
  intro lines rust hread hread' line hline
  unfold Matcher.read at hread
  unfold Rust.read at hread'
  obtain ⟨ts, hts, hread⟩ := Option.bind_eq_some_iff.mp hread
  obtain ⟨ts', hts', hread'⟩ := Option.bind_eq_some_iff.mp hread'
  obtain ⟨rfl, hadmitted⟩ := cut_same h hnewline hts' hts
  have hbeyond : .beyond ∉ ts := by
    intro hmem
    have hall : ∀ {f : Flags} {ts : List Token}, Admitted f ts → .beyond ∉ ts := by
      intro f ts hts
      induction ts generalizing f with
      | nil => exact List.not_mem_nil
      | cons t ts ih =>
        rintro hmem
        rcases List.mem_cons.mp hmem with rfl | hmem
        · exact hts.1 rfl
        · exact ih hts.2.2.2 hmem
    exact hall hadmitted hmem
  have hloose : loose true ts = false := loose_eq_false hadmitted fun _ => .inl rfl
  rw [if_neg hbeyond] at hread'
  rw [if_neg (by rw [hloose]; rintro (hmem | hfalse); exacts [hbeyond hmem, Bool.noConfusion hfalse])] at hread
  obtain ⟨p, hp, rfl⟩ := Option.map_eq_some_iff.mp hread
  have hstart : Parse.InStep line .start .start .start := ⟨.nil, ⟨.nil, .nil⟩, fun _ => rfl, fun hfalse => nomatch hfalse⟩
  exact lines_iff (hstart.read hline hadmitted hp hread')

end Matcher

/-- What is passed on selects the same lines for the grep it comes from and for rust. -/
theorem portableExtended_selects {pattern : List Char} (beyond perlBeyond : List Char → Option (List Char → Prop))
    (rustBeyond : List Char → Option (Re Char)) (hnewline : '\n' ∉ pattern) :
    (portableExtended pattern false = some pattern →
      Matcher.extended.SameLines word space beyond rustBeyond pattern) ∧
    (portableExtended pattern true = some pattern →
      Matcher.perl.SameLines word space perlBeyond rustBeyond pattern) := by
  have hloop : ∀ {perl : Bool}, portableExtended pattern perl = some pattern →
      portableLoop perl 0 .start pattern = true := by
    intro perl h
    unfold portableExtended at h
    split_ifs at h with hloop
    exact hloop
  constructor
  · intro h
    exact Matcher.sameLines_of_portable beyond rustBeyond hnewline (hloop h)
  · intro h
    exact Matcher.sameLines_of_portable perlBeyond rustBeyond hnewline (hloop h)

/-- `(a|\bfoo{2,})+[^x-z]*$`, for `grep -E` and `grep -P`. -/
theorem portableExtended_selects_group :
    Matcher.extended.SameLines Char.isAlphanum Char.isWhitespace (fun _ => none) (fun _ => none)
        "(a|\\bfoo{2,})+[^x-z]*$".toList ∧
      Matcher.perl.SameLines Char.isAlphanum Char.isWhitespace (fun _ => none) (fun _ => none)
        "(a|\\bfoo{2,})+[^x-z]*$".toList := by
  obtain ⟨hextended, hperl⟩ := @portableExtended_selects Char.isAlphanum Char.isWhitespace
    "(a|\\bfoo{2,})+[^x-z]*$".toList (fun _ => none) (fun _ => none) (fun _ => none) (by decide)
  exact ⟨hextended (by decide), hperl (by decide)⟩

/-- Both dialects and rust take it. -/
example : (Matcher.perl.read Char.isAlphanum Char.isWhitespace (fun _ => none) "(a|\\bfoo{2,})+[^x-z]*$".toList).isSome ∧
    (Matcher.extended.read Char.isAlphanum Char.isWhitespace (fun _ => none) "(a|\\bfoo{2,})+[^x-z]*$".toList).isSome ∧
    (Rust.read Char.isAlphanum Char.isWhitespace (fun _ => none) "(a|\\bfoo{2,})+[^x-z]*$".toList).isSome := by
  refine ⟨?_, ?_, ?_⟩ <;> rfl

end CodeGraph.Plugin.Patterns
