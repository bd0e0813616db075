import CodeGraph.Plugin.Patterns
import CodeGraph.Plugin.Dialects
import Mathlib.Data.List.TakeWhile
import Mathlib.Tactic.SplitIfs

/-!
# What a translated pattern means

The translation writes the tokens of a basic pattern as tokens of rust, and keeps `^`, `$` and quantifiers to the places
where both dialects read them alike (`Guarded`). The readings of such tokens run alike (`Reading.Alike`), but for the
`?` behind a quantifier: there the basic reading has one option more (`Reading.Pending`), until the next `?`.
-/

namespace CodeGraph.Plugin.Patterns

open CodeGraph.Lib
open CodeGraph.Pipeline.InFlight (isWhitespace)

variable {word space : Char → Bool} {w : List Char} {ts : List Token} {t : Token} {q : Quantifier}
  {altStart assertion atEnd : Bool}

/-! ### Tokens read alike -/

/-- An assertion about words. -/
def boundary (t : Token) : Bool := t ∈ [Token.escape 'b', .escape 'B', .escape '<', .escape '>']

/-- The tokens have `^` only where an alternative starts, `$` only where one ends, and no quantifier behind an
assertion. -/
def Guarded : Bool → Bool → List Token → Prop
  | _, _, [] => True
  | altStart, assertion, t :: ts =>
    (t = .hat → altStart = true) ∧ (t = .dollar → Reading.ends ts = true) ∧ (∀ q, t = .quant q → assertion = false) ∧
      Guarded (t = .opened ∨ t = .bar) (t = .hat ∨ boundary t) ts

/-- No quantifier that asks for a match is followed by exactly one `?`. -/
def Greedy : List Token → Prop
  | .quant q :: .quant .opt :: ts => (0 < q.least → ts.head? = some (.quant .opt)) ∧ Greedy (.quant .opt :: ts)
  | _ :: ts => Greedy ts
  | [] => True

theorem Greedy.tail (h : Greedy (t :: ts)) : Greedy ts := by
  unfold Greedy at h
  split at h
  case h_1 heq =>
    obtain ⟨-, rfl⟩ := List.cons.inj heq
    exact h.2
  case h_2 heq =>
    obtain ⟨-, rfl⟩ := List.cons.inj heq
    exact h
  case h_3 heq => cases heq

structure Group.Alike (w : List Char) (g g' : Group) : Prop where
  alternatives : List.Forall₂ (Re.Same w) g.alternatives g'.alternatives
  pieces : List.Forall₂ (Re.Same w) g.pieces g'.pieces

theorem Group.Alike.re {g g' : Group} (h : g.Alike w g') : Re.Same w g.re g'.re :=
  .altAll h.alternatives (.seqAll h.pieces)

/-- A basic reading and one of rust that mean the same so far. After a lazy quantifier rust takes a `?` for an option. -/
structure Reading.Alike (w : List Char) (s s' : Reading) : Prop where
  outer : List.Forall₂ (Group.Alike w) s.outer s'.outer
  inner : s.inner.Alike w s'.inner
  last : s.last = s'.last ∨ s.last = .repeated ∧ s'.last = .piece

/-- The basic reading has an option on the last piece. -/
structure Reading.Pending (w : List Char) (s s' : Reading) : Prop where
  outer : List.Forall₂ (Group.Alike w) s.outer s'.outer
  alternatives : List.Forall₂ (Re.Same w) s.inner.alternatives s'.inner.alternatives
  pieces : ∃ r r' rest rest', s.inner.pieces = .rep r 0 (some 1) :: rest ∧ s'.inner.pieces = r' :: rest' ∧
    Re.Same w r r' ∧ List.Forall₂ (Re.Same w) rest rest'
  last : s.last = .repeated
  last' : s'.last = .piece

namespace Reading

variable {s s' u' : Reading} {r r' : Re Char} {last : Last}

theorem Alike.push (h : Alike w s s') (hr : Re.Same w r r') : Alike w (s.push r last) (s'.push r' last) :=
  ⟨h.outer, ⟨h.inner.alternatives, .cons hr h.inner.pieces⟩, .inl rfl⟩

theorem Alike.last_start (h : Alike w s s') (hstart : s'.last = .start) : s.last = .start := by
  rcases h.last with hlast | ⟨-, hpiece⟩
  · exact hlast.trans hstart
  · rw [hstart] at hpiece
    cases hpiece

/-- A token that is no quantifier, where both dialects read it alike. -/
theorem Alike.step (hw : '\n' ∉ w) (h : Alike w s s') (ht : ∀ q, t ≠ .quant q) (hhat : t = .hat → s'.last = .start)
    (hdollar : t = .dollar → atEnd = true) (hstep : s'.step word space .rust atEnd t = some u') :
    ∃ u, s.step word space .basic atEnd t = some u ∧ Alike w u u' := by
  -- but for a dot and the places of `^` and `$`, both dialects read a token alike
  cases t with
  | lit c =>
    cases hstep
    exact ⟨_, rfl, h.push (.refl _)⟩
  | escape n =>
    cases hstep
    exact ⟨_, rfl, h.push (.refl _)⟩
  | any =>
    cases hstep
    refine ⟨_, rfl, h.push (Re.same_one fun a ha => ?_)⟩
    have hne : a ≠ '\n' := fun heq => hw (heq ▸ ha)
    simp [hne]
  | members negated ranges =>
    cases hstep
    exact ⟨_, rfl, h.push (.refl _)⟩
  | hat =>
    cases hstep
    refine ⟨_, if_neg fun hboth => hboth.2 (h.last_start (hhat rfl)), h.push (.refl _)⟩
  | dollar =>
    cases hstep
    refine ⟨_, if_neg fun hboth => hboth.2 (hdollar rfl), h.push (.refl _)⟩
  | bar =>
    cases hstep
    exact ⟨_, rfl, h.outer, ⟨.cons (.seqAll h.inner.pieces) h.inner.alternatives, .nil⟩, .inl rfl⟩
  | opened =>
    cases hstep
    exact ⟨_, rfl, .cons h.inner h.outer, ⟨.nil, .nil⟩, .inl rfl⟩
  -- the groups around are alike, so both close one or neither does
  | closed =>
    unfold Reading.step at hstep ⊢
    dsimp only at hstep ⊢
    cases hs : s.outer with
    | nil =>
      have houter := h.outer
      rw [hs] at houter
      cases hs' : s'.outer with
      | nil =>
        rw [hs'] at hstep
        cases hstep
      | cons g' outer' =>
        rw [hs'] at houter
        cases houter
    | cons g outer =>
      have houter := h.outer
      rw [hs] at houter
      cases hs' : s'.outer with
      | nil =>
        rw [hs'] at hstep
        cases hstep
      | cons g' outer' =>
        rw [hs'] at houter hstep
        cases houter with
        | cons hg hrest =>
          cases hstep
          have halike : Alike w ⟨outer, g, .piece⟩ ⟨outer', g', .piece⟩ := ⟨hrest, hg, .inl rfl⟩
          exact ⟨_, rfl, halike.push h.inner.re⟩
  | quant q => exact absurd rfl (ht q)
  | beyond => cases hstep

/-- How the open alternative ends after a token that is no quantifier. -/
theorem last_step (ht : ∀ q, t ≠ .quant q) (hstep : s'.step word space .rust atEnd t = some u') :
    u'.last = if t = .hat then .hat else if t = .opened ∨ t = .bar then .start else .piece := by
  cases t with
  | closed =>
    unfold Reading.step at hstep
    dsimp only at hstep
    split at hstep
    · cases hstep
    · cases hstep
      rfl
  | quant q => exact absurd rfl (ht q)
  | beyond => cases hstep
  | _ =>
    cases hstep
    rfl

theorem Alike.repeatLast (h : Alike w s s') (hstep : s'.repeatLast q = some u') :
    ∃ u, s.repeatLast q = some u ∧ Alike w u u' ∧ u'.last = .repeated ∧
      ∃ r rest, u'.inner.pieces = .rep r q.least q.most :: rest := by
  unfold Reading.repeatLast at hstep ⊢
  have hpieces := h.inner.pieces
  cases hs' : s'.inner.pieces with
  | nil =>
    rw [hs'] at hstep
    cases hstep
  | cons r' rest' =>
    rw [hs'] at hstep hpieces
    cases hs : s.inner.pieces with
    | nil =>
      rw [hs] at hpieces
      cases hpieces
    | cons r rest =>
      rw [hs] at hpieces
      cases hpieces with
      | cons hr hrest =>
        cases hstep
        exact ⟨_, rfl, ⟨h.outer, ⟨h.inner.alternatives, .cons hr.rep hrest⟩, .inl rfl⟩, rfl, r', rest', rfl⟩

/-- A reading of rust that ends with a quantifier: the piece may be left out, or the tokens to come begin with no `?` or
with more than one. -/
def Ready (w : List Char) (s' : Reading) (ts : List Token) : Prop :=
  s'.last = .repeated → ∃ r rest, s'.inner.pieces = r :: rest ∧
    ((∀ i, r.between w i i) ∨ ∀ rest, ts = .quant .opt :: rest → rest.head? = some (.quant .opt))

/-- The readings in step with each other. -/
def Together (w : List Char) (s s' : Reading) (ts : List Token) : Prop :=
  Alike w s s' ∧ Ready w s' ts ∨ Pending w s s' ∧ ts.head? = some (.quant .opt)

theorem ready_of_repeat {r : Re Char} {rest : List (Re Char)} (hgreedy : Greedy (.quant q :: ts))
    (hpieces : u'.inner.pieces = .rep r q.least q.most :: rest) : Ready w u' ts := by
  refine fun _ => ⟨_, _, hpieces, ?_⟩
  by_cases hleast : q.least = 0
  · exact .inl fun i => Re.between_refl hleast
  · refine .inr ?_
    rintro rest rfl
    exact hgreedy.1 (Nat.pos_of_ne_zero hleast)

theorem quantify_basic (h : s.last = .piece ∨ s.last = .repeated) : s.quantify .basic q = s.repeatLast q := by
  unfold Reading.quantify
  rcases h with h | h
  · rw [h]
  · rw [h]

theorem Alike.together (h : Alike w s s') (hgreedy : Greedy (.quant q :: ts)) (hstep : s'.repeatLast q = some u') :
    ∃ u, s.repeatLast q = some u ∧ Together w u u' ts ∧ u'.last = .repeated := by
  obtain ⟨u, hu, halike, hlast, r, rest, hpieces⟩ := h.repeatLast hstep
  exact ⟨u, hu, .inl ⟨halike, ready_of_repeat hgreedy hpieces⟩, hlast⟩

/-- The `?` that makes a quantifier lazy in rust is an option in a basic expression. -/
theorem Alike.lazy (h : Alike w s s') (hready : Ready w s' (.quant .opt :: ts)) (hlast : s'.last = .repeated) :
    ∃ u, s.repeatLast .opt = some u ∧ Together w u { s' with last := .piece } ts := by
  obtain ⟨r', rest', hs', hcase⟩ := hready hlast
  have hpieces := h.inner.pieces
  rw [hs'] at hpieces
  obtain ⟨r, rest, hr, hrest, hs⟩ : ∃ r rest, Re.Same w r r' ∧ List.Forall₂ (Re.Same w) rest rest' ∧
      s.inner.pieces = r :: rest := by
    obtain ⟨r, rest, hr, hrest, hs⟩ := List.forall₂_cons_right_iff.mp hpieces
    exact ⟨r, rest, hr, hrest, hs⟩
  unfold Reading.repeatLast
  rw [hs]
  refine ⟨_, rfl, ?_⟩
  rcases hcase with hrefl | hnext
  · -- the option adds nothing
    have hsame : Re.Same w (.rep r 0 (some 1)) r' :=
      (Re.same_opt_of_refl fun i => by rw [hr]; exact hrefl i).trans hr
    refine .inl ⟨⟨h.outer, ⟨h.inner.alternatives, ?_⟩, .inr ⟨rfl, rfl⟩⟩, fun hpiece => nomatch hpiece⟩
    show List.Forall₂ (Re.Same w) (_ :: rest) s'.inner.pieces
    rw [hs']
    exact .cons hsame hrest
  · exact .inr ⟨⟨h.outer, h.inner.alternatives, ⟨r, r', rest, rest', rfl, hs', hr, hrest⟩, rfl, rfl⟩, hnext ts rfl⟩

theorem Pending.together (h : Pending w s s') (hstep : s'.repeatLast .opt = some u') :
    ∃ u, s.repeatLast .opt = some u ∧ Together w u u' ts ∧ u'.last = .repeated := by
  obtain ⟨r, r', rest, rest', hs, hs', hr, hrest⟩ := h.pieces
  unfold Reading.repeatLast at hstep ⊢
  rw [hs'] at hstep
  rw [hs]
  cases hstep
  have hsame : Re.Same w (.rep (.rep r 0 (some 1)) 0 (some 1)) (.rep r' 0 (some 1)) := Re.same_opt_opt.trans hr.rep
  refine ⟨_, rfl, .inl ⟨⟨h.outer, ⟨h.alternatives, .cons hsame hrest⟩, .inl rfl⟩, fun _ => ?_⟩, rfl⟩
  exact ⟨_, _, rfl, .inl fun i => Re.between_refl rfl⟩

/-- A quantifier, where both dialects take it for one. -/
theorem Together.quantify (h : Together w s s' (.quant q :: ts)) (hgreedy : Greedy (.quant q :: ts))
    (hlast : s'.last ≠ .hat) (hstep : s'.quantify .rust q = some u') :
    ∃ u, s.quantify .basic q = some u ∧ Together w u u' ts ∧ u'.last ≠ .start ∧ u'.last ≠ .hat := by
  have hrepeated : ∀ {l : Last}, l = .repeated → l ≠ .start ∧ l ≠ .hat := by
    rintro l rfl
    exact ⟨(nomatch ·), (nomatch ·)⟩
  unfold Reading.quantify at hstep
  -- the readings are alike, or the basic one is a question mark behind
  rcases h with ⟨halike, hready⟩ | ⟨hpending, hhead⟩
  · cases hs' : s'.last with
    | start =>
      rw [hs'] at hstep
      cases hstep
    | hat => exact absurd hs' hlast
    | piece =>
      rw [hs'] at hstep
      have hbasic : s.last = .piece ∨ s.last = .repeated := halike.last.imp (·.trans hs') And.left
      rw [quantify_basic hbasic]
      obtain ⟨u, hu, htogether, hu'⟩ := halike.together hgreedy hstep
      exact ⟨u, hu, htogether, hrepeated hu'⟩
    | repeated =>
      rw [hs'] at hstep
      have hbasic : s.last = .repeated := by
        rcases halike.last with hsame | ⟨hs, -⟩
        · exact hsame.trans hs'
        · exact hs
      rw [quantify_basic (.inr hbasic)]
      dsimp only at hstep
      split_ifs at hstep with hopt
      · subst hopt
        cases hstep
        obtain ⟨u, hu, htogether⟩ := halike.lazy hready hs'
        exact ⟨u, hu, htogether, (nomatch ·), (nomatch ·)⟩
      · obtain ⟨u, hu, htogether, hu'⟩ := halike.together hgreedy hstep
        exact ⟨u, hu, htogether, hrepeated hu'⟩
  · obtain rfl : q = .opt := by
      rw [List.head?_cons, Option.some_inj] at hhead
      cases hhead
      rfl
    rw [hpending.last'] at hstep
    rw [quantify_basic (.inr hpending.last)]
    obtain ⟨u, hu, htogether, hu'⟩ := hpending.together hstep
    exact ⟨u, hu, htogether, hrepeated hu'⟩

/-- Where rust reads guarded and greedy tokens, a basic reading of them gives an expression with the same meaning. -/
theorem read_alike (hw : '\n' ∉ w) (hguarded : Guarded altStart assertion ts) (hgreedy : Greedy ts)
    (h : Together w s s' ts) (hstart : altStart = true → s'.last = .start)
    (hhat : s'.last = .hat → assertion = true) {rust : Re Char}
    (hread : s'.read word space .rust ts = some rust) :
    ∃ basic, s.read word space .basic ts = some basic ∧ Re.Same w basic rust := by
  -- the induction is on the tokens; what is guarded for one step is guarded for the rest
  induction ts generalizing s s' altStart assertion with
  | nil =>
    rcases h with ⟨halike, -⟩ | ⟨-, hhead⟩
    · unfold Reading.read at hread ⊢
      have houter : s.outer.isEmpty = s'.outer.isEmpty := by
        rw [Bool.eq_iff_iff, List.isEmpty_iff_length_eq_zero, List.isEmpty_iff_length_eq_zero, halike.outer.length_eq]
      rw [houter]
      split_ifs at hread ⊢
      cases hread
      exact ⟨_, rfl, halike.inner.re⟩
    · cases hhead
  | cons t ts ih =>
    obtain ⟨hhat', hdollar, hquant, hrest⟩ := hguarded
    unfold Reading.read at hread ⊢
    rw [Option.bind_eq_some_iff] at hread
    obtain ⟨u', hstep, hread⟩ := hread
    -- a quantifier may leave the readings a step apart, and any other token needs them alike
    by_cases ht : ∃ q, t = .quant q
    · obtain ⟨q, rfl⟩ := ht
      have hlast : s'.last ≠ .hat := fun heq => Bool.false_ne_true ((hquant q rfl).symm.trans (hhat heq))
      obtain ⟨u, hu, htogether, hnstart, hnhat⟩ := h.quantify hgreedy hlast hstep
      obtain ⟨basic, hbasic, hsame⟩ := ih hrest hgreedy.tail htogether (fun hopens => by simp at hopens)
        (fun heq => absurd heq hnhat) hread
      exact ⟨basic, Option.bind_eq_some_iff.mpr ⟨u, hu, hbasic⟩, hsame⟩
    · push Not at ht
      rcases h with ⟨halike, -⟩ | ⟨-, hhead⟩
      · obtain ⟨u, hu, halike'⟩ := halike.step hw ht (fun heq => hstart (hhat' heq)) hdollar hstep
        have hlast := last_step ht hstep
        have hready : Ready w u' ts := fun hrepeated => by
          rw [hrepeated] at hlast
          split_ifs at hlast
        have hstart' : decide (t = .opened ∨ t = .bar) = true → u'.last = .start := fun hopens => by
          rw [decide_eq_true_iff] at hopens
          rw [hlast, if_neg (by rintro rfl; simp at hopens), if_pos hopens]
        have hhat'' : u'.last = .hat → decide (t = .hat ∨ boundary t = true) = true := fun heq => by
          rw [heq] at hlast
          split_ifs at hlast with hhat
          simp [hhat]
        obtain ⟨basic, hbasic, hsame⟩ :=
          ih hrest hgreedy.tail (.inl ⟨halike', hready⟩) hstart' hhat'' hread
        exact ⟨basic, Option.bind_eq_some_iff.mpr ⟨u, hu, hbasic⟩, hsame⟩
      · rw [List.head?_cons, Option.some_inj] at hhead
        exact absurd hhead (ht _)

end Reading

/-! ### Cutting and scanning -/

section Scan

variable {token : Char → List Char → Option (Token × ℕ)} {s s' : Scan} {c n : Char} {rest r : List Char} {k : ℕ}

theorem cut_drop (k : ℕ) (rest : List Char) : cut token k rest = cut token 0 (rest.drop k) := by
  induction k generalizing rest with
  | zero => rfl
  | succ k ih =>
    cases rest with
    | nil => rfl
    | cons c rest => exact ih rest

theorem scanLoop_drop (k : ℕ) (s : Scan) (rest : List Char) : scanLoop k s rest = scanLoop 0 s (rest.drop k) := by
  induction k generalizing rest with
  | zero => rfl
  | succ k ih =>
    cases rest with
    | nil => rfl
    | cons c rest => exact ih rest

/-- A known first token, and the tokens behind it. -/
theorem cut_cons_eq_some (ht : token c rest = some (t, k)) (hknown : t ≠ .beyond) :
    cut token 0 (c :: rest) = (cut token 0 (rest.drop k)).map (t :: ·) := by
  rw [cut, ht, Option.bind_some]
  dsimp only
  rw [if_neg hknown, cut_drop]

/-- One turn of the loop: an escape, a bracket, or another character. -/
theorem scanLoop_cons (h : scanLoop 0 s (c :: rest) = some r) :
    (c = '\\' ∧ ∃ n after s', rest = n :: after ∧ scanEscape s n after = some s' ∧ scanLoop 0 s' after = some r) ∨
    (c = '[' ∧ ∃ k, bracketEnd rest = some k ∧
      scanLoop 0 ⟨s.out ++ '[' :: rest.take (k + 1), false, false, false⟩ (rest.drop (k + 1)) = some r) ∨
    (c ≠ '[' ∧ (c = '\\' → rest = []) ∧ ∃ s', scanChar s c rest = some s' ∧ scanLoop 0 s' rest = some r) := by
  rw [scanLoop] at h
  -- a backslash at the end is a character of its own
  by_cases hc : c = '\\'
  · rw [if_pos hc] at h
    cases rest with
    | nil =>
      have hbracket : c ≠ '[' := by rw [hc]; decide
      rw [List.head?_nil] at h
      dsimp only at h
      rw [if_neg hbracket, Option.bind_eq_some_iff] at h
      exact .inr (.inr ⟨hbracket, fun _ => rfl, h⟩)
    | cons n after =>
      rw [List.head?_cons] at h
      dsimp only [List.tail_cons] at h
      rw [Option.bind_eq_some_iff] at h
      obtain ⟨s', hs', hloop⟩ := h
      rw [scanLoop_drop] at hloop
      exact .inl ⟨hc, n, after, s', rfl, hs', hloop⟩
  · rw [if_neg hc] at h
    dsimp only at h
    split_ifs at h with hbracket
    · rw [Option.bind_eq_some_iff] at h
      obtain ⟨k, hk, hloop⟩ := h
      rw [scanLoop_drop] at hloop
      exact .inr (.inl ⟨hbracket, k, hk, hloop⟩)
    · rw [Option.bind_eq_some_iff] at h
      exact .inr (.inr ⟨hbracket, fun heq => absurd heq hc, h⟩)

/-- What an escape writes. -/
def escapeText (n : Char) : List Char := if n ∈ breSwapped then [n] else ['\\', n]

theorem scanEscape_eq_some (h : scanEscape s n rest = some s') :
    s' = ⟨s.out ++ escapeText n, n = '(' ∨ n = '|', false, n ∈ ['b', 'B', '<', '>']⟩ ∧
      (n ∈ breSwapped ∨ n ∈ breSameEscape) ∧ (n ∈ ['+', '?', '{'] → s.assertion = false) := by
  unfold scanEscape at h
  split_ifs at h with hempty hassert hswapped hsame
  all_goals rw [Option.map_eq_some_iff] at h; obtain ⟨out, hout, rfl⟩ := h
  · cases hout
    have hguard : n ∈ ['+', '?', '{'] → s.assertion = false := fun hn =>
      Bool.eq_false_iff.mpr fun hassertion => hassert ⟨hassertion, hn⟩
    exact ⟨by rw [escapeText, if_pos hswapped], .inl hswapped, hguard⟩
  · cases hout
    have hguard : n ∈ ['+', '?', '{'] → s.assertion = false := fun hn =>
      Bool.eq_false_iff.mpr fun hassertion => hassert ⟨hassertion, hn⟩
    exact ⟨by rw [escapeText, if_neg hswapped], .inr hsame, hguard⟩
  · cases hout

/-- What another character writes. -/
def charText (c : Char) : List Char := if c ∈ breSwapped then ['\\', c] else [c]

theorem scanChar_eq_some (h : scanChar s c rest = some s') :
    s' = ⟨s.out ++ charText c, false, c = '^', c = '^'⟩ ∧ (c = '*' → s.assertion = false) ∧
      (c = '^' → s.altStart = true) ∧ (c = '$' → endsAlternative rest = true) := by
  unfold scanChar at h
  dsimp only at h
  split_ifs at h with hstar hhat hleading hdollar hswapped
  all_goals
    have hanchor : decide (c = '^' ∧ s.altStart = true) = decide (c = '^') := by
      rw [decide_eq_decide]
      exact ⟨And.left, fun hc => ⟨hc, by_contra fun halt => hhat ⟨hc, halt⟩⟩⟩
    rw [hanchor, Option.some_inj] at h
    refine ⟨?_, fun hc => Bool.eq_false_iff.mpr fun hs => hstar ⟨hc, hs⟩,
      fun hc => by_contra fun halt => hhat ⟨hc, halt⟩, fun hc => by_contra fun hends => hdollar ⟨hc, hends⟩⟩
  · rw [← h, charText, if_pos hswapped]
  · rw [← h, charText, if_neg hswapped]

/-- The translation of what is left stands behind what is written. -/
theorem out_prefix (h : scanLoop 0 s rest = some r) : s.out <+: r := by
  suffices hlength : ∀ (n : ℕ) {s : Scan} {rest : List Char}, rest.length ≤ n → scanLoop 0 s rest = some r → s.out <+: r
    from hlength _ (Nat.le_refl _) h
  intro n
  induction n with
  | zero =>
    intro s rest hn h
    obtain rfl := List.length_eq_zero_iff.mp (Nat.le_zero.mp hn)
    cases h
    exact List.prefix_rfl
  | succ n ih =>
    intro s rest hn h
    cases rest with
    | nil =>
      cases h
      exact List.prefix_rfl
    | cons c rest =>
      rw [List.length_cons, Nat.succ_le_succ_iff] at hn
      obtain ⟨-, n, after, s', rfl, hs', hloop⟩ | ⟨-, k, -, hloop⟩ | ⟨-, -, s', hs', hloop⟩ := scanLoop_cons h
      · rw [List.length_cons] at hn
        have hout := ih (by omega) hloop
        rw [(scanEscape_eq_some hs').1] at hout
        exact (List.prefix_append _ _).trans hout
      · have hout := ih (by rw [List.length_drop]; omega) hloop
        exact (List.prefix_append _ _).trans hout
      · have hout := ih hn hloop
        rw [(scanChar_eq_some hs').1] at hout
        exact (List.prefix_append _ _).trans hout

/-- Where the translation goes on with a swapped character, the pattern goes on with its escape. -/
theorem head_of_scan (h : scanLoop 0 s rest = some (s.out ++ c :: r)) (hc : c ∈ breSwapped) :
    ∃ after, rest = '\\' :: c :: after := by
  have hhead : ∀ {x : Char} {l : List Char}, s.out ++ x :: l <+: s.out ++ c :: r → x = c := by
    intro x l hpre
    exact (List.cons_prefix_cons.mp ((List.prefix_append_right_inj _).mp hpre)).1
  cases rest with
  | nil =>
    have hlength := congrArg List.length (Option.some_inj.mp h)
    rw [List.length_append, List.length_cons] at hlength
    omega
  | cons x rest =>
    obtain ⟨rfl, n, after, s', rfl, hs', hloop⟩ | ⟨-, k, -, hloop⟩ | ⟨-, -, s', hs', hloop⟩ := scanLoop_cons h
    · have hout := out_prefix hloop
      rw [(scanEscape_eq_some hs').1] at hout
      dsimp only [escapeText] at hout
      split_ifs at hout with hswapped
      · exact ⟨after, by rw [hhead hout]⟩
      · rw [← hhead hout] at hc
        exact absurd hc (by decide)
    · have hout := out_prefix hloop
      rw [← hhead hout] at hc
      exact absurd hc (by decide)
    · have hout := out_prefix hloop
      rw [(scanChar_eq_some hs').1] at hout
      dsimp only [charText] at hout
      split_ifs at hout with hswapped
      · rw [← hhead hout] at hc
        exact absurd hc (by decide)
      · rw [hhead hout] at hswapped
        exact absurd hc hswapped

/-! ### Brackets -/

/-- A bracket that both dialects read alike. -/
structure SameBracket (chars : List Char) : Prop where
  close : ']' ∉ chars
  escape : '\\' ∉ chars
  opens : '[' ∉ chars
  doubled : Rust.doubled chars = false

theorem bracketLoop_eq_some (h : bracketLoop rest = some k) :
    ∃ chars tail, rest = chars ++ ']' :: tail ∧ chars.length = k ∧ SameBracket chars := by
  induction rest generalizing k with
  | nil => cases h
  | cons c rest ih =>
    rw [bracketLoop] at h
    split_ifs at h with hclose hbad hdoubled
    · cases h
      exact ⟨[], rest, by rw [hclose]; rfl, rfl, by simp, by simp, by simp, rfl⟩
    · obtain ⟨k, hk, rfl⟩ := Option.map_eq_some_iff.mp h
      obtain ⟨chars, tail, rfl, rfl, hsame⟩ := ih hk
      push Not at hbad
      refine ⟨c :: chars, tail, rfl, rfl, ?_, ?_, ?_, ?_⟩
      · rw [List.mem_cons, not_or]
        exact ⟨fun heq => hclose heq.symm, hsame.close⟩
      · rw [List.mem_cons, not_or]
        exact ⟨fun heq => hbad.1 heq.symm, hsame.escape⟩
      · rw [List.mem_cons, not_or]
        exact ⟨fun heq => hbad.2 heq.symm, hsame.opens⟩
      · cases chars with
        | nil => rfl
        | cons a chars =>
          rw [Rust.doubled, hsame.doubled, decide_eq_false_iff_not]
          rintro (⟨hmem, rfl⟩ | hfalse)
          · exact hdoubled ⟨hmem, rfl⟩
          · cases hfalse

theorem bracketMembers_eq {chars : List Char} (hclose : ']' ∉ chars) (hne : chars ≠ []) (tail : List Char) :
    bracketMembers (chars ++ ']' :: tail) = some (chars, chars.length + 1) := by
  obtain ⟨c, more, rfl⟩ := List.exists_cons_of_ne_nil hne
  have hmore : (more ++ ']' :: tail).takeWhile (· ≠ ']') = more := by
    have hkeep : ∀ x ∈ more, decide (x ≠ ']') = true := fun x hx =>
      decide_eq_true fun heq => hclose (heq ▸ List.mem_cons_of_mem c hx)
    rw [List.takeWhile_append_of_pos hkeep, List.takeWhile_cons_of_neg (by decide), List.append_nil]
  have hlength : more.length ≠ (more ++ ']' :: tail).length := by
    rw [List.length_append, List.length_cons]
    omega
  rw [List.cons_append, bracketMembers, hmore, if_neg hlength]
  rfl

theorem take_close {chars : List Char} (tail : List Char) :
    (chars ++ ']' :: tail).take (chars.length + 1) = chars ++ [']'] := by
  rw [List.take_append, List.take_of_length_le (Nat.le_succ _), Nat.add_sub_cancel_left]
  rfl

/-- A bracket that is copied has the same parts whatever is behind it, and members that rust reads alike. -/
theorem bracketParts_of_bracketEnd (h : bracketEnd rest = some k) : ∃ negated chars tail,
    rest = rest.take (k + 1) ++ tail ∧ (rest.take (k + 1)).length = k + 1 ∧ SameBracket chars ∧
      ∀ tail, bracketParts (rest.take (k + 1) ++ tail) = some (negated, chars, k + 1) := by
  unfold bracketEnd at h
  dsimp only at h
  -- a bracket that begins with `^` is read from the character behind it
  by_cases hhat : rest.head? = some '^'
  · obtain ⟨body, rfl⟩ := List.head?_eq_some_iff.mp hhat
    rw [if_pos hhat, List.drop_one, List.tail_cons] at h
    split_ifs at h with hfirst
    obtain ⟨k, hk, rfl⟩ := Option.map_eq_some_iff.mp h
    obtain ⟨chars, tail, rfl, rfl, hsame⟩ := bracketLoop_eq_some hk
    have hne : chars ≠ [] := by
      rintro rfl
      exact hfirst rfl
    have htake : ('^' :: (chars ++ ']' :: tail)).take (1 + chars.length + 1) = '^' :: chars ++ [']'] := by
      rw [Nat.add_comm 1, List.take_succ_cons, take_close]
      rfl
    rw [htake]
    refine ⟨true, chars, tail, by simp, by simp [Nat.add_comm], hsame, fun tail => ?_⟩
    show bracketParts ('^' :: (chars ++ [']'] ++ tail)) = _
    rw [bracketParts, if_pos (show ('^' :: (chars ++ [']'] ++ tail)).head? = some '^' from rfl), List.tail_cons,
      List.append_assoc]
    show (bracketMembers (chars ++ ']' :: tail)).map _ = _
    rw [bracketMembers_eq hsame.close hne]
    show some (true, chars, chars.length + 1 + 1) = some (true, chars, 1 + chars.length + 1)
    rw [Nat.add_comm 1]
  · rw [if_neg hhat, List.drop_zero] at h
    split_ifs at h with hfirst
    obtain ⟨k, hk, rfl⟩ := Option.map_eq_some_iff.mp h
    obtain ⟨chars, tail, rfl, rfl, hsame⟩ := bracketLoop_eq_some hk
    have hne : chars ≠ [] := by
      rintro rfl
      exact hfirst rfl
    rw [Nat.zero_add, take_close]
    refine ⟨false, chars, tail, by simp, by simp, hsame, fun tail' => ?_⟩
    obtain ⟨c, more, rfl⟩ := List.exists_cons_of_ne_nil hne
    have hhat' : ¬(c :: more ++ [']'] ++ tail').head? = some '^' := hhat
    rw [bracketParts, if_neg hhat', List.append_assoc]
    show (bracketMembers (c :: more ++ ']' :: tail')).map _ = _
    rw [bracketMembers_eq hsame.close hne]
    rfl

/-- A bracket that is copied: both dialects find the same token in it. -/
theorem bracket_of_bracketEnd {j : ℕ} (h : bracketEnd rest = some k) (hts : Basic.bracket rest = some (t, j)) :
    j = k + 1 ∧ (∃ negated l, t = .members negated l) ∧ (rest.take (k + 1)).length = k + 1 ∧
      ∀ tail, Rust.bracket (rest.take (k + 1) ++ tail) = some (t, k + 1) := by
  obtain ⟨negated, chars, tail, hrest, hlength, hsame, hparts⟩ := bracketParts_of_bracketEnd h
  -- a bracket that ends at the first `]` has no `[` in it, and so no class
  have hclasses : ([['[', ':'], ['[', '.'], ['[', '=']].any (· <:+: chars)) = false := by
    rw [List.any_eq_false]
    intro l hl hin
    rw [decide_eq_true_iff] at hin
    have hopens : '[' ∈ l := by
      revert hl
      simp only [List.mem_cons, List.not_mem_nil, or_false]
      rintro (rfl | rfl | rfl) <;> exact List.mem_cons_self
    exact hsame.opens (hin.subset hopens)
  have hbad : ¬('\\' ∈ chars ∨ '[' ∈ chars ∨ Rust.doubled chars = true) := by
    rw [hsame.doubled]
    rintro (hbad | hbad | hbad)
    · exact hsame.escape hbad
    · exact hsame.opens hbad
    · cases hbad
  unfold Basic.bracket at hts
  rw [hrest, hparts, Option.bind_some] at hts
  dsimp only at hts
  rw [hclasses, if_neg Bool.false_ne_true, Option.map_eq_some_iff] at hts
  obtain ⟨l, hl, heq⟩ := hts
  cases heq
  refine ⟨rfl, ⟨negated, l, rfl⟩, hlength, fun tail' => ?_⟩
  unfold Rust.bracket
  rw [hparts, Option.bind_some]
  dsimp only
  rw [if_neg hbad, hl]
  rfl

/-! ### Counts -/

theorem not_isWhitespace_of_digit (h : digit c = true) : isWhitespace c = false := by
  unfold digit at h
  rw [decide_eq_true_iff] at h
  unfold isWhitespace
  simp only [Bool.or_eq_false_iff, Bool.and_eq_false_iff, decide_eq_false_iff_not, beq_eq_false_iff_ne]
  omega

theorem decimal_append {digits : List Char} (hdigits : ∀ c ∈ digits, digit c = true) (hc : digit c = false)
    (hblank : isWhitespace c = false) : Rust.decimal (digits ++ c :: r) = (digits, c :: r) := by
  have hstart : (digits ++ c :: r).dropWhile isWhitespace = digits ++ c :: r := by
    cases digits with
    | nil => exact List.dropWhile_cons_of_neg (Bool.eq_false_iff.mp hblank)
    | cons d digits =>
      have hd := not_isWhitespace_of_digit (hdigits d List.mem_cons_self)
      exact List.dropWhile_cons_of_neg (Bool.eq_false_iff.mp hd)
  have hnot : ¬digit c = true := Bool.eq_false_iff.mp hc
  unfold Rust.decimal
  dsimp only
  rw [hstart, List.takeWhile_append_of_pos hdigits, List.takeWhile_cons_of_neg hnot, List.append_nil,
    List.dropWhile_append_of_pos hdigits, List.dropWhile_cons_of_neg hnot,
    List.dropWhile_cons_of_neg (Bool.eq_false_iff.mp hblank)]

/-- A count of a basic expression that rust takes at all has the same bounds there. -/
theorem count_of_basic {j : ℕ} (h : Basic.count rest = some (q, j)) : ∃ text tail,
    rest = text ++ '\\' :: '}' :: tail ∧ j = text.length + 2 ∧ (∀ c ∈ text, digit c = true ∨ c = ',') ∧
      ∀ r, Rust.countAndRest (text ++ '}' :: r) = none ∨ Rust.countAndRest (text ++ '}' :: r) = some (q, r) := by
  have hsplit : rest = rest.takeWhile digit ++ rest.dropWhile digit := List.takeWhile_append_dropWhile.symm
  have hdigits : ∀ {l : List Char}, ∀ c ∈ l.takeWhile digit, digit c = true := fun c hc => List.mem_takeWhile_imp hc
  have hclosing : ∀ {l : List Char} (r : List Char), (∀ c ∈ l, digit c = true) →
      Rust.decimal (l ++ '}' :: r) = (l, '}' :: r) := fun r hl => decimal_append hl (by decide) (by decide)
  unfold Basic.count at h
  dsimp only at h
  generalize hleast : rest.takeWhile digit = least at h hsplit
  generalize hbehind : rest.dropWhile digit = behind at h hsplit
  have hd : ∀ c ∈ least, digit c = true := hleast ▸ hdigits
  split at h
  case h_1 tail =>
    split_ifs at h with hne
    cases h
    refine ⟨least, tail, hsplit, rfl, fun c hc => .inl (hd c hc), fun r => .inr ?_⟩
    unfold Rust.countAndRest
    rw [hclosing r hd]
    dsimp only
    rw [if_neg hne]
    rfl
  case h_2 behind' =>
    split at h
    case h_1 tail hclose =>
      have hsplit' : behind' = behind'.takeWhile digit ++ '\\' :: '}' :: tail :=
        hclose ▸ List.takeWhile_append_dropWhile.symm
      have hd' : ∀ c ∈ behind'.takeWhile digit, digit c = true := hdigits
      generalize behind'.takeWhile digit = most at h hsplit' hd'
      obtain ⟨q, hq, heq⟩ := Option.map_eq_some_iff.mp h
      cases heq
      refine ⟨least ++ ',' :: most, tail, by rw [hsplit, hsplit', List.append_assoc]; rfl, ?_, ?_, fun r => ?_⟩
      · rw [List.length_append, List.length_cons]
        omega
      · intro c hc
        rcases List.mem_append.mp hc with hc | hc
        · exact .inl (hd c hc)
        · rcases List.mem_cons.mp hc with rfl | hc
          · exact .inr rfl
          · exact .inl (hd' c hc)
      · unfold Rust.countAndRest
        rw [List.append_assoc, List.cons_append, decimal_append hd (by decide) (by decide)]
        dsimp only
        have hcomma : ¬(',' :: (most ++ '}' :: r)).head? = some '}' := by simp
        by_cases hne : least = []
        · rw [if_pos hne]
          exact .inl rfl
        · rw [if_neg hne, if_neg hcomma, if_pos (List.head?_cons ..), List.tail_cons, hclosing r hd']
          by_cases hmost : most = []
          · subst hmost
            rw [bounds, if_pos rfl, Option.some_inj] at hq
            rw [← hq]
            exact .inr rfl
          · -- a digit stands first, and closes nothing
            obtain ⟨x, most, rfl⟩ := List.exists_cons_of_ne_nil hmost
            have hx : ¬(x :: most ++ '}' :: r).head? = some '}' := fun heq => by
              obtain rfl := Option.some_inj.mp heq
              exact absurd (hd' _ List.mem_cons_self) (by decide)
            rw [if_neg hx, if_pos ⟨hmost, rfl⟩, hq]
            exact .inr rfl
    case h_2 => cases h
  case h_3 => cases h

/-! ### The tokens of a translation -/

theorem cut_cons_inv (h : cut token 0 (c :: rest) = some ts) : ∃ t k, token c rest = some (t, k) ∧
    (t ≠ .beyond → ∃ ts', ts = t :: ts' ∧ cut token 0 (rest.drop k) = some ts') := by
  rw [cut, Option.bind_eq_some_iff] at h
  obtain ⟨⟨t, k⟩, ht, h⟩ := h
  refine ⟨t, k, ht, fun hknown => ?_⟩
  dsimp only at h
  rw [if_neg hknown, cut_drop, Option.map_eq_some_iff] at h
  obtain ⟨ts', hts', rfl⟩ := h
  exact ⟨ts', rfl, hts'⟩

/-- What is written from here on has these tokens, if rust takes it at all. -/
def Translated (s : Scan) (r : List Char) (ts : List Token) : Prop :=
  ∃ text, r = s.out ++ text ∧ Guarded s.altStart s.assertion ts ∧ .beyond ∉ ts ∧
    ∀ ts', cut Rust.token 0 text = some ts' → ts' = ts

/-- One token more. -/
theorem Translated.cons (h : Translated s' r ts) (chunk : List Char) (hout : s'.out = s.out ++ chunk)
    (hknown : t ≠ .beyond) (hhat : t = .hat → s.altStart = true) (hdollar : t = .dollar → Reading.ends ts = true)
    (hquant : ∀ q, t = .quant q → s.assertion = false) (halt : s'.altStart = decide (t = .opened ∨ t = .bar))
    (hassert : s'.assertion = decide (t = .hat ∨ boundary t = true))
    (hrust : ∀ text ts', r = s'.out ++ text → cut Rust.token 0 (chunk ++ text) = some ts' →
      ∃ ts'', ts' = t :: ts'' ∧ cut Rust.token 0 text = some ts'') : Translated s r (t :: ts) := by
  obtain ⟨text, hr, hguarded, hbeyond, htokens⟩ := h
  refine ⟨chunk ++ text, by rw [hr, hout, List.append_assoc], ⟨hhat, hdollar, hquant, ?_⟩, ?_, fun ts' hts' => ?_⟩
  · rw [← halt, ← hassert]
    exact hguarded
  · rw [List.mem_cons, not_or]
    exact ⟨hknown.symm, hbeyond⟩
  · obtain ⟨ts'', rfl, hts''⟩ := hrust text ts' hr hts'
    rw [htokens ts'' hts'']

/-- The escapes of a basic expression: the swapped characters, but for `\{`, and those that mean themselves in rust. -/
theorem escape_cases (h : Basic.escape n = some t) :
    (n, t) ∈ [('(', Token.opened), (')', .closed), ('|', .bar), ('+', .quant .plus), ('?', .quant .opt),
      ('}', .lit '}')] ∨ n ∈ breSameEscape ∧ n ∉ breSwapped ∧ t = .escape n := by
  unfold Basic.escape at h
  split_ifs at h with h₁ h₂ h₃ h₄ h₅ h₆ h₇
  · cases h; subst h₁; exact .inl (by decide)
  · cases h; subst h₂; exact .inl (by decide)
  · cases h; subst h₃; exact .inl (by decide)
  · cases h; subst h₄; exact .inl (by decide)
  · cases h; subst h₅; exact .inl (by decide)
  · cases h; subst h₆; exact .inl (by decide)
  · cases h
    exact .inr ⟨h₇, (by simp [breSameEscape, breSwapped] : ∀ n ∈ breSameEscape, n ∉ breSwapped) n h₇, rfl⟩

theorem escape_facts (h : Basic.escape n = some t) : t ≠ .beyond ∧ t ≠ .hat ∧ t ≠ .dollar ∧
    (∀ q, t = .quant q → n ∈ ['+', '?', '{']) ∧ decide (n = '(' ∨ n = '|') = decide (t = .opened ∨ t = .bar) ∧
    decide (n ∈ ['b', 'B', '<', '>']) = decide (t = .hat ∨ boundary t = true) := by
  rcases escape_cases h with hswapped | ⟨-, hswapped, rfl⟩
  · simp only [List.mem_cons, Prod.mk.injEq, List.not_mem_nil, or_false] at hswapped
    rcases hswapped with ⟨rfl, rfl⟩ | ⟨rfl, rfl⟩ | ⟨rfl, rfl⟩ | ⟨rfl, rfl⟩ | ⟨rfl, rfl⟩ | ⟨rfl, rfl⟩ <;> simp [boundary]
  · have hopened : n ≠ '(' := by rintro rfl; exact hswapped (by decide)
    have hbar : n ≠ '|' := by rintro rfl; exact hswapped (by decide)
    simp [boundary, hopened, hbar]

/-- An escape as rust finds it in the translation. -/
theorem cut_escapeText (h : Basic.escape n = some t) (hopened : n = '(' → r.head? ≠ some '?')
    (hword : n = 'b' → r.head? ≠ some '{') :
    cut Rust.token 0 (escapeText n ++ r) = (cut Rust.token 0 r).map (t :: ·) := by
  have hknown := (escape_facts h).1
  rcases escape_cases h with hswapped | ⟨hsame, hswapped, rfl⟩
  · have htoken : escapeText n = [n] ∧ Rust.token n r = some (t, 0) := by
      simp only [List.mem_cons, Prod.mk.injEq, List.not_mem_nil, or_false] at hswapped
      rcases hswapped with ⟨rfl, rfl⟩ | ⟨rfl, rfl⟩ | ⟨rfl, rfl⟩ | ⟨rfl, rfl⟩ | ⟨rfl, rfl⟩ | ⟨rfl, rfl⟩
      · exact ⟨rfl, by simp [Rust.token, Rust.plain, hopened]⟩
      all_goals exact ⟨rfl, rfl⟩
    rw [htoken.1]
    exact cut_cons_eq_some htoken.2 hknown
  · have hescape : Rust.escape n r = .escape n :=
      (if_neg hswapped).trans ((if_neg fun hboth => hword hboth.1 hboth.2).trans (if_pos hsame))
    have htoken : Rust.token '\\' (n :: r) = some (.escape n, 1) := by
      show some (Rust.escape n r, 1) = _
      rw [hescape]
    rw [escapeText, if_neg hswapped]
    exact cut_cons_eq_some htoken hknown

theorem plain_facts : Basic.plain c ≠ .beyond ∧ (Basic.plain c = .hat → c = '^') ∧ (Basic.plain c = .dollar → c = '$') ∧
    (∀ q, Basic.plain c = .quant q → c = '*') ∧
    false = decide (Basic.plain c = .opened ∨ Basic.plain c = .bar) ∧
    decide (c = '^') = decide (Basic.plain c = .hat ∨ boundary (Basic.plain c) = true) := by
  unfold Basic.plain
  split_ifs with h₁ h₂ h₃ h₄
  · subst h₁; simp [boundary]
  · subst h₂; simp [boundary]
  · subst h₃; simp [boundary]
  · subst h₄; simp [boundary]
  · simp [boundary, h₃]

/-- Another character as rust finds it in the translation. -/
theorem cut_charText (hescape : c ≠ '\\') (hbracket : c ≠ '[') :
    cut Rust.token 0 (charText c ++ r) = (cut Rust.token 0 r).map (Basic.plain c :: ·) := by
  have hknown : Basic.plain c ≠ .beyond := plain_facts.1
  unfold charText
  split_ifs with hswapped
  · have hplain : Basic.plain c = .lit c := by
      revert hswapped
      simp only [breSwapped, List.mem_cons, List.not_mem_nil, or_false]
      rintro (rfl | rfl | rfl | rfl | rfl | rfl | rfl) <;> rfl
    have htoken : Rust.token '\\' (c :: r) = some (Basic.plain c, 1) := by
      rw [hplain]
      exact congrArg (fun t => some (t, 1)) (if_pos hswapped)
    exact cut_cons_eq_some htoken hknown
  · have htoken : Rust.token c r = some (Basic.plain c, 0) := by
      simp only [breSwapped, List.mem_cons, List.not_mem_nil, or_false, not_or] at hswapped
      obtain ⟨hopened, hclosed, hcount, -, hplus, hopt, hbar⟩ := hswapped
      unfold Rust.token Rust.plain Basic.plain
      rw [if_neg hescape, if_neg hbracket, if_neg hcount, if_neg hopened, if_neg hclosed, if_neg hbar, if_neg hplus,
        if_neg hopt]
    exact cut_cons_eq_some htoken hknown

theorem token_count (text : List Char) :
    Rust.token '{' text = (Rust.count text).map fun (q, k) => (.quant q, k) := rfl

/-- A count as rust finds it in the translation. -/
theorem cut_count {text : List Char} {ts' : List Token}
    (hcount : Rust.countAndRest (text ++ '}' :: r) = none ∨ Rust.countAndRest (text ++ '}' :: r) = some (q, r))
    (h : cut Rust.token 0 ('{' :: (text ++ '}' :: r)) = some ts') :
    ∃ ts'', ts' = .quant q :: ts'' ∧ cut Rust.token 0 r = some ts'' := by
  have htoken := token_count (text ++ '}' :: r)
  rcases hcount with hnone | hsome
  · rw [cut, htoken, Rust.count, hnone] at h
    cases h
  · have hlength : (text ++ '}' :: r).length - r.length = text.length + 1 := by
      rw [List.length_append, List.length_cons]
      omega
    rw [Rust.count, hsome, Option.map_some, Option.map_some] at htoken
    dsimp only at htoken
    rw [hlength] at htoken
    have hdrop : (text ++ '}' :: r).drop (text.length + 1) = r := by
      rw [List.append_cons]
      exact List.drop_left' (by rw [List.length_append]; rfl)
    rw [cut_cons_eq_some htoken (by simp), hdrop, Option.map_eq_some_iff] at h
    obtain ⟨ts'', hts'', rfl⟩ := h
    exact ⟨ts'', rfl, hts''⟩

/-- The characters of a count are copied. -/
theorem scanLoop_count {text out : List Char} (htext : ∀ c ∈ text, digit c = true ∨ c = ',')
    (h : scanLoop 0 ⟨out, false, false, false⟩ (text ++ rest) = some r) :
    scanLoop 0 ⟨out ++ text, false, false, false⟩ rest = some r := by
  induction text generalizing out with
  | nil =>
    rw [List.append_nil]
    exact h
  | cons c text ih =>
    have hplain : c ∉ ['\\', '[', '^', '(', ')', '{', '}', '+', '?', '|'] := by
      rintro hmem
      rcases htext c List.mem_cons_self with hdigit | rfl
      · have hnone : ∀ x ∈ ['\\', '[', '^', '(', ')', '{', '}', '+', '?', '|'], digit x = false := by
          simp [digit]
        rw [hnone c hmem] at hdigit
        cases hdigit
      · exact absurd hmem (by decide)
    obtain ⟨rfl, -⟩ | ⟨rfl, -⟩ | ⟨-, -, s', hs', hloop⟩ := scanLoop_cons h
    · exact absurd (by decide) hplain
    · exact absurd (by decide) hplain
    · rw [(scanChar_eq_some hs').1] at hloop
      have hchar : charText c = [c] := if_neg fun hmem => hplain (by simp [breSwapped] at hmem ⊢; tauto)
      have hhat : decide (c = '^') = false := decide_eq_false (by rintro rfl; exact hplain (by decide))
      rw [hchar, hhat] at hloop
      have hrest := ih (fun c' hc' => htext c' (List.mem_cons_of_mem c hc')) hloop
      rwa [List.append_assoc] at hrest

theorem ends_of_endsAlternative (h : endsAlternative rest = true) (hts : cut Basic.token 0 rest = some ts) :
    Reading.ends ts = true := by
  unfold endsAlternative at h
  rw [decide_eq_true_iff] at h
  have hescape : ∀ {n : Char} {t : Token} {after : List Char}, rest = '\\' :: n :: after →
      Basic.token '\\' (n :: after) = some (t, 1) → t ≠ .beyond → t = .bar ∨ t = .closed → Reading.ends ts = true := by
    rintro n t after rfl ht hknown hends
    rw [cut_cons_eq_some ht hknown, Option.map_eq_some_iff] at hts
    obtain ⟨ts', -, rfl⟩ := hts
    exact decide_eq_true hends
  rcases h with rfl | ⟨after, rfl⟩ | ⟨after, rfl⟩
  · cases hts
    rfl
  · exact hescape rfl rfl (nomatch ·) (.inr rfl)
  · exact hescape rfl rfl (nomatch ·) (.inl rfl)

theorem translated_char (hs' : scanChar s c rest = some s') (hescape : c ≠ '\\') (hbracket : c ≠ '[')
    (hts : cut Basic.token 0 rest = some ts) (h : Translated s' r ts) : Translated s r (Basic.plain c :: ts) := by
  obtain ⟨hout, hstar, hhat, hdollar⟩ := scanChar_eq_some hs'
  obtain ⟨hknown, hhat', hdollar', hquant, halt, hassert⟩ := plain_facts (c := c)
  refine h.cons (charText c) (by rw [hout]) hknown (fun heq => hhat (hhat' heq))
    (fun heq => ends_of_endsAlternative (hdollar (hdollar' heq)) hts) (fun q heq => hstar (hquant q heq))
    (by rw [hout]; exact halt) (by rw [hout]; exact hassert) fun text ts' _ hts' => ?_
  rw [cut_charText hescape hbracket, Option.map_eq_some_iff] at hts'
  obtain ⟨ts'', hts'', rfl⟩ := hts'
  exact ⟨ts'', rfl, hts''⟩

theorem translated_bracket {j : ℕ} (hk : bracketEnd rest = some k) (ht : Basic.bracket rest = some (t, j))
    (h : Translated ⟨s.out ++ '[' :: rest.take (k + 1), false, false, false⟩ r ts) : Translated s r (t :: ts) := by
  obtain ⟨-, ⟨negated, l, rfl⟩, hlength, hrust⟩ := bracket_of_bracketEnd hk ht
  refine h.cons ('[' :: rest.take (k + 1)) rfl (nomatch ·) (nomatch ·) (nomatch ·) (fun _ heq => nomatch heq)
    (by simp) (by simp [boundary]) fun text ts' _ hts' => ?_
  have htoken : Rust.token '[' (rest.take (k + 1) ++ text) = some (.members negated l, k + 1) := hrust text
  rw [List.cons_append, cut_cons_eq_some htoken (nomatch ·), List.drop_left' hlength, Option.map_eq_some_iff] at hts'
  obtain ⟨ts'', hts'', rfl⟩ := hts'
  exact ⟨ts'', rfl, hts''⟩

theorem translated_escape (hs' : scanEscape s n rest = some s') (ht : Basic.escape n = some t)
    (hloop : scanLoop 0 s' rest = some r) (hts : cut Basic.token 0 rest = some ts)
    (hflags : ¬[.opened, .quant .opt] <:+: t :: ts) (h : Translated s' r ts) : Translated s r (t :: ts) := by
  obtain ⟨hout, -, hassert⟩ := scanEscape_eq_some hs'
  obtain ⟨hknown, hhat, hdollar, hquant, halt, hassert'⟩ := escape_facts ht
  refine h.cons (escapeText n) (by rw [hout]) hknown (fun heq => absurd heq hhat)
    (fun heq => absurd heq hdollar) (fun q heq => hassert (hquant q heq)) (by rw [hout]; exact halt)
    (by rw [hout]; exact hassert') fun text ts' hr hts' => ?_
  have hopened : n = '(' → text.head? ≠ some '?' := by
    rintro rfl hhead
    obtain ⟨text, rfl⟩ := List.head?_eq_some_iff.mp hhead
    obtain ⟨after, rfl⟩ := head_of_scan (hr ▸ hloop) (by decide)
    -- an option right behind the group
    have htoken : Basic.token '\\' ('?' :: after) = some (.quant .opt, 1) := rfl
    rw [cut_cons_eq_some htoken (nomatch ·), Option.map_eq_some_iff] at hts
    obtain ⟨ts, -, rfl⟩ := hts
    cases ht
    exact hflags ⟨[], ts, rfl⟩
  have hword : n = 'b' → text.head? ≠ some '{' := by
    rintro rfl hhead
    obtain ⟨text, rfl⟩ := List.head?_eq_some_iff.mp hhead
    obtain ⟨after, rfl⟩ := head_of_scan (hr ▸ hloop) (by decide)
    -- a count right behind the assertion
    obtain ⟨-, n, after', s'', hcons, hs'', -⟩ | ⟨heq, -⟩ | ⟨-, hnil, -⟩ := scanLoop_cons hloop
    · cases hcons
      have hfalse := (scanEscape_eq_some hs'').2.2 (by decide)
      rw [hout] at hfalse
      dsimp only at hfalse
      exact absurd hfalse (by decide)
    · exact absurd heq (by decide)
    · exact absurd (hnil rfl) (List.cons_ne_nil _ _)
  rw [cut_escapeText ht hopened hword, Option.map_eq_some_iff] at hts'
  obtain ⟨ts'', hts'', rfl⟩ := hts'
  exact ⟨ts'', rfl, hts''⟩

/-- The scan of a count goes on behind it. -/
theorem scanLoop_of_count {text tail : List Char} (hs' : scanEscape s '{' rest = some s')
    (htext : ∀ c ∈ text, digit c = true ∨ c = ',') (hloop : scanLoop 0 s' (text ++ '\\' :: '}' :: tail) = some r) :
    s.assertion = false ∧ scanLoop 0 ⟨s.out ++ '{' :: (text ++ ['}']), false, false, false⟩ tail = some r := by
  obtain ⟨hout, -, hassert⟩ := scanEscape_eq_some hs'
  refine ⟨hassert (by decide), ?_⟩
  rw [hout] at hloop
  have hclose := scanLoop_count htext hloop
  obtain ⟨-, n, after, s'', hcons, hs'', hloop'⟩ | ⟨heq, -⟩ | ⟨-, hnil, -⟩ := scanLoop_cons hclose
  · cases hcons
    rw [(scanEscape_eq_some hs'').1] at hloop'
    have htext' : s.out ++ escapeText '{' ++ text ++ escapeText '}' = s.out ++ '{' :: (text ++ ['}']) := by
      rw [List.append_assoc, List.append_assoc]
      rfl
    rw [htext'] at hloop'
    exact hloop'
  · exact absurd heq (by decide)
  · exact absurd (hnil rfl) (List.cons_ne_nil _ _)

theorem translated_count {text : List Char} (hassert : s.assertion = false)
    (hcount : ∀ r, Rust.countAndRest (text ++ '}' :: r) = none ∨ Rust.countAndRest (text ++ '}' :: r) = some (q, r))
    (h : Translated ⟨s.out ++ '{' :: (text ++ ['}']), false, false, false⟩ r ts) :
    Translated s r (.quant q :: ts) := by
  refine h.cons ('{' :: (text ++ ['}'])) rfl (nomatch ·) (nomatch ·) (nomatch ·) (fun _ _ => hassert)
    (by simp) (by simp [boundary]) fun tail ts' _ hts' => ?_
  rw [List.cons_append, List.append_assoc] at hts'
  exact cut_count (hcount tail) hts'

/-- A basic pattern that is translated: rust finds the same tokens, in places where both dialects read them alike. -/
theorem translated (h : scanLoop 0 s rest = some r) (hts : cut Basic.token 0 rest = some ts)
    (hflags : ¬[.opened, .quant .opt] <:+: ts) : Translated s r ts := by
  -- a token can be longer than a character, so the induction is on the length of the text
  suffices hlength : ∀ (m : ℕ) {s : Scan} {rest : List Char} {ts : List Token}, rest.length ≤ m →
      scanLoop 0 s rest = some r → cut Basic.token 0 rest = some ts → ¬[.opened, .quant .opt] <:+: ts →
      Translated s r ts from hlength _ (Nat.le_refl _) h hts hflags
  have hnil : ∀ {s : Scan} {ts : List Token}, scanLoop 0 s [] = some r → cut Basic.token 0 [] = some ts →
      Translated s r ts := by
    intro s ts h hts
    cases h
    cases hts
    exact ⟨[], (List.append_nil _).symm, trivial, List.not_mem_nil, fun ts' hts' => (Option.some_inj.mp hts').symm⟩
  intro m
  induction m with
  | zero =>
    intro s rest ts hm h hts hflags
    obtain rfl := List.length_eq_zero_iff.mp (Nat.le_zero.mp hm)
    exact hnil h hts
  | succ m ih =>
    intro s rest ts hm h hts hflags
    cases rest with
    | nil => exact hnil h hts
    | cons c rest =>
      rw [List.length_cons, Nat.succ_le_succ_iff] at hm
      obtain ⟨t, k, ht, hcut⟩ := cut_cons_inv hts
      have htail : ∀ {t : Token} {ts' : List Token}, ts = t :: ts' → ¬[.opened, .quant .opt] <:+: ts' := by
        rintro t ts' rfl hin
        exact hflags (hin.trans (List.suffix_cons t ts').isInfix)
      obtain ⟨rfl, n, after, s', rfl, hs', hloop⟩ | ⟨rfl, j, hj, hloop⟩ | ⟨hbracket, hescape, s', hs', hloop⟩ :=
        scanLoop_cons h
      · -- a backslash: a count of the basic dialect, or an escape
        rw [List.length_cons] at hm
        by_cases hn : n = '{'
        · subst hn
          obtain ⟨⟨q, j⟩, hq, heq⟩ := Option.map_eq_some_iff.mp (show (Basic.count after).map _ = _ from ht)
          cases heq
          obtain ⟨text, tail, rfl, rfl, htext, hcount⟩ := count_of_basic hq
          obtain ⟨ts', rfl, hts'⟩ := hcut (nomatch ·)
          obtain ⟨hassert, hloop'⟩ := scanLoop_of_count hs' htext hloop
          have hdrop : ('{' :: (text ++ '\\' :: '}' :: tail)).drop (text.length + 2 + 1) = tail := by
            rw [List.drop_succ_cons, List.append_cons, List.append_cons]
            exact List.drop_left' (by simp)
          rw [hdrop] at hts'
          have hshort : tail.length ≤ m := by
            rw [List.length_append, List.length_cons, List.length_cons] at hm
            omega
          exact translated_count hassert hcount (ih hshort hloop' hts' (htail rfl))
        · have htoken : Basic.token '\\' (n :: after) = (Basic.escape n).map (·, 1) := if_neg hn
          rw [htoken, Option.map_eq_some_iff] at ht
          obtain ⟨t, ht, heq⟩ := ht
          cases heq
          obtain ⟨ts', rfl, hts'⟩ := hcut (escape_facts ht).1
          exact translated_escape hs' ht hloop hts' hflags (ih (by omega) hloop hts' (htail rfl))
      · -- a bracket, which is copied
        have htoken : Basic.bracket rest = some (t, k) := ht
        obtain ⟨rfl, ⟨negated, l, rfl⟩, -, -⟩ := bracket_of_bracketEnd hj htoken
        obtain ⟨ts', rfl, hts'⟩ := hcut (nomatch ·)
        have hshort : (rest.drop (j + 1)).length ≤ m := by
          rw [List.length_drop]
          omega
        exact translated_bracket hj htoken (ih hshort hloop hts' (htail rfl))
      · -- any other character
        have hc : c ≠ '\\' := by
          rintro rfl
          rw [hescape rfl] at ht
          cases ht
        have htoken : Basic.token c rest = some (Basic.plain c, 0) := by
          unfold Basic.token
          rw [if_neg hc, if_neg hbracket]
        rw [htoken] at ht
        cases ht
        obtain ⟨ts', rfl, hts'⟩ := hcut plain_facts.1
        exact translated_char hs' hc hbracket hts' (ih hm hloop hts' (htail rfl))

end Scan

/-! ### Lines -/

/-- The pattern is a basic regular expression with no `\?` right behind a `\(`, and greedy quantifiers. -/
def Readable (pattern : List Char) : Prop :=
  ∃ ts, cut Basic.token 0 pattern = some ts ∧ ¬[.opened, .quant .opt] <:+: ts ∧ Greedy ts

/-- Where rust takes `translation`, the pattern is a basic expression that selects the same lines. -/
def SameLines (word space : Char → Bool) (beyond : List Char → Option (Re Char)) (pattern translation : List Char) : Prop :=
  ∀ rust, Rust.read word space beyond translation = some rust →
    ∃ basic, Basic.read word space pattern = some basic ∧ ∀ line, '\n' ∉ line → (basic.Selects line ↔ rust.Selects line)

/-- The translation of a readable pattern selects the same lines. -/
theorem breToRustRegex_selects {pattern translation : List Char} (beyond : List Char → Option (Re Char))
    (hreadable : Readable pattern) (h : breToRustRegex pattern = some translation) :
    SameLines word space beyond pattern translation := by
  intro rust hread
  obtain ⟨ts, hts, hflags, hgreedy⟩ := hreadable
  obtain ⟨text, hout, hguarded, hbeyond, htokens⟩ := translated h hts hflags
  obtain rfl : translation = text := hout
  unfold Rust.read at hread
  rw [Option.bind_eq_some_iff] at hread
  obtain ⟨ts', hts', hread⟩ := hread
  obtain rfl := htokens ts' hts'
  rw [if_neg hbeyond] at hread
  have hstart : ∀ w, Reading.Together w .start .start ts' := fun w =>
    .inl ⟨⟨.nil, ⟨.nil, .nil⟩, .inl rfl⟩, fun hlast => nomatch hlast⟩
  have halike : ∀ w, '\n' ∉ w → ∃ basic, Basic.read word space pattern = some basic ∧ Re.Same w basic rust := by
    intro w hw
    obtain ⟨basic, hbasic, hsame⟩ := Reading.read_alike hw hguarded hgreedy (hstart w) (fun _ => rfl)
      (fun hlast => nomatch hlast) hread
    exact ⟨basic, Option.bind_eq_some_iff.mpr ⟨ts', hts, hbasic⟩, hsame⟩
  obtain ⟨basic, hbasic, -⟩ := halike [] List.not_mem_nil
  refine ⟨basic, hbasic, fun line hline => ?_⟩
  obtain ⟨basic', hbasic', hsame⟩ := halike line hline
  rw [hbasic, Option.some_inj] at hbasic'
  exact hbasic' ▸ hsame.selects

/-- `\(a*\?b\)\{2,3\}$`, where the option adds nothing. -/
theorem breToRustRegex_selects_counted :
    SameLines Char.isAlphanum Char.isWhitespace (fun _ => none)
      ['\\', '(', 'a', '*', '\\', '?', 'b', '\\', ')', '\\', '{', '2', ',', '3', '\\', '}', '$']
      ['(', 'a', '*', '?', 'b', ')', '{', '2', ',', '3', '}', '$'] := by
  have hreadable : Readable
      ['\\', '(', 'a', '*', '\\', '?', 'b', '\\', ')', '\\', '{', '2', ',', '3', '\\', '}', '$'] := by
    refine ⟨_, rfl, by decide, ?_⟩
    exact ⟨fun hleast => absurd hleast (by decide), trivial⟩
  exact breToRustRegex_selects _ hreadable (by decide)

/-- `ba\+\?` selects `b`, and its translation `ba+?` does not: there the quantifier is lazy, and the piece not
optional. -/
theorem breToRustRegex_makes_lazy : ¬∀ (word space : Char → Bool) (beyond : List Char → Option (Re Char))
    (pattern translation : List Char), '\n' ∉ pattern → breToRustRegex pattern = some translation →
      SameLines word space beyond pattern translation := by
  intro h
  obtain ⟨basic, hbasic, hlines⟩ := h Char.isAlphanum Char.isWhitespace (fun _ => none)
    ['b', 'a', '\\', '+', '\\', '?'] ['b', 'a', '+', '?'] (by decide) (by decide)
    (.seq (.one (· = 'b')) (.seq (.rep (.one (· = 'a')) 1 none) .empty)) rfl
  have heq : basic = .seq (.one (· = 'b')) (.seq (.rep (.rep (.one (· = 'a')) 1 none) 0 (some 1)) .empty) :=
    (Option.some_inj.mp hbasic).symm
  have hselects : basic.Selects ['b'] := by
    rw [heq]
    refine ⟨0, 1, Nat.zero_le _, 1, ⟨⟨'b', rfl, by decide⟩, rfl⟩, 1, ?_, rfl⟩
    exact ⟨0, Nat.le_refl 0, fun _ _ => Nat.zero_le _, rfl⟩
  obtain ⟨i, j, -, m, ⟨⟨b, hb, -⟩, rfl⟩, m', ⟨k, hk, -, htimes⟩, -⟩ := (hlines ['b'] (by decide)).mp hselects
  -- behind the `b` the line ends
  have hi : i = 0 := by
    have hlt := (List.getElem?_eq_some_iff.mp hb).1
    simpa using hlt
  obtain ⟨k, rfl⟩ : ∃ k', k = k' + 1 := ⟨k - 1, by omega⟩
  obtain ⟨_, ⟨⟨a, ha, -⟩, -⟩, -⟩ := htimes
  subst hi
  cases ha

end CodeGraph.Plugin.Patterns
