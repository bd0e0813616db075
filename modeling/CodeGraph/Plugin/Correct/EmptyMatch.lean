import CodeGraph.Lib.EmptyMatch
import CodeGraph.Plugin.EmptyMatch
import CodeGraph.Plugin.Correct.Portable

/-!
# What `matchesEmpty` says

The descent over the code units goes along with the reader of rust's tokens (`alt_tells`): where it comes to the end of
an alternative, the reader has the expression of that alternative, and the flag tells whether it can match nothing. It
needs that both cut the text alike (`fair`). It loses the reader at `(?`, at a count with blanks in it, and where a
quantifier follows a character of two code units.
-/

namespace CodeGraph.Plugin.Patterns

open CodeGraph.Lib (Re)
open CodeGraph.Lib.Re (Tells)

variable {text rest t t' : List Char} {ts ts' : List Token} {tok : Token} {c n : Char} {k fuel : ℕ} {u : List CodeUnit}
  {e e' : Bool} {p p' : Place} {exact : Prop}

/-! ### It ends -/

theorem quantifiers_length (skip : ℕ) (e : Bool) (u : List CodeUnit) : (quantifiers skip e u).2.length ≤ u.length := by
  induction u generalizing skip e with
  | nil => cases skip <;> exact Nat.le_refl 0
  | cons x u ih =>
    have hstep : ∀ skip e, (quantifiers skip e u).2.length ≤ (x :: u).length := fun skip e =>
      (ih skip e).trans (Nat.le_succ _)
    cases skip with
    | succ skip => exact hstep skip e
    | zero =>
      rw [quantifiers]
      split_ifs
      · exact hstep 0 true
      · exact hstep 0 e
      · split
        · exact hstep _ _
        · exact Nat.le_refl _
      · exact Nat.le_refl _

theorem simpleAtom_length (hne : p.rest ≠ []) : (simpleAtom p).2.rest.length < p.rest.length := by
  have htail : p.rest.tail.length < p.rest.length := by
    rw [List.length_tail]
    exact Nat.sub_lt (List.length_pos_iff.mpr hne) Nat.one_pos
  unfold simpleAtom
  split
  case h_1 rest heq =>
    rw [heq]
    show rest.tail.length < rest.length + 1
    rw [List.length_tail]
    omega
  case h_2 rest heq =>
    rw [heq]
    split
    · exact Nat.succ_pos _
    · show (rest.drop _).length < rest.length + 1
      rw [List.length_drop]
      omega
  case h_3 => exact htail

/-- With enough fuel every call returns, and leaves no more than it was given. -/
theorem calls_return (fuel : ℕ) :
    (∀ p : Place, 3 * p.rest.length + 3 ≤ fuel → ∃ b p', alt fuel p = some (b, p') ∧
      p'.rest.length ≤ p.rest.length) ∧
    (∀ any (p : Place), 3 * p.rest.length + 2 ≤ fuel → ∃ b p', bars fuel any p = some (b, p') ∧
      p'.rest.length ≤ p.rest.length) ∧
    (∀ all (p : Place), 3 * p.rest.length + 2 ≤ fuel → ∃ b p', seq fuel all p = some (b, p') ∧
      p'.rest.length ≤ p.rest.length) ∧
    (∀ p : Place, p.rest ≠ [] → 3 * p.rest.length + 1 ≤ fuel → ∃ b p', atom fuel p = some (b, p') ∧
      p'.rest.length < p.rest.length) := by
  -- each call has its share of the fuel: three for a character, and one for each call inside another
  induction fuel with
  | zero => exact ⟨fun p h => by omega, fun _ p h => by omega, fun _ p h => by omega, fun p _ h => by omega⟩
  | succ fuel ih =>
    obtain ⟨halt, hbars, hseq, hatom⟩ := ih
    have htail : ∀ {p : Place}, p.rest ≠ [] → p.rest.tail.length + 1 = p.rest.length := by
      intro p hne
      rw [List.length_tail]
      exact Nat.sub_add_cancel (List.length_pos_iff.mpr hne)
    refine ⟨fun p h => ?_, fun any p h => ?_, fun all p h => ?_, fun p hne h => ?_⟩
    · obtain ⟨any, q, hq, hlength⟩ := hseq true p (by omega)
      obtain ⟨b, r, hr, hlength'⟩ := hbars any q (by omega)
      exact ⟨b, r, by rw [alt, hq]; exact hr, hlength'.trans hlength⟩
    · rw [bars]
      split_ifs with hbar
      · have hne : p.rest ≠ [] := by
          rintro heq
          rw [heq] at hbar
          cases hbar
        have hshort := htail hne
        obtain ⟨more, q, hq, hlength⟩ := hseq true { p with rest := p.rest.tail } (by
          show 3 * p.rest.tail.length + 2 ≤ fuel
          omega)
        have hlength' : q.rest.length ≤ p.rest.tail.length := hlength
        obtain ⟨b, r, hr, hlast⟩ := hbars (more || any) q (by omega)
        exact ⟨b, r, by rw [hq]; exact hr, by omega⟩
      · exact ⟨any, p, rfl, Nat.le_refl _⟩
    · rw [seq]
      split_ifs with hstop
      · exact ⟨all, p, rfl, Nat.le_refl _⟩
      · obtain ⟨empty, q, hq, hlength⟩ := hatom p (fun hnil => hstop (.inl hnil)) (by omega)
        have hquant := quantifiers_length 0 empty q.rest
        obtain ⟨b, r, hr, hlast⟩ := hseq (all && (quantifiers 0 empty q.rest).1)
          { q with rest := (quantifiers 0 empty q.rest).2 } (by
            show 3 * (quantifiers 0 empty q.rest).2.length + 2 ≤ fuel
            omega)
        have hlast' : r.rest.length ≤ (quantifiers 0 empty q.rest).2.length := hlast
        exact ⟨b, r, by rw [hq]; exact hr, by omega⟩
    · rw [atom]
      split_ifs with hgroup
      · have hshort := htail hne
        obtain ⟨inner, q, hq, hlength⟩ := halt { p with rest := p.rest.tail } (by
          show 3 * p.rest.tail.length + 3 ≤ fuel
          omega)
        have hlength' : q.rest.length ≤ p.rest.tail.length := hlength
        refine ⟨_, _, by rw [hq]; rfl, ?_⟩
        show q.rest.tail.length < p.rest.length
        rw [List.length_tail]
        omega
      · exact ⟨_, _, rfl, simpleAtom_length hne⟩

theorem matchesEmpty_isSome (pattern : List Char) : (matchesEmpty pattern).isSome = true := by
  obtain ⟨b, p, hp, -⟩ := (calls_return (3 * (units pattern).length + 3)).1 ⟨units pattern, false⟩ (Nat.le_refl _)
  rw [matchesEmpty, hp]
  rfl

/-! ### Code units -/

theorem units_cons : units (c :: text) = unitsOf c ++ units text := rfl

theorem units_cons_char (h : c.toNat < 0x10000) : units (c :: text) = .char c :: units text := by
  rw [units_cons, unitsOf, if_pos h]
  rfl

theorem head_units (hc : c.toNat < 0x10000) : (units text).head? = some (.char c) ↔ text.head? = some c := by
  cases text with
  | nil => simp [units]
  | cons d text =>
    rw [units_cons, unitsOf, List.head?_cons, Option.some_inj]
    split_ifs with hd
    · show some (CodeUnit.char d) = _ ↔ _
      simp
    · show some CodeUnit.half = _ ↔ _
      refine iff_of_false (by simp) ?_
      rintro rfl
      exact hd hc

theorem unitBracketLoop_of_loop (h : bracketLoop text = some k) :
    ∃ n, unitBracketLoop (units text) = some n ∧ (units text).drop (n + 1) = units (text.drop (k + 1)) := by
  induction text generalizing k with
  | nil => cases h
  | cons c text ih =>
    rw [bracketLoop] at h
    split_ifs at h with hclose hbad hdouble
    · obtain rfl := Option.some.inj h
      subst hclose
      exact ⟨0, rfl, rfl⟩
    · obtain ⟨k, hk, rfl⟩ := Option.map_eq_some_iff.mp h
      obtain ⟨n, hn, hdrop⟩ := ih hk
      rw [units_cons, unitsOf]
      split_ifs with hc
      · refine ⟨n + 1, ?_, hdrop⟩
        show unitBracketLoop (.char c :: units text) = _
        have hdouble' : ¬(CodeUnit.char c ∈ [.char '&', .char '-', .char '~'] ∧
            (units text).head? = some (.char c)) := by
          rw [head_units hc]
          simpa using hdouble
        rw [unitBracketLoop, if_neg (by simpa using hclose), if_neg (by simpa using hbad), if_neg hdouble', hn]
        rfl
      · refine ⟨n + 2, ?_, hdrop⟩
        show unitBracketLoop (.half :: .half :: units text) = _
        have hhalf : ∀ u, unitBracketLoop (.half :: u) = (unitBracketLoop u).map (· + 1) := by
          intro u
          rw [unitBracketLoop, if_neg (by simp), if_neg (by simp), if_neg (by simp)]
        rw [hhalf, hhalf, hn]
        rfl

theorem unitBracketEnd_of_end (h : bracketEnd text = some k) :
    ∃ n, unitBracketEnd (units text) = some n ∧ (units text).drop (n + 1) = units (text.drop (k + 1)) := by
  have hclose : ∀ {text : List Char}, (units text).head? = some (.char ']') ↔ text.head? = some ']' :=
    head_units (by decide)
  unfold bracketEnd at h
  unfold unitBracketEnd
  dsimp only at h ⊢
  by_cases hhat : text.head? = some '^'
  · obtain ⟨body, rfl⟩ := List.head?_eq_some_iff.mp hhat
    have hunits : units ('^' :: body) = .char '^' :: units body := units_cons_char (by decide)
    rw [if_pos hhat, List.drop_one, List.tail_cons] at h
    split_ifs at h with hfirst
    obtain ⟨k, hk, rfl⟩ := Option.map_eq_some_iff.mp h
    obtain ⟨n, hn, hdrop⟩ := unitBracketLoop_of_loop hk
    rw [hunits, if_pos (List.head?_cons ..), List.drop_one, List.tail_cons, if_neg fun heq => hfirst (hclose.mp heq)]
    refine ⟨1 + n, by rw [hn]; rfl, ?_⟩
    rw [Nat.add_comm 1 n, Nat.add_comm 1 k]
    exact hdrop
  · rw [if_neg hhat, List.drop_zero] at h
    split_ifs at h with hfirst
    obtain ⟨k, hk, rfl⟩ := Option.map_eq_some_iff.mp h
    obtain ⟨n, hn, hdrop⟩ := unitBracketLoop_of_loop hk
    rw [if_neg fun heq => hhat ((head_units (by decide)).mp heq), List.drop_zero,
      if_neg fun heq => hfirst (hclose.mp heq)]
    refine ⟨0 + n, by rw [hn]; rfl, ?_⟩
    rw [Nat.zero_add, Nat.zero_add]
    exact hdrop

theorem digit_lt (h : digit c = true) : c.toNat < 0x10000 := by
  have hrange := of_decide_eq_true h
  omega

theorem units_append_of_char (h : ∀ c ∈ text, c.toNat < 0x10000) :
    units (text ++ rest) = text.map .char ++ units rest := by
  induction text with
  | nil => rfl
  | cons c text ih =>
    rw [List.cons_append, units_cons_char (h c List.mem_cons_self), ih fun d hd => h d (by simp [hd])]
    rfl

/-- A number, in code units. -/
theorem span_unitDigit (text : List Char) : (units text).takeWhile unitDigit = (text.takeWhile digit).map .char ∧
    (units text).dropWhile unitDigit = units (text.dropWhile digit) := by
  have hsplit : units text = (text.takeWhile digit).map .char ++ units (text.dropWhile digit) := by
    rw [← units_append_of_char fun c hc => digit_lt (List.mem_takeWhile_imp hc), List.takeWhile_append_dropWhile]
  have hpos : ∀ u ∈ (text.takeWhile digit).map CodeUnit.char, unitDigit u = true := by
    intro u hu
    obtain ⟨c, hc, rfl⟩ := List.mem_map.mp hu
    show digit c = true
    exact List.mem_takeWhile_imp hc
  have hstop : (units (text.dropWhile digit)).takeWhile unitDigit = [] ∧
      (units (text.dropWhile digit)).dropWhile unitDigit = units (text.dropWhile digit) := by
    cases hrest : text.dropWhile digit with
    | nil => exact ⟨rfl, rfl⟩
    | cons c rest =>
      have hc : digit c = false := by
        have hnot := List.head_dropWhile_not digit (l := text) (by simp [hrest])
        simpa [hrest] using hnot
      rw [units_cons, unitsOf]
      split_ifs
      · exact ⟨List.takeWhile_cons_of_neg (by simp [unitDigit, hc]),
          List.dropWhile_cons_of_neg (by simp [unitDigit, hc])⟩
      · exact ⟨rfl, rfl⟩
  constructor
  · rw [hsplit, List.takeWhile_append_of_pos hpos, hstop.1, List.append_nil]
  · rw [hsplit, List.dropWhile_append_of_pos hpos, hstop.2]

/-! ### Counts -/

/-- The text of a count. -/
theorem countLength_eq_some (h : countLength text = some k) : ∃ more tail, text.takeWhile digit ≠ [] ∧
    text = text.takeWhile digit ++ (more ++ tail) ∧ k = (text.takeWhile digit).length + more.length ∧
    (more = ['}'] ∨ ∃ most, (∀ c ∈ most, digit c = true) ∧ more = ',' :: (most ++ ['}'])) := by
  have hsplit : text = text.takeWhile digit ++ text.dropWhile digit := List.takeWhile_append_dropWhile.symm
  unfold countLength at h
  dsimp only at h
  split_ifs at h with hne
  split at h
  case h_1 tail hbehind =>
    obtain rfl := Option.some.inj h
    exact ⟨['}'], tail, hne, by rw [List.singleton_append, ← hbehind, ← hsplit], rfl, .inl rfl⟩
  case h_2 rest hbehind =>
    split at h
    case h_1 tail hclose =>
      obtain rfl := Option.some.inj h
      have hrest : rest = rest.takeWhile digit ++ '}' :: tail := hclose ▸ List.takeWhile_append_dropWhile.symm
      refine ⟨',' :: (rest.takeWhile digit ++ ['}']), tail, hne, ?_, ?_, .inr ⟨_, fun c hc => ?_, rfl⟩⟩
      · have hcomma : ',' :: (rest.takeWhile digit ++ ['}']) ++ tail = ',' :: rest := by
          rw [List.cons_append, List.append_assoc, List.singleton_append, ← hrest]
        rw [hcomma, ← hbehind, ← hsplit]
      · simp only [List.length_cons, List.length_append, List.length_nil]
        omega
      · exact List.mem_takeWhile_imp hc
    case h_2 => cases h
  case h_3 => cases h

/-- The characters of a count. -/
theorem mem_take_count (h : countLength text = some k) :
    k ≤ text.length ∧ ∀ c ∈ text.take k, digit c = true ∨ c = ',' ∨ c = '}' := by
  obtain ⟨more, tail, -, htext, hk, hmore⟩ := countLength_eq_some h
  have hdigits : ∀ c ∈ text.takeWhile digit, digit c = true := fun c hc => List.mem_takeWhile_imp hc
  generalize text.takeWhile digit = least at htext hk hdigits
  have htake : text.take k = least ++ more := by
    rw [htext, hk, ← List.append_assoc, ← List.length_append, List.take_left]
  constructor
  · rw [htext, hk, List.length_append, List.length_append]
    omega
  · intro c hc
    rw [htake, List.mem_append] at hc
    rcases hc with hc | hc
    · exact .inl (hdigits c hc)
    · rcases hmore with rfl | ⟨most, hmost, rfl⟩
      · exact .inr (.inr (List.mem_singleton.mp hc))
      · rcases List.mem_cons.mp hc with rfl | hc
        · exact .inr (.inl rfl)
        · rcases List.mem_append.mp hc with hc | hc
          · exact .inl (hmost c hc)
          · exact .inr (.inr (List.mem_singleton.mp hc))

theorem drop_units_count (h : countLength text = some k) : (units text).drop k = units (text.drop k) := by
  obtain ⟨hle, hchars⟩ := mem_take_count h
  have hsmall : ∀ c ∈ text.take k, c.toNat < 0x10000 := by
    intro c hc
    rcases hchars c hc with hdigit | rfl | rfl
    · exact digit_lt hdigit
    · decide
    · decide
  have hunits : units text = (text.take k).map .char ++ units (text.drop k) := by
    rw [← units_append_of_char hsmall, List.take_append_drop]
  have hlength : ((text.take k).map CodeUnit.char).length = k := by
    rw [List.length_map, List.length_take, Nat.min_eq_left hle]
  rw [hunits, List.drop_left' hlength]

theorem value_eq_zero_iff (h : ∀ c ∈ text, digit c = true) : value text = 0 ↔ ∀ c ∈ text, c = '0' := by
  have hfold : ∀ (l : List Char) (n : ℕ), (∀ c ∈ l, digit c = true) →
      (l.foldl (fun n c => 10 * n + (c.toNat - 48)) n = 0 ↔ n = 0 ∧ ∀ c ∈ l, c = '0') := by
    intro l
    induction l with
    | nil => simp
    | cons c l ih =>
      intro n hl
      have hc := of_decide_eq_true (hl c List.mem_cons_self)
      have hzero : c.toNat = 48 ↔ c = '0' := by
        refine ⟨fun heq => ?_, fun heq => by rw [heq]; rfl⟩
        rw [← Char.ofNat_toNat c, heq]
      rw [List.foldl_cons, ih _ fun d hd => hl d (List.mem_cons_of_mem c hd), List.forall_mem_cons, ← and_assoc,
        ← hzero]
      refine and_congr_left fun _ => ?_
      omega
  rw [value, hfold text 0 h]
  exact and_iff_right rfl

/-- A count with a comma. -/
theorem unitCount_comma {text rest : List CodeUnit} (hne : text.takeWhile unitDigit ≠ [])
    (hcomma : text.dropWhile unitDigit = .char ',' :: rest) :
    unitCount text = match rest.dropWhile unitDigit with
      | .char '}' :: _ => some ((text.takeWhile unitDigit).all fun u => u = .char '0',
          (text.takeWhile unitDigit).length + (rest.takeWhile unitDigit).length + 2)
      | _ => none := by
  unfold unitCount
  dsimp only
  rw [if_neg hne, hcomma]
  rfl

theorem unitCount_of_count (h : countLength text = some k) :
    unitCount (units text) = some (decide (value (text.takeWhile digit) = 0), k) := by
  obtain ⟨htake, hdrop⟩ := span_unitDigit text
  have hzero : ((text.takeWhile digit).map CodeUnit.char).all (fun u => u = .char '0') =
      decide (value (text.takeWhile digit) = 0) := by
    rw [Bool.eq_iff_iff, List.all_eq_true, decide_eq_true_iff,
      value_eq_zero_iff fun c hc => List.mem_takeWhile_imp hc]
    simp
  obtain ⟨more, tail, hne, htext, hk, hmore⟩ := countLength_eq_some h
  have hbehind : text.dropWhile digit = more ++ tail :=
    List.append_cancel_left (List.takeWhile_append_dropWhile.trans htext)
  have hdigits : (units text).takeWhile unitDigit ≠ [] := by
    rw [htake]
    simpa using hne
  -- one number, or two with a comma between
  rcases hmore with rfl | ⟨most, hmost, rfl⟩
  · unfold unitCount
    dsimp only
    rw [if_neg hdigits, htake, hdrop, hbehind, hzero, hk, List.length_map]
    rfl
  · have hcomma : units (',' :: (most ++ ['}']) ++ tail) = .char ',' :: units (most ++ '}' :: tail) := by
      simp [units_cons_char]
    obtain ⟨htake', hdrop'⟩ := span_unitDigit (most ++ '}' :: tail)
    have hmostTake : (most ++ '}' :: tail).takeWhile digit = most := by
      rw [List.takeWhile_append_of_pos hmost, List.takeWhile_cons_of_neg (by decide), List.append_nil]
    have hmostDrop : (most ++ '}' :: tail).dropWhile digit = '}' :: tail := by
      rw [List.dropWhile_append_of_pos hmost, List.dropWhile_cons_of_neg (by decide)]
    rw [hmostTake] at htake'
    rw [hmostDrop, units_cons_char (by decide)] at hdrop'
    rw [unitCount_comma hdigits (by rw [hdrop, hbehind, hcomma]), htake, hzero, htake', hdrop', hk, List.length_map,
      List.length_map]
    simp only [List.length_cons, List.length_append, List.length_nil]
    congr 2

theorem bounds_spec {least : ℕ} {most : List Char} {q : Quantifier} (h : bounds least most = some q) :
    q.least = least ∧ ∀ m, q.most = some m → q.least ≤ m := by
  unfold bounds at h
  split_ifs at h with hmost hlt
  · obtain rfl := Option.some.inj h
    exact ⟨rfl, fun m hm => nomatch hm⟩
  · obtain rfl := Option.some.inj h
    exact ⟨rfl, fun m hm => Option.some.inj hm ▸ Nat.le_of_not_lt hlt⟩

/-- The bounds that rust reads in a count. -/
theorem count_bounds {q : Quantifier} {j : ℕ} (h : countLength text = some k) (hq : Rust.count text = some (q, j)) :
    j = k ∧ q.least = value (text.takeWhile digit) ∧ ∀ m, q.most = some m → q.least ≤ m := by
  obtain ⟨more, tail, hne, htext, -, -⟩ := countLength_eq_some h
  have hstart : text.dropWhile Pipeline.InFlight.isWhitespace = text := by
    obtain ⟨d, least, hleast⟩ := List.exists_cons_of_ne_nil hne
    have hd : digit d = true := List.mem_takeWhile_imp (p := digit) (l := text) (by rw [hleast]; exact List.mem_cons_self)
    rw [htext, hleast]
    exact List.dropWhile_cons_of_neg (Bool.eq_false_iff.mp (not_isWhitespace_of_digit hd))
  obtain ⟨q', -, hcount⟩ := count_same h
  have hj : j = k := by
    rw [hcount, Option.map_eq_some_iff] at hq
    obtain ⟨_, -, heq⟩ := hq
    exact (Prod.mk.inj heq).2.symm
  refine ⟨hj, ?_⟩
  obtain ⟨⟨q'', rest⟩, hrest, heq⟩ := Option.map_eq_some_iff.mp hq
  obtain ⟨rfl, -⟩ := Prod.mk.inj heq
  unfold Rust.countAndRest Rust.decimal at hrest
  rw [hstart] at hrest
  dsimp only at hrest
  split_ifs at hrest
  · cases hrest
    exact ⟨rfl, fun m hm => Option.some.inj hm ▸ Nat.le_refl _⟩
  · cases hrest
    exact ⟨rfl, fun m hm => nomatch hm⟩
  · obtain ⟨_, hbounds, heq⟩ := Option.map_eq_some_iff.mp hrest
    obtain ⟨rfl, -⟩ := Prod.mk.inj heq
    exact bounds_spec hbounds

/-! ### Texts that both cut alike -/

/-- What the translations write: known escapes, brackets that `bracketEnd` finds the end of, and other characters. -/
inductive Legible : List Char → Prop
  | nil : Legible []
  | dangling : Legible ['\\']
  | escape {n : Char} {rest : List Char} : n ∈ breSwapped ∨ n ∈ breSameEscape → (n = 'b' → rest.head? ≠ some '{') →
      Legible rest → Legible ('\\' :: n :: rest)
  | bracket {rest : List Char} {k : ℕ} : bracketEnd rest = some k → Legible (rest.drop (k + 1)) →
      Legible ('[' :: rest)
  | plain {c : Char} {rest : List Char} : c ≠ '\\' → c ≠ '[' → Legible rest → Legible (c :: rest)

/-- No `(?`, no count that `(\d+)(?:,\d*)?` does not describe, and no quantifier behind a character of two units. -/
def fairStep (c : Char) (rest : List Char) : Bool :=
  (c ≠ '(' || rest.head? ≠ some '?') && (c ≠ '{' || (countLength rest).isSome) &&
    (c.toNat < 0x10000 || !rest.head?.any fun q => q ∈ ['*', '+', '?', '{'])

/-- `fairStep` outside escapes and brackets. -/
def fair : ℕ → List Char → Bool
  | _, [] => true
  | skip + 1, _ :: rest => fair skip rest
  | 0, c :: rest =>
    if c = '\\' then fair 1 rest
    else if c = '[' then
      match bracketEnd rest with
      | some k => fair (k + 1) rest
      | none => true
    else fairStep c rest && fair 0 rest

theorem fair_drop (k : ℕ) (rest : List Char) : fair k rest = fair 0 (rest.drop k) := by
  induction k generalizing rest with
  | zero => rfl
  | succ k ih =>
    cases rest with
    | nil => rfl
    | cons c rest => exact ih rest

/-- An assertion. -/
def Token.asserts (t : Token) : Bool :=
  t ∈ [.hat, .dollar, .escape 'b', .escape 'B', .escape '<', .escape '>']

/-- No assertion, and no quantifier right behind a quantifier. -/
def Simple (ts : List Token) : Prop :=
  (∀ t ∈ ts, t.asserts = false) ∧ ∀ q q', ¬[Token.quant q, .quant q'] <:+: ts

theorem Simple.tail (h : Simple (tok :: ts)) : Simple ts :=
  ⟨fun t ht => h.1 t (List.mem_cons_of_mem _ ht), fun q q' hin => h.2 q q' (hin.trans (List.suffix_cons tok ts).isInfix)⟩

/-- A place in a text, with the tokens from there on. -/
structure At (exact : Prop) (text : List Char) (ts : List Token) : Prop where
  legible : Legible text
  alike : fair 0 text = true
  tokens : cut Rust.token 0 text = some ts
  simple : exact → Simple ts

/-- A token and the text behind it. -/
inductive Lexeme : List Char → Token → List Char → Prop
  | escape {n : Char} {rest : List Char} : n ∈ breSwapped ∨ n ∈ breSameEscape → (n = 'b' → rest.head? ≠ some '{') →
      Lexeme ('\\' :: n :: rest) (Rust.escape n rest) rest
  | bracket {rest : List Char} {k : ℕ} {negated : Bool} {l : List (Char × Char)} : bracketEnd rest = some k →
      Lexeme ('[' :: rest) (.members negated l) (rest.drop (k + 1))
  | count {rest : List Char} {k : ℕ} {q : Quantifier} : countLength rest = some k → Rust.count rest = some (q, k) →
      Lexeme ('{' :: rest) (.quant q) (rest.drop k)
  | plain {c : Char} {rest : List Char} : c ≠ '\\' → c ≠ '[' → c ≠ '{' → fairStep c rest = true →
      Lexeme (c :: rest) (Rust.plain c rest) rest

/-- A bracket that `bracketEnd` finds the end of, in rust. -/
theorem rust_bracket {j : ℕ} (h : bracketEnd rest = some k) (ht : Rust.bracket rest = some (tok, j)) :
    j = k + 1 ∧ ∃ negated l, tok = .members negated l := by
  obtain ⟨negated, chars, tail, hrest, -, hsame, hparts⟩ := bracketParts_of_bracketEnd h
  have hbad : ¬('\\' ∈ chars ∨ '[' ∈ chars ∨ Rust.doubled chars = true) := by
    rw [hsame.doubled]
    rintro (hbad | hbad | hbad)
    · exact hsame.escape hbad
    · exact hsame.opens hbad
    · cases hbad
  unfold Rust.bracket at ht
  rw [hrest, hparts, Option.bind_some] at ht
  dsimp only at ht
  rw [if_neg hbad, Option.map_eq_some_iff] at ht
  obtain ⟨l, -, heq⟩ := ht
  obtain ⟨rfl, rfl⟩ := Prod.mk.inj heq
  exact ⟨rfl, negated, l, rfl⟩

theorem escape_ne_beyond (hn : n ∈ breSwapped ∨ n ∈ breSameEscape) (hword : n = 'b' → rest.head? ≠ some '{') :
    Rust.escape n rest ≠ .beyond := by
  unfold Rust.escape
  by_cases hswapped : n ∈ breSwapped
  · rw [if_pos (show n ∈ ['(', ')', '{', '}', '+', '?', '|'] from hswapped)]
    exact (nomatch ·)
  · rw [if_neg (show n ∉ ['(', ')', '{', '}', '+', '?', '|'] from hswapped), if_neg fun h => hword h.1 h.2,
      if_pos (show n ∈ ['w', 's', 'S', 'b', 'B', '<', '>', '.', '*', '[', ']', '^', '$', '\\', '/'] from
        hn.resolve_left hswapped)]
    exact (nomatch ·)

theorem plain_ne_beyond (h : fairStep c rest = true) : Rust.plain c rest ≠ .beyond := by
  simp only [fairStep, Bool.and_eq_true, Bool.or_eq_true, decide_eq_true_iff] at h
  unfold Rust.plain
  split_ifs with hopen hflags
  · exact absurd hflags (h.1.1.resolve_left (not_not.mpr hopen))
  all_goals exact (nomatch ·)

/-- Behind ordinary characters a text is as legible and fair as before. -/
theorem legible_drop (h : Legible text) (hk : ∀ c ∈ text.take k, c ≠ '\\' ∧ c ≠ '[') (hfair : fair 0 text = true) :
    Legible (text.drop k) ∧ fair 0 (text.drop k) = true := by
  induction k generalizing text with
  | zero => exact ⟨h, hfair⟩
  | succ k ih =>
    cases text with
    | nil => exact ⟨h, hfair⟩
    | cons c text =>
      obtain ⟨hescape, hbracket⟩ := hk c (by simp)
      have hrest : Legible text := by
        cases h with
        | dangling => exact absurd rfl hescape
        | escape => exact absurd rfl hescape
        | bracket => exact absurd rfl hbracket
        | plain _ _ hrest => exact hrest
      rw [fair, if_neg hescape, if_neg hbracket, Bool.and_eq_true] at hfair
      exact ih hrest (fun d hd => hk d (by simp [hd])) hfair.2

/-- The first token at a place. -/
theorem At.cons (h : At exact (c :: rest) ts) : ∃ tok ts' t', ts = tok :: ts' ∧ Lexeme (c :: rest) tok t' ∧
    At exact t' ts' ∧ t'.length ≤ rest.length := by
  obtain ⟨hlegible, hfair, htokens, hsimple⟩ := h
  obtain ⟨tok, k, htoken, htail⟩ := cut_cons_inv htokens
  -- what is left behind the token is as legible as the text
  have hstep : ∀ {k' : ℕ} {tok' : Token}, tok = tok' → k = k' → tok' ≠ .beyond → Legible (rest.drop k') →
      fair 0 (rest.drop k') = true → Lexeme (c :: rest) tok' (rest.drop k') → ∃ tok ts' t', ts = tok :: ts' ∧
      Lexeme (c :: rest) tok t' ∧ At exact t' ts' ∧ t'.length ≤ rest.length := by
    rintro k' tok' rfl rfl hknown hlegible' hfair' hlexeme
    obtain ⟨ts', rfl, hcut⟩ := htail hknown
    refine ⟨tok, ts', rest.drop k, rfl, hlexeme, ⟨hlegible', hfair', hcut, fun hexact => (hsimple hexact).tail⟩, ?_⟩
    rw [List.length_drop]
    exact Nat.sub_le _ _
  cases hlegible with
  | dangling => cases htoken
  | @escape n rest hn hword hrest =>
    obtain ⟨rfl, rfl⟩ := Prod.mk.inj (Option.some.inj htoken)
    refine hstep rfl rfl (escape_ne_beyond hn hword) hrest ?_ (.escape hn hword)
    rwa [fair, if_pos rfl] at hfair
  | @bracket rest k' hend hrest =>
    have hbracket : Rust.bracket rest = some (tok, k) := htoken
    obtain ⟨rfl, negated, l, rfl⟩ := rust_bracket hend hbracket
    refine hstep rfl rfl (nomatch ·) hrest ?_ (.bracket hend)
    rw [fair, if_neg (by decide), if_pos rfl, hend] at hfair
    rwa [← fair_drop]
  -- a character of its own, or a count in braces
  | plain hescape hbracket hrest =>
    rw [fair, if_neg hescape, if_neg hbracket, Bool.and_eq_true] at hfair
    unfold Rust.token at htoken
    rw [if_neg hescape, if_neg hbracket] at htoken
    split_ifs at htoken with hcount
    · subst hcount
      obtain ⟨⟨q, k'⟩, hq, heq⟩ := Option.map_eq_some_iff.mp htoken
      obtain ⟨rfl, rfl⟩ := Prod.mk.inj heq
      have hsome : (countLength rest).isSome = true := by
        have hstep := hfair.1
        simp only [fairStep, Bool.and_eq_true, Bool.or_eq_true, decide_eq_true_iff] at hstep
        exact hstep.1.2.resolve_left (not_not.mpr rfl)
      obtain ⟨n, hn⟩ := Option.isSome_iff_exists.mp hsome
      obtain ⟨rfl, -, -⟩ := count_bounds hn hq
      have hchars : ∀ c ∈ rest.take k', c ≠ '\\' ∧ c ≠ '[' := by
        intro c hc
        rcases (mem_take_count hn).2 c hc with hdigit | rfl | rfl
        · exact ⟨fun heq => absurd (heq ▸ hdigit) (by decide), fun heq => absurd (heq ▸ hdigit) (by decide)⟩
        · decide
        · decide
      obtain ⟨hlegible', hfair'⟩ := legible_drop hrest hchars hfair.2
      exact hstep rfl rfl (nomatch ·) hlegible' hfair' (.count hn hq)
    · obtain ⟨rfl, rfl⟩ := Prod.mk.inj (Option.some.inj htoken)
      exact hstep rfl rfl (plain_ne_beyond hfair.1) hrest hfair.2 (.plain hescape hbracket hcount hfair.1)

/-! ### One atom -/

variable {word space : Char → Bool} {s : Reading} {r re : Re Char} {atEnd bad : Bool} {q : Quantifier}

/-- Neither a group, nor a bar, nor a quantifier. -/
def Token.single : Token → Bool
  | .lit _ | .escape _ | .any | .members .. | .hat | .dollar => true
  | _ => false

theorem escapeRe_tells (hexact : exact → (Token.escape n).asserts = false) :
    Tells exact (Token.escape n).asserts (escapeRe word space n) := by
  by_cases hassert : n ∈ ['b', 'B', '<', '>']
  · have htrue : (Token.escape n).asserts = true := by
      simpa [Token.asserts] using hassert
    rw [htrue] at hexact ⊢
    exact Re.tells_true fun h => Bool.false_ne_true (hexact h).symm
  · have hfalse : (Token.escape n).asserts = false := by
      simpa [Token.asserts] using hassert
    simp only [List.mem_cons, List.not_mem_nil, or_false, not_or] at hassert
    rw [hfalse]
    unfold escapeRe
    dsimp only
    rw [if_neg hassert.1, if_neg hassert.2.1, if_neg hassert.2.2.1, if_neg hassert.2.2.2]
    split_ifs <;> exact Re.tells_one _

/-- The reader puts a piece for an atom, and the atom's flag tells of it. -/
theorem step_single (h : tok.single = true) (hexact : exact → tok.asserts = false) : ∃ r last,
    s.step word space .rust atEnd tok = some (s.push r last) ∧ last ≠ .start ∧ last ≠ .repeated ∧
      Tells exact tok.asserts r := by
  have hnot : tok.asserts = true → ¬exact := fun htrue hexact' => Bool.false_ne_true ((hexact hexact').symm.trans htrue)
  cases tok with
  | lit c =>
    have hfalse : (Token.lit c).asserts = false := by simp [Token.asserts]
    exact ⟨_, _, rfl, (nomatch ·), (nomatch ·), hfalse ▸ Re.tells_one _⟩
  | escape n => exact ⟨_, _, rfl, (nomatch ·), (nomatch ·), escapeRe_tells hexact⟩
  | any => exact ⟨_, _, rfl, (nomatch ·), (nomatch ·), Re.tells_one _⟩
  | members negated l =>
    have hfalse : (Token.members negated l).asserts = false := by simp [Token.asserts]
    exact ⟨_, _, rfl, (nomatch ·), (nomatch ·), hfalse ▸ Re.tells_one _⟩
  | hat => exact ⟨_, _, rfl, (nomatch ·), (nomatch ·), Re.tells_look _ (hnot rfl)⟩
  | dollar => exact ⟨_, _, rfl, (nomatch ·), (nomatch ·), Re.tells_look _ (hnot rfl)⟩
  | bar | opened | closed | quant | beyond => cases h

theorem toNat_lt_of_escape (hn : n ∈ breSwapped ∨ n ∈ breSameEscape) : n.toNat < 0x10000 := by
  have hall : (breSwapped ++ breSameEscape).all (fun n => decide (n.toNat < 0x10000)) = true := by decide
  exact of_decide_eq_true (List.all_eq_true.mp hall n (List.mem_append.mpr hn))

theorem escape_asserts (hn : n ∈ breSwapped ∨ n ∈ breSameEscape) (hword : n = 'b' → rest.head? ≠ some '{') :
    (Rust.escape n rest).asserts = decide (n ∈ ['b', 'B', '<', '>']) ∧ (Rust.escape n rest).single = true := by
  unfold Rust.escape
  by_cases hswapped : n ∈ breSwapped
  · rw [if_pos (show n ∈ ['(', ')', '{', '}', '+', '?', '|'] from hswapped)]
    have hall : breSwapped.all (fun n => decide (n ∉ ['b', 'B', '<', '>'])) = true := by decide
    have hnot := of_decide_eq_true (List.all_eq_true.mp hall n hswapped)
    rw [decide_eq_false hnot]
    exact ⟨by simp [Token.asserts], rfl⟩
  · rw [if_neg (show n ∉ ['(', ')', '{', '}', '+', '?', '|'] from hswapped), if_neg fun h => hword h.1 h.2,
      if_pos (show n ∈ ['w', 's', 'S', 'b', 'B', '<', '>', '.', '*', '[', ']', '^', '$', '\\', '/'] from
        hn.resolve_left hswapped)]
    exact ⟨by simp [Token.asserts], rfl⟩

theorem plain_asserts (h : (Rust.plain c rest).single = true) :
    (Rust.plain c rest).asserts = decide (c = '^' ∨ c = '$') := by
  unfold Rust.plain at h ⊢
  split_ifs at h ⊢ with h₁ h₂ h₃ h₄ h₅ h₆ h₇ h₈ h₉ h₁₀
  all_goals cases h
  · subst h₈
    rfl
  · subst h₉
    rfl
  · subst h₁₀
    rfl
  · rw [decide_eq_false (not_or.mpr ⟨h₉, h₁₀⟩)]
    simp [Token.asserts]

theorem simpleAtom_bracket (rest : List CodeUnit) (bad : Bool) :
    simpleAtom ⟨.char '[' :: rest, bad⟩ = match unitBracketEnd rest with
      | none => (true, ⟨[], true⟩)
      | some n => (false, ⟨rest.drop (n + 1), bad⟩) := rfl

theorem simpleAtom_of_lexeme (h : Lexeme (c :: rest) tok t') (hsingle : tok.single = true) (hc : c.toNat < 0x10000) :
    simpleAtom ⟨units (c :: rest), bad⟩ = (tok.asserts, ⟨units t', bad⟩) := by
  rw [units_cons_char hc]
  cases h with
  | @escape n rest hn hword =>
    rw [units_cons_char (toNat_lt_of_escape hn), (escape_asserts hn hword).1]
    unfold simpleAtom
    simp
  | @bracket rest k negated l hend =>
    obtain ⟨m, hm, hdrop⟩ := unitBracketEnd_of_end hend
    have hfalse : (Token.members negated l).asserts = false := by simp [Token.asserts]
    rw [simpleAtom_bracket, hm, hfalse, ← hdrop]
  | count => cases hsingle
  | plain hescape hbracket hcount hfair =>
    rw [plain_asserts hsingle]
    unfold simpleAtom
    split
    case h_1 heq => exact absurd (CodeUnit.char.inj (List.cons.inj heq).1) hescape
    case h_2 heq => exact absurd (CodeUnit.char.inj (List.cons.inj heq).1) hbracket
    case h_3 =>
      show (decide (CodeUnit.char c = .char '^' ∨ CodeUnit.char c = .char '$'), _) = _
      simp

/-! ### Quantifiers -/

/-- The reader before a place from which it comes to `re`. -/
structure Reads (word space : Char → Bool) (exact : Prop) (re : Re Char) (s : Reading) (text : List Char)
    (ts : List Token) : Prop where
  place : At exact text ts
  read : s.read word space .rust ts = some re

theorem Reads.cons (h : Reads word space exact re s (c :: rest) ts) : ∃ tok ts' t' s', ts = tok :: ts' ∧
    Lexeme (c :: rest) tok t' ∧ s.step word space .rust (Reading.ends ts') tok = some s' ∧
    Reads word space exact re s' t' ts' ∧ t'.length ≤ rest.length := by
  obtain ⟨tok, ts', t', rfl, hlexeme, hplace, hlength⟩ := h.place.cons
  obtain ⟨s', hstep, hread⟩ := Option.bind_eq_some_iff.mp h.read
  exact ⟨tok, ts', t', s', rfl, hlexeme, hstep, ⟨hplace, hread⟩, hlength⟩

theorem quantifiers_drop (k : ℕ) (e : Bool) (u : List CodeUnit) : quantifiers k e u = quantifiers 0 e (u.drop k) := by
  induction k generalizing u with
  | zero => rfl
  | succ k ih =>
    cases u with
    | nil => rfl
    | cons x u => exact ih u

def quantifierChars : List Char := ['*', '+', '?', '{']

theorem quantifiers_stop (h : ∀ c, text.head? = some c → c ∉ quantifierChars) :
    quantifiers 0 e (units text) = (e, units text) := by
  have hne : ∀ c ∈ quantifierChars, (units text).head? ≠ some (.char c) := by
    intro c hc hhead
    have hsmall : c.toNat < 0x10000 := by
      have hall : quantifierChars.all (fun c => decide (c.toNat < 0x10000)) = true := by decide
      exact of_decide_eq_true (List.all_eq_true.mp hall c hc)
    exact h c ((head_units hsmall).mp hhead) hc
  cases hunits : units text with
  | nil => rfl
  | cons u rest =>
    rw [hunits] at hne
    simp only [quantifierChars, List.forall_mem_cons, List.head?_cons, ne_eq, Option.some.injEq] at hne
    rw [quantifiers, if_neg (by simp [hne]), if_neg hne.2.1, if_neg hne.2.2.2.1]

/-- A quantifier, for both. -/
theorem quantifiers_of_lexeme (h : Lexeme (c :: rest) (.quant q) t') :
    quantifiers 0 e (units (c :: rest)) = quantifiers 0 (e || decide (q.least = 0)) (units t') ∧
      ∀ m, q.most = some m → q.least ≤ m := by
  generalize htok : Token.quant q = tok at h
  -- of the tokens only a count and the three signs are quantifiers
  cases h with
  | escape hn hword =>
    have hsingle := (escape_asserts hn hword).2
    rw [← htok] at hsingle
    cases hsingle
  | bracket => cases htok
  | @count rest k q' hcount hq =>
    obtain rfl := Token.quant.inj htok
    obtain ⟨-, hleast, hle⟩ := count_bounds hcount hq
    refine ⟨?_, hle⟩
    rw [units_cons_char (by decide), quantifiers, if_neg (by simp), if_neg (by simp), if_pos rfl,
      unitCount_of_count hcount]
    dsimp only
    rw [quantifiers_drop, drop_units_count hcount, hleast]
  | plain hescape hbracket hbrace hfair =>
    unfold Rust.plain at htok
    split_ifs at htok with h₁ h₂ h₃ h₄ h₅ h₆ h₇
    · subst h₅
      obtain rfl := Token.quant.inj htok
      refine ⟨?_, fun m hm => nomatch hm⟩
      rw [units_cons_char (by decide), quantifiers, if_pos (.inl rfl)]
      simp [Quantifier.least]
    · subst h₆
      obtain rfl := Token.quant.inj htok
      refine ⟨?_, fun m hm => nomatch hm⟩
      rw [units_cons_char (by decide), quantifiers, if_neg (by simp), if_pos rfl]
      simp [Quantifier.least]
    · subst h₇
      obtain rfl := Token.quant.inj htok
      refine ⟨?_, fun m hm => Nat.zero_le m⟩
      rw [units_cons_char (by decide), quantifiers, if_pos (.inr rfl)]
      simp [Quantifier.least]

theorem quant_of_lexeme (h : Lexeme (c :: rest) tok t') (hc : c ∈ quantifierChars) : ∃ q, tok = .quant q := by
  cases h with
  | escape => exact absurd hc (by decide)
  | bracket => exact absurd hc (by decide)
  | count => exact ⟨_, rfl⟩
  | plain hescape hbracket hbrace hfair =>
    simp only [quantifierChars, List.mem_cons, List.not_mem_nil, or_false] at hc
    rcases hc with rfl | rfl | rfl | rfl
    · exact ⟨.star, rfl⟩
    · exact ⟨.plus, rfl⟩
    · exact ⟨.opt, rfl⟩
    · exact absurd rfl hbrace

theorem mem_of_quant (h : Lexeme (c :: rest) (.quant q) t') : c ∈ quantifierChars := by
  generalize htok : Token.quant q = tok at h
  cases h with
  | escape hn hword =>
    have hsingle := (escape_asserts hn hword).2
    rw [← htok] at hsingle
    cases hsingle
  | bracket => cases htok
  | count => decide
  | plain =>
    unfold Rust.plain at htok
    split_ifs at htok with h₁ h₂ h₃ h₄ h₅ h₆ h₇
    all_goals
      rw [‹c = _›]
      decide

/-- The reader's quantifier. A lazy one leaves the piece as it is, and comes behind another quantifier. -/
theorem quantify_tells {pieces : List (Re Char)} {s' : Reading} (hstep : s.quantify .rust q = some s')
    (hlast : s.last ≠ .start) (hpieces : s.inner.pieces = r :: pieces) (htells : Tells exact e r)
    (hle : ∀ m, q.most = some m → q.least ≤ m) (hfresh : exact → s.last ≠ .repeated) :
    ∃ r', s'.outer = s.outer ∧ s'.inner = ⟨s.inner.alternatives, r' :: pieces⟩ ∧ s'.last ≠ .start ∧
      Tells exact (e || decide (q.least = 0)) r' := by
  have hrepeat : s.repeatLast q = some s' → ∃ r', s'.outer = s.outer ∧
      s'.inner = ⟨s.inner.alternatives, r' :: pieces⟩ ∧ s'.last ≠ .start ∧
      Tells exact (e || decide (q.least = 0)) r' := by
    intro h
    rw [Reading.repeatLast, hpieces] at h
    obtain rfl := Option.some.inj h
    exact ⟨.rep r q.least q.most, rfl, rfl, (nomatch ·), htells.rep hle⟩
  unfold Reading.quantify at hstep
  cases hs : s.last with
  | start => exact absurd hs hlast
  | hat => rw [hs] at hstep; exact hrepeat hstep
  | piece => rw [hs] at hstep; exact hrepeat hstep
  | repeated =>
    rw [hs] at hstep
    dsimp only at hstep
    split_ifs at hstep with hopt
    · obtain rfl := Option.some.inj hstep
      have htrue : (e || decide (q.least = 0)) = true := by
        rw [hopt]
        exact Bool.or_true e
      refine ⟨r, rfl, by rw [← hpieces], (nomatch ·), ?_⟩
      rw [htrue]
      exact Re.tells_true fun hexact => hfresh hexact hs
    · exact hrepeat hstep

/-- The loop over the quantifiers behind a piece. -/
theorem quantifiers_tells {pieces : List (Re Char)} (h : Reads word space exact re s t ts) (hlast : s.last ≠ .start)
    (hpieces : s.inner.pieces = r :: pieces) (htells : Tells exact e r)
    (hfresh : exact → s.last ≠ .repeated ∨ ∀ q, ts.head? ≠ some (.quant q)) : ∃ e' t' ts' s' r',
    quantifiers 0 e (units t) = (e', units t') ∧ Reads word space exact re s' t' ts' ∧ s'.outer = s.outer ∧
      s'.inner = ⟨s.inner.alternatives, r' :: pieces⟩ ∧ Tells exact e' r' ∧ ∀ q, ts'.head? ≠ some (.quant q) := by
  -- A count takes several characters, so the induction is on a bound of the length.
  suffices hbound : ∀ (m : ℕ) {t : List Char} {ts : List Token} {s : Reading} {r : Re Char} {e : Bool}, t.length ≤ m →
      Reads word space exact re s t ts → s.last ≠ .start → s.inner.pieces = r :: pieces → Tells exact e r →
      (exact → s.last ≠ .repeated ∨ ∀ q, ts.head? ≠ some (.quant q)) → ∃ e' t' ts' s' r',
      quantifiers 0 e (units t) = (e', units t') ∧ Reads word space exact re s' t' ts' ∧ s'.outer = s.outer ∧
        s'.inner = ⟨s.inner.alternatives, r' :: pieces⟩ ∧ Tells exact e' r' ∧ ∀ q, ts'.head? ≠ some (.quant q) from
    hbound _ (Nat.le_refl _) h hlast hpieces htells hfresh
  intro m
  induction m with
  | zero =>
    intro t ts s r e hlength h _ hpieces htells _
    obtain rfl := List.length_eq_zero_iff.mp (Nat.le_zero.mp hlength)
    have hnil : ts = [] := (Option.some.inj h.place.tokens).symm
    exact ⟨e, [], ts, s, r, rfl, h, rfl, by rw [← hpieces], htells, by simp [hnil]⟩
  | succ m ih =>
    intro t ts s r e hlength h hlast hpieces htells hfresh
    cases t with
    | nil => exact ih (Nat.zero_le m) h hlast hpieces htells hfresh
    | cons c rest =>
      obtain ⟨tok, ts', t', s', rfl, hlexeme, hstep, hreads, hle⟩ := h.cons
      by_cases hquant : ∃ q, tok = .quant q
      · obtain ⟨q, rfl⟩ := hquant
        obtain ⟨hunits, hbounds⟩ := quantifiers_of_lexeme (e := e) hlexeme
        have hfresh' : exact → s.last ≠ .repeated := fun hexact =>
          (hfresh hexact).resolve_right fun hne => hne q rfl
        obtain ⟨r', houter, hinner, hlast', htells'⟩ := quantify_tells hstep hlast hpieces htells hbounds hfresh'
        have hnext : exact → s'.last ≠ .repeated ∨ ∀ q, ts'.head? ≠ some (.quant q) := by
          refine fun hexact => .inr fun q' hhead => ?_
          obtain ⟨ts'', rfl⟩ := List.head?_eq_some_iff.mp hhead
          exact (h.place.simple hexact).2 q q' ⟨[], ts'', rfl⟩
        obtain ⟨e', t'', ts'', s'', r'', heq, hreads', houter', hinner', htells'', hstop⟩ :=
          ih (by simp only [List.length_cons] at hlength; omega) hreads hlast' (by rw [hinner]) htells' hnext
        refine ⟨e', t'', ts'', s'', r'', hunits.trans heq, hreads', houter'.trans houter, ?_, htells'', hstop⟩
        rw [hinner', hinner]
      · have hchar : ∀ d, (c :: rest).head? = some d → d ∉ quantifierChars := by
          rintro d hd hmem
          obtain rfl := Option.some.inj hd
          exact hquant (quant_of_lexeme hlexeme hmem)
        refine ⟨e, c :: rest, tok :: ts', s, r, quantifiers_stop hchar, h, rfl, by rw [← hpieces], htells, ?_⟩
        intro q hq
        exact hquant ⟨q, Option.some.inj hq⟩

/-! ### The descent -/

theorem fairStep_of_lexeme (h : Lexeme (c :: rest) tok t') (hc : ¬c.toNat < 0x10000) :
    tok = .lit c ∧ t' = rest ∧ ∀ d, rest.head? = some d → d ∉ quantifierChars := by
  have hne : ∀ d : Char, d.toNat < 0x10000 → c ≠ d := by
    rintro d hd rfl
    exact hc hd
  cases h with
  | escape => exact absurd rfl (hne '\\' (by decide))
  | bracket => exact absurd rfl (hne '[' (by decide))
  | count => exact absurd rfl (hne '{' (by decide))
  | plain hescape hbracket hbrace hfair =>
    refine ⟨?_, rfl, ?_⟩
    · unfold Rust.plain
      rw [if_neg (hne '(' (by decide)), if_neg (hne ')' (by decide)), if_neg (hne '|' (by decide)),
        if_neg (hne '*' (by decide)), if_neg (hne '+' (by decide)), if_neg (hne '?' (by decide)),
        if_neg (hne '.' (by decide)), if_neg (hne '^' (by decide)), if_neg (hne '$' (by decide))]
    · intro d hd hmem
      simp only [fairStep, Bool.and_eq_true, Bool.or_eq_true, decide_eq_true_iff] at hfair
      have hnone := hfair.2.resolve_left hc
      rw [hd] at hnone
      exact absurd hmem (by simpa [quantifierChars] using hnone)

theorem token_of_delimiter (h : Lexeme (c :: rest) tok t') (hc : c ∈ ['(', ')', '|']) :
    tok = Rust.plain c rest ∧ t' = rest := by
  cases h with
  | escape => exact absurd hc (by decide)
  | bracket => exact absurd hc (by decide)
  | count => exact absurd hc (by decide)
  | plain => exact ⟨rfl, rfl⟩

theorem opened_of_lexeme (h : Lexeme ('(' :: rest) tok t') : tok = .opened ∧ t' = rest := by
  generalize hc : '(' = c at h
  obtain ⟨htok, ht⟩ := token_of_delimiter h (by rw [← hc]; decide)
  refine ⟨?_, ht⟩
  cases h with
  | escape => exact absurd hc (by decide)
  | bracket => exact absurd hc (by decide)
  | count => exact absurd hc (by decide)
  | plain _ _ _ hfair =>
    have hknown := plain_ne_beyond hfair
    subst hc
    rw [Rust.plain, if_pos rfl] at hknown ⊢
    exact if_neg fun hflags => hknown (if_pos hflags)

theorem single_of_lexeme (h : Lexeme (c :: rest) tok t') (hc : c ∉ ['(', ')', '|']) (hquant : ∀ q, tok ≠ .quant q) :
    tok.single = true := by
  cases h with
  | escape hn hword => exact (escape_asserts hn hword).2
  | bracket => rfl
  | count => exact absurd rfl (hquant _)
  | plain =>
    simp only [List.mem_cons, List.not_mem_nil, or_false, not_or] at hc
    revert hquant
    unfold Rust.plain
    rw [if_neg hc.1, if_neg hc.2.1, if_neg hc.2.2]
    split_ifs
    all_goals first
      | exact fun _ => rfl
      | exact fun hquant => absurd rfl (hquant _)

/-- Half a character is an atom. -/
theorem seq_half {all : Bool} (h : seq (fuel + 1) all ⟨.half :: u, bad⟩ = some (e, p))
    (hquant : quantifiers 0 false u = (false, u)) : seq fuel false ⟨u, bad⟩ = some (e, p) := by
  rw [seq, if_neg (by simp)] at h
  cases fuel with
  | zero => cases h
  | succ fuel =>
    rw [atom, if_neg (by simp), Option.bind_some] at h
    have hatom : simpleAtom ⟨.half :: u, bad⟩ = (false, ⟨u, bad⟩) := rfl
    rw [hatom] at h
    dsimp only at h
    rw [hquant, Bool.and_false] at h
    exact h

/-- Where a call left off, and the reader there. -/
structure Behind (word space : Char → Bool) (exact : Prop) (re : Re Char) (outer : List Group) (bad : Bool) (p : Place)
    (text : List Char) (ts : List Token) (s : Reading) : Prop where
  place : p = ⟨units text, bad⟩
  reads : Reads word space exact re s text ts
  outer : s.outer = outer

section

variable (word space : Char → Bool) (exact : Prop) (re : Re Char)

def AltTells (fuel : ℕ) : Prop := ∀ {outer : List Group} {t : List Char} {ts : List Token} {bad e : Bool} {p : Place},
  Reads word space exact re ⟨outer, ⟨[], []⟩, .start⟩ t ts → alt fuel ⟨units t, bad⟩ = some (e, p) →
  ∃ t' ts' s', Behind word space exact re outer bad p t' ts' s' ∧ Tells exact e s'.inner.re ∧
    (t' = [] ∨ t'.head? = some ')')

def BarsTells (fuel : ℕ) : Prop := ∀ {s : Reading} {t : List Char} {ts : List Token} {bad any e : Bool} {p : Place},
  Reads word space exact re s t ts → Tells exact any s.inner.re →
  t = [] ∨ t.head? = some '|' ∨ t.head? = some ')' → bars fuel any ⟨units t, bad⟩ = some (e, p) →
  ∃ t' ts' s', Behind word space exact re s.outer bad p t' ts' s' ∧ Tells exact e s'.inner.re ∧
    (t' = [] ∨ t'.head? = some ')')

def SeqTells (fuel : ℕ) : Prop := ∀ {s : Reading} {t : List Char} {ts : List Token} {bad all e : Bool} {p : Place},
  Reads word space exact re s t ts → s.last = .start ∨ (∀ q, ts.head? ≠ some (.quant q)) →
  Tells exact all (Re.seqAll s.inner.pieces) → seq fuel all ⟨units t, bad⟩ = some (e, p) →
  ∃ t' ts' s', Behind word space exact re s.outer bad p t' ts' s' ∧
    s'.inner.alternatives = s.inner.alternatives ∧ Tells exact e (Re.seqAll s'.inner.pieces) ∧
    (t' = [] ∨ t'.head? = some '|' ∨ t'.head? = some ')')

def AtomTells (fuel : ℕ) : Prop := ∀ {s : Reading} {c : Char} {rest : List Char} {ts : List Token} {bad e : Bool}
  {p : Place}, Reads word space exact re s (c :: rest) ts → (∀ q, ts.head? ≠ some (.quant q)) → c.toNat < 0x10000 →
  c ≠ '|' → c ≠ ')' → atom fuel ⟨units (c :: rest), bad⟩ = some (e, p) →
  ∃ t' ts' s' r, Behind word space exact re s.outer bad p t' ts' s' ∧
    s'.inner = ⟨s.inner.alternatives, r :: s.inner.pieces⟩ ∧ s'.last ≠ .start ∧ s'.last ≠ .repeated ∧ Tells exact e r

end

section

variable {word space : Char → Bool} {exact : Prop} {re : Re Char}

/-- The reader never comes to its end inside a group. -/
theorem Reads.outer_eq_nil (h : Reads word space exact re s [] ts) : s.outer = [] ∧ s.inner.re = re := by
  obtain rfl : ts = [] := (Option.some.inj h.place.tokens).symm
  have hread := h.read
  rw [Reading.read] at hread
  split_ifs at hread with houter
  exact ⟨List.isEmpty_iff.mp houter, Option.some.inj hread⟩

/-- Behind the `)` of a group. -/
theorem Reads.closed (h : Reads word space exact re s (')' :: rest) ts) : ∃ g outer ts', s.outer = g :: outer ∧
    Reads word space exact re (Reading.push s.inner.re .piece ⟨outer, g, .piece⟩) rest ts' := by
  obtain ⟨tok, ts', t', s', rfl, hlexeme, hstep, hreads, -⟩ := h.cons
  obtain ⟨rfl, rfl⟩ := token_of_delimiter hlexeme (by decide)
  rw [show Rust.plain ')' t' = .closed from rfl, Reading.step] at hstep
  split at hstep
  case h_1 => cases hstep
  case h_2 g outer houter =>
    obtain rfl := Option.some.inj hstep
    exact ⟨g, outer, ts', houter, hreads⟩

theorem atomTells (halt : AltTells word space exact re fuel) : AtomTells word space exact re (fuel + 1) := by
  intro s c rest ts bad e p h hquant hsmall hbar hclose hatom
  obtain ⟨tok, ts', t', s', rfl, hlexeme, hstep, hreads, -⟩ := h.cons
  have hquant' : ∀ q, tok ≠ .quant q := fun q heq => hquant q (by rw [heq]; rfl)
  rw [atom] at hatom
  by_cases hopen : c = '('
  · -- The descent into a group leaves off at its `)`, as the reader would be in the group at the end of the text.
    subst hopen
    obtain ⟨rfl, rfl⟩ := opened_of_lexeme hlexeme
    rw [units_cons_char hsmall, if_pos (List.head?_cons ..), Option.map_eq_some_iff] at hatom
    obtain ⟨⟨inner, q⟩, hq, heq⟩ := hatom
    obtain rfl := Option.some.inj hstep
    obtain ⟨t, ts, s', ⟨rfl, hreads', houter⟩, htells, hend⟩ := halt hreads hq
    rcases hend with rfl | hhead
    · rw [hreads'.outer_eq_nil.1] at houter
      cases houter
    · obtain ⟨rest, rfl⟩ := List.head?_eq_some_iff.mp hhead
      obtain ⟨g, outer, ts', houter', hbehind⟩ := hreads'.closed
      obtain ⟨rfl, rfl⟩ := List.cons.inj (houter'.symm.trans houter)
      obtain ⟨rfl, rfl⟩ := Prod.mk.inj heq
      refine ⟨rest, ts', _, s'.inner.re, ⟨?_, hbehind, rfl⟩, rfl, (nomatch ·), (nomatch ·), htells⟩
      rw [units_cons_char (by decide)]
      simp
  · have hnot : c ∉ ['(', ')', '|'] := by
      simp only [List.mem_cons, List.not_mem_nil, or_false, not_or]
      exact ⟨hopen, hclose, hbar⟩
    have hsingle := single_of_lexeme hlexeme hnot hquant'
    have hhead : (units (c :: rest)).head? ≠ some (.char '(') := by
      rw [units_cons_char hsmall]
      simpa using hopen
    rw [if_neg hhead, simpleAtom_of_lexeme hlexeme hsingle hsmall] at hatom
    obtain ⟨rfl, rfl⟩ := Prod.mk.inj (Option.some.inj hatom)
    have hexact : exact → tok.asserts = false := fun hexact =>
      (h.place.simple hexact).1 tok List.mem_cons_self
    obtain ⟨r, last, hpush, hstart, hrepeated, htells⟩ := step_single hsingle hexact
    obtain rfl := Option.some.inj (hpush.symm.trans hstep)
    exact ⟨t', ts', s.push r last, r, ⟨rfl, hreads, rfl⟩, rfl, hstart, hrepeated, htells⟩

theorem seqTells (hseq : ∀ n ≤ fuel, SeqTells word space exact re n) (hatom : AtomTells word space exact re fuel) :
    SeqTells word space exact re (fuel + 1) := by
  intro s t ts bad all e p h hfresh htells hrun
  cases t with
  | nil =>
    rw [seq, if_pos (.inl rfl)] at hrun
    obtain ⟨rfl, rfl⟩ := Prod.mk.inj (Option.some.inj hrun)
    exact ⟨[], ts, s, ⟨rfl, h, rfl⟩, rfl, htells, .inl rfl⟩
  | cons c rest =>
    by_cases hsmall : c.toNat < 0x10000
    -- The sequence stops at a bar and at a closing parenthesis.
    · have hstop : units (c :: rest) = [] ∨ (units (c :: rest)).head? = some (.char '|') ∨
          (units (c :: rest)).head? = some (.char ')') ↔ c = '|' ∨ c = ')' := by
        rw [units_cons_char hsmall]
        simp
      by_cases hends : c = '|' ∨ c = ')'
      · rw [seq, if_pos (hstop.mpr hends)] at hrun
        obtain ⟨rfl, rfl⟩ := Prod.mk.inj (Option.some.inj hrun)
        refine ⟨c :: rest, ts, s, ⟨rfl, h, rfl⟩, rfl, htells, .inr ?_⟩
        rcases hends with rfl | rfl
        · exact .inl rfl
        · exact .inr rfl
      -- A quantifier cannot stand first: the reader would have refused it.
      · have hfirst : ∀ q, ts.head? ≠ some (.quant q) := by
          rcases hfresh with hlast | hnone
          · intro q hq
            obtain ⟨tok, ts', t', s', rfl, -, hstep, -⟩ := h.cons
            obtain rfl := Option.some.inj hq
            rw [Reading.step] at hstep
            unfold Reading.quantify at hstep
            rw [hlast] at hstep
            cases hstep
          · exact hnone
        rw [seq, if_neg (mt hstop.mp hends), Option.bind_eq_some_iff] at hrun
        obtain ⟨⟨empty, q⟩, hq, hrest⟩ := hrun
        rw [not_or] at hends
        -- The atom, its quantifier, then the rest by the hypothesis on the fuel.
        obtain ⟨t', ts', s', r, ⟨rfl, hreads, houter⟩, hinner, hstart, hrepeated, hpiece⟩ :=
          hatom h hfirst hsmall hends.1 hends.2 hq
        obtain ⟨e', t'', ts'', s'', r', hunits, hreads', houter', hinner', hpiece', hnext⟩ :=
          quantifiers_tells hreads hstart (by rw [hinner]) hpiece fun _ => .inl hrepeated
        dsimp only at hrest
        rw [hunits] at hrest
        have hpieces : Tells exact (all && e') (Re.seqAll s''.inner.pieces) := by
          rw [hinner']
          exact htells.seqAll_cons hpiece'
        obtain ⟨t₃, ts₃, s₃, hbehind, halternatives, htells', hlast⟩ :=
          hseq fuel (Nat.le_refl fuel) hreads' (.inr hnext) hpieces hrest
        refine ⟨t₃, ts₃, s₃, ⟨hbehind.place, hbehind.reads, ?_⟩, ?_, htells', hlast⟩
        · rw [hbehind.outer, houter', houter]
        · rw [halternatives, hinner', hinner]
    · -- Both halves of such a character are atoms, and the reader takes it as one.
      obtain ⟨tok, ts', t', s', rfl, hlexeme, hstep, hreads, -⟩ := h.cons
      obtain ⟨rfl, rfl, hhead⟩ := fairStep_of_lexeme hlexeme hsmall
      obtain rfl := Option.some.inj hstep
      have hunits : units (c :: t') = .half :: .half :: units t' := by
        rw [units_cons, unitsOf, if_neg hsmall]
        rfl
      rw [hunits] at hrun
      have hsecond := seq_half hrun (by simp [quantifiers])
      cases fuel with
      | zero => cases hsecond
      | succ fuel =>
        have hbehind := seq_half hsecond (quantifiers_stop hhead)
        -- No quantifier can follow: it would bind to the second half only.
        have hnext : ∀ q, ts'.head? ≠ some (.quant q) := by
          intro q hq
          cases t' with
          | nil =>
            obtain rfl : ts' = [] := (Option.some.inj hreads.place.tokens).symm
            cases hq
          | cons d rest =>
            obtain ⟨tok, ts'', t'', s'', rfl, hlexeme', -⟩ := hreads.cons
            obtain rfl := Option.some.inj hq
            exact hhead d rfl (mem_of_quant hlexeme')
        have hone : Tells exact false (.one (· = c)) := Re.tells_one _
        have hpieces := htells.seqAll_cons hone
        rw [Bool.and_false] at hpieces
        obtain ⟨t₂, ts₂, s₂, hleft, htold⟩ := hseq fuel (Nat.le_succ fuel) hreads (.inr hnext) hpieces hbehind
        exact ⟨t₂, ts₂, s₂, hleft, htold⟩

theorem barsTells (hseq : SeqTells word space exact re fuel) (hbars : BarsTells word space exact re fuel) :
    BarsTells word space exact re (fuel + 1) := by
  intro s t ts bad any e p h htells hstop hrun
  by_cases hbar : t.head? = some '|'
  · obtain ⟨rest, rfl⟩ := List.head?_eq_some_iff.mp hbar
    obtain ⟨tok, ts', t', s', rfl, hlexeme, hstep, hreads, -⟩ := h.cons
    obtain ⟨rfl, rfl⟩ := token_of_delimiter hlexeme (by decide)
    obtain rfl := Option.some.inj hstep
    rw [bars, if_pos ((head_units (by decide)).mpr hbar), Option.bind_eq_some_iff] at hrun
    obtain ⟨⟨more, q⟩, hq, hrest⟩ := hrun
    rw [units_cons_char (by decide)] at hq
    obtain ⟨t₂, ts₂, s₂, ⟨rfl, hreads', houter⟩, halternatives, hmore, hstop'⟩ := hseq hreads (.inl rfl) Re.tells_empty hq
    have hinner : Tells exact (more || any) s₂.inner.re := by
      rw [Group.re, halternatives]
      exact htells.altAll_cons hmore
    obtain ⟨t₃, ts₃, s₃, hbehind, htells', hend⟩ := hbars hreads' hinner hstop' hrest
    exact ⟨t₃, ts₃, s₃, ⟨hbehind.place, hbehind.reads, hbehind.outer.trans houter⟩, htells', hend⟩
  · rw [bars, if_neg fun hhead => hbar ((head_units (by decide)).mp hhead)] at hrun
    obtain ⟨rfl, rfl⟩ := Prod.mk.inj (Option.some.inj hrun)
    refine ⟨t, ts, s, ⟨rfl, h, rfl⟩, htells, ?_⟩
    rcases hstop with hnil | hhead | hclose
    · exact .inl hnil
    · exact absurd hhead hbar
    · exact .inr hclose

theorem altTells (hseq : SeqTells word space exact re fuel) (hbars : BarsTells word space exact re fuel) :
    AltTells word space exact re (fuel + 1) := by
  intro outer t ts bad e p h hrun
  obtain ⟨⟨any, q⟩, hq, hrest⟩ := Option.bind_eq_some_iff.mp hrun
  obtain ⟨t', ts', s', ⟨rfl, hreads, houter⟩, halternatives, htells, hstop⟩ := hseq h (.inl rfl) Re.tells_empty hq
  have hinner : Tells exact any s'.inner.re := by
    rw [Group.re, halternatives]
    exact htells
  obtain ⟨t'', ts'', s'', hbehind, htells', hend⟩ := hbars hreads hinner hstop hrest
  exact ⟨t'', ts'', s'', ⟨hbehind.place, hbehind.reads, hbehind.outer.trans houter⟩, htells', hend⟩

theorem calls_tell (fuel : ℕ) : AltTells word space exact re fuel ∧ BarsTells word space exact re fuel ∧
    SeqTells word space exact re fuel ∧ AtomTells word space exact re fuel := by
  induction fuel using Nat.strong_induction_on with
  | _ fuel ih =>
    cases fuel with
    | zero =>
      refine ⟨fun _ h => ?_, fun _ _ _ h => ?_, fun _ _ _ h => ?_, fun _ _ _ _ _ h => ?_⟩
      all_goals cases h
    | succ fuel =>
      obtain ⟨halt, hbars, hseq, hatom⟩ := ih fuel (Nat.lt_succ_self fuel)
      exact ⟨altTells hseq hbars, barsTells hseq hbars,
        seqTells (fun n hn => (ih n (Nat.lt_succ_of_le hn)).2.2.1) hatom, atomTells halt⟩

/-- Where rust reads a text that both cut alike, `matchesEmpty` tells of what it reads. -/
theorem matchesEmpty_tells (h : At exact text ts) (hread : Reading.start.read word space .rust ts = some re)
    (hmatches : matchesEmpty text = some e) : Tells exact e re := by
  obtain ⟨⟨b, p⟩, hrun, rfl⟩ := Option.map_eq_some_iff.mp hmatches
  obtain ⟨t', ts', s', ⟨rfl, hreads, houter⟩, htells, hend⟩ := (calls_tell _).1 ⟨h, hread⟩ hrun
  rcases hend with rfl | hhead
  · obtain rfl := hreads.outer_eq_nil.2
    exact htells
  · obtain ⟨rest, rfl⟩ := List.head?_eq_some_iff.mp hhead
    obtain ⟨g, outer, ts'', houter', -⟩ := hreads.closed
    rw [houter] at houter'
    cases houter'

end

/-! ### What the translations write -/

variable {perl : Bool} {f : Flags} {scan : Scan}

theorem Legible.of_drop (h : Legible (text.drop k)) (hk : ∀ c ∈ text.take k, c ≠ '\\' ∧ c ≠ '[') : Legible text := by
  induction k generalizing text with
  | zero => exact h
  | succ k ih =>
    cases text with
    | nil => exact h
    | cons c text =>
      obtain ⟨hescape, hbracket⟩ := hk c (by simp)
      exact .plain hescape hbracket (ih h fun d hd => hk d (by simp [hd]))

theorem legible_of_portable (h : portableLoop perl 0 f text = true) : Legible text := by
  -- a step can take more than a character, so the induction is on the length
  suffices hbound : ∀ (m : ℕ) {f : Flags} {text : List Char}, text.length ≤ m → portableLoop perl 0 f text = true →
      Legible text from hbound _ (Nat.le_refl _) h
  intro m
  induction m with
  | zero =>
    intro f text hm _
    obtain rfl := List.length_eq_zero_iff.mp (Nat.le_zero.mp hm)
    exact .nil
  | succ m ih =>
    intro f text hm h
    cases text with
    | nil => exact .nil
    | cons c rest =>
      obtain ⟨f', n, hstep, hloop⟩ := portableLoop_cons h
      have hrest : Legible (rest.drop n) := by
        refine ih ?_ hloop
        rw [List.length_cons] at hm
        rw [List.length_drop]
        omega
      obtain ⟨rfl, rfl, x, after, rfl, hx, rfl⟩ | ⟨rfl, -, hcount, -⟩ | ⟨rfl, -, k, hk, rfl⟩ | ⟨hc, rfl, -⟩ :=
        portableStep_eq_some hstep
      · refine .escape ?_ ?_ hrest
        · have hall : (extSameEscape ++ ['<', '>']).all (fun x => decide (x ∈ breSwapped ∨ x ∈ breSameEscape)) = true :=
            by decide
          refine of_decide_eq_true (List.all_eq_true.mp hall x (List.mem_append.mpr (hx.imp_right fun h => ?_)))
          rcases h.2 with rfl | rfl <;> decide
        · rintro rfl
          exact (head_of_not_repeats hloop fun h => Bool.noConfusion h.2.2).2.2
      · refine .plain (by decide) (by decide) (hrest.of_drop fun d hd => ?_)
        rcases (mem_take_count hcount).2 d hd with hdigit | rfl | rfl
        · exact ⟨fun heq => absurd (heq ▸ hdigit) (by decide), fun heq => absurd (heq ▸ hdigit) (by decide)⟩
        · decide
        · decide
      · exact .bracket hk hrest
      · simp only [List.mem_cons, List.not_mem_nil, or_false, not_or] at hc
        exact .plain hc.1 hc.2.2.1 hrest

theorem bracketLoop_take (h : bracketLoop rest = some k) (tail : List Char) : (rest.take (k + 1)).length = k + 1 ∧
    (rest.take (k + 1) ++ tail).head? = rest.head? ∧ bracketLoop (rest.take (k + 1) ++ tail) = some k := by
  induction rest generalizing k with
  | nil => cases h
  | cons c rest ih =>
    rw [bracketLoop] at h
    split_ifs at h with hclose hbad hdouble
    · obtain rfl := Option.some.inj h
      subst hclose
      exact ⟨rfl, rfl, rfl⟩
    · obtain ⟨k, hk, rfl⟩ := Option.map_eq_some_iff.mp h
      obtain ⟨hlength, hhead, hends⟩ := ih hk
      rw [List.take_succ_cons, List.length_cons, hlength, List.cons_append, bracketLoop, if_neg hclose, if_neg hbad,
        hhead, if_neg hdouble, hends]
      exact ⟨rfl, rfl, rfl⟩

/-- The end of a bracket does not depend on what is behind it. -/
theorem bracketEnd_take (h : bracketEnd rest = some k) (tail : List Char) :
    (rest.take (k + 1)).length = k + 1 ∧ bracketEnd (rest.take (k + 1) ++ tail) = some k := by
  unfold bracketEnd at h ⊢
  dsimp only at h ⊢
  by_cases hhat : rest.head? = some '^'
  · obtain ⟨body, rfl⟩ := List.head?_eq_some_iff.mp hhat
    rw [if_pos hhat, List.drop_one, List.tail_cons] at h
    split_ifs at h with hfirst
    obtain ⟨k, hk, rfl⟩ := Option.map_eq_some_iff.mp h
    obtain ⟨hlength, hhead, hends⟩ := bracketLoop_take hk tail
    rw [Nat.add_comm 1 k, List.take_succ_cons, List.length_cons, hlength, List.cons_append, List.head?_cons, if_pos rfl,
      List.drop_one, List.tail_cons, hhead, if_neg hfirst, hends, Option.map_some, Nat.add_comm 1 k]
    exact ⟨rfl, rfl⟩
  · rw [if_neg hhat, List.drop_zero] at h
    split_ifs at h with hfirst
    obtain ⟨k, hk, rfl⟩ := Option.map_eq_some_iff.mp h
    obtain ⟨hlength, hhead, hends⟩ := bracketLoop_take hk tail
    rw [Nat.zero_add, hhead, if_neg hhat, List.drop_zero, hhead, if_neg hfirst, hends, Option.map_some, Nat.zero_add]
    exact ⟨hlength, rfl⟩

/-- The translation of the rest behind what is written. -/
theorem legible_of_scan (h : scanLoop 0 scan rest = some text) :
    ∃ text', text = scan.out ++ text' ∧ Legible text' := by
  suffices hbound : ∀ (m : ℕ) {scan : Scan} {rest text : List Char}, rest.length ≤ m →
      scanLoop 0 scan rest = some text → ∃ text', text = scan.out ++ text' ∧ Legible text' from
    hbound _ (Nat.le_refl _) h
  intro m
  induction m with
  | zero =>
    intro scan rest text hm h
    obtain rfl := List.length_eq_zero_iff.mp (Nat.le_zero.mp hm)
    exact ⟨[], by rw [List.append_nil]; exact (Option.some.inj h).symm, .nil⟩
  | succ m ih =>
    intro scan rest text hm h
    cases rest with
    | nil => exact ⟨[], by rw [List.append_nil]; exact (Option.some.inj h).symm, .nil⟩
    | cons c rest =>
      rw [List.length_cons, Nat.succ_le_succ_iff] at hm
      obtain ⟨rfl, n, after, s', rfl, hs', hloop⟩ | ⟨rfl, k, hk, hloop⟩ | ⟨hbracket, hlone, s', hs', hloop⟩ :=
        scanLoop_cons h
      · rw [List.length_cons] at hm
        obtain ⟨text', rfl, hlegible⟩ := ih (by omega) hloop
        obtain ⟨rfl, hn, -⟩ := scanEscape_eq_some hs'
        refine ⟨escapeText n ++ text', List.append_assoc .., ?_⟩
        unfold escapeText
        split_ifs with hswapped
        · refine .plain ?_ ?_ hlegible
          · rintro rfl
            exact absurd hswapped (by decide)
          · rintro rfl
            exact absurd hswapped (by decide)
        · refine .escape hn ?_ hlegible
          rintro rfl hhead
          obtain ⟨r, rfl⟩ := List.head?_eq_some_iff.mp hhead
          -- A quantifier behind an assertion is not translated.
          obtain ⟨after', rfl⟩ := head_of_scan hloop (by decide)
          obtain ⟨-, x, after'', s'', hcons, hs'', -⟩ | ⟨heq, -⟩ | ⟨-, hnil, -⟩ := scanLoop_cons hloop
          · obtain ⟨rfl, -⟩ := List.cons.inj hcons
            exact absurd ((scanEscape_eq_some hs'').2.2 (by decide)) (by simp)
          · exact absurd heq (by decide)
          · cases hnil rfl
      · obtain ⟨text', rfl, hlegible⟩ := ih (by rw [List.length_drop]; omega) hloop
        obtain ⟨hlength, hends⟩ := bracketEnd_take hk text'
        refine ⟨'[' :: (rest.take (k + 1) ++ text'), by simp, .bracket hends ?_⟩
        rwa [List.drop_left' hlength]
      · obtain ⟨text', rfl, hlegible⟩ := ih hm hloop
        obtain ⟨rfl, -⟩ := scanChar_eq_some hs'
        refine ⟨charText c ++ text', List.append_assoc .., ?_⟩
        unfold charText
        split_ifs with hswapped
        · refine .escape (.inl hswapped) ?_ hlegible
          rintro rfl
          exact absurd hswapped (by decide)
        · by_cases hescape : c = '\\'
          · obtain rfl := hlone hescape
            have hnil : text' = [] := List.self_eq_append_right.mp (Option.some.inj hloop)
            rw [hescape, hnil]
            exact .dangling
          · exact .plain hescape hbracket hlegible

theorem legible_of_translated (h : breToRustRegex rest = some text ∨ ∃ perl, portableExtended rest perl = some text) :
    Legible text := by
  rcases h with hbasic | ⟨perl, hextended⟩
  · obtain ⟨text', rfl, hlegible⟩ := legible_of_scan hbasic
    exact hlegible
  · rw [portableExtended] at hextended
    split_ifs at hextended with hloop
    obtain rfl := Option.some.inj hextended
    exact legible_of_portable hloop

/-! ### The translations -/

theorem Lexeme.ne_beyond (h : Lexeme text tok t') : tok ≠ .beyond := by
  cases h with
  | escape hn hword => exact escape_ne_beyond hn hword
  | bracket => exact (nomatch ·)
  | count => exact (nomatch ·)
  | plain _ _ _ hfair => exact plain_ne_beyond hfair

theorem At.beyond (h : At exact text ts) : .beyond ∉ ts := by
  suffices hbound : ∀ (m : ℕ) {text : List Char} {ts : List Token}, text.length ≤ m → At exact text ts → .beyond ∉ ts from
    hbound _ (Nat.le_refl _) h
  intro m
  induction m with
  | zero =>
    intro text ts hm h
    obtain rfl := List.length_eq_zero_iff.mp (Nat.le_zero.mp hm)
    obtain rfl := Option.some.inj h.tokens
    exact List.not_mem_nil
  | succ m ih =>
    intro text ts hm h
    cases text with
    | nil =>
      obtain rfl := Option.some.inj h.tokens
      exact List.not_mem_nil
    | cons c rest =>
      obtain ⟨tok, ts', t', rfl, hlexeme, hplace, hlength⟩ := h.cons
      rw [List.mem_cons, not_or]
      rw [List.length_cons] at hm
      exact ⟨hlexeme.ne_beyond.symm, ih (by omega) hplace⟩

/-- It returns, no regex that it passes by matches nothing, and every other one does that has neither assertions nor
quantifiers behind quantifiers. -/
def TellsEmpty (word space : Char → Bool) (beyond : List Char → Option (Re Char)) (r : List Char) : Prop :=
  ∃ b, matchesEmpty r = some b ∧ ∀ re, Rust.read word space beyond r = some re →
    (b = false → re.Consumes) ∧ ((∀ ts, cut Rust.token 0 r = some ts → Simple ts) → b = true → re.MatchesEmpty)

/-- Of the texts that the hook passes on, `matchesEmpty` tells this where both cut them alike. -/
theorem tellsEmpty_of_fair (pattern r : List Char) (h : breToRustRegex pattern = some r ∨
    ∃ perl, portableExtended pattern perl = some r) (hfair : fair 0 r = true) (word space : Char → Bool)
    (beyond : List Char → Option (Re Char)) : TellsEmpty word space beyond r := by
  obtain ⟨b, hb⟩ := Option.isSome_iff_exists.mp (matchesEmpty_isSome r)
  refine ⟨b, hb, fun re hread => ?_⟩
  obtain ⟨ts, hts, hread⟩ := Option.bind_eq_some_iff.mp hread
  have hat : At (Simple ts) r ts := ⟨legible_of_translated h, hfair, hts, id⟩
  rw [if_neg hat.beyond] at hread
  have htells := matchesEmpty_tells hat hread hb
  exact ⟨htells.sound, fun hsimple => htells.complete (hsimple ts hts)⟩

theorem tellsEmpty_of_fair_group : fair 0 "(a|b{0,2})+$".toList = true ∧
    TellsEmpty (fun c => c.isAlphanum) (fun c => c.isWhitespace) (fun _ => none) "(a|b{0,2})+$".toList :=
  ⟨by decide, tellsEmpty_of_fair "(a|b{0,2})+$".toList _ (.inr ⟨false, by decide⟩) (by decide) _ _ _⟩

/-- Rust allows blanks in a count, the descent takes them for characters to match. -/
theorem not_tellsEmpty : breToRustRegex "a\\\x7b 0\\\x7d".toList = some "a{ 0}".toList ∧
    ∀ word space beyond, ¬TellsEmpty word space beyond "a{ 0}".toList := by
  refine ⟨by decide, fun word space beyond => ?_⟩
  rintro ⟨b, hb, htells⟩
  have hfalse : matchesEmpty "a{ 0}".toList = some false := by decide
  obtain rfl := Option.some.inj (hb.symm.trans hfalse)
  have hread : Rust.read word space beyond "a{ 0}".toList =
      some (.seq (.rep (.one (· = 'a')) 0 (some 0)) .empty) := by
    have hcut : cut Rust.token 0 "a{ 0}".toList = some [.lit 'a', .quant (.count 0 (some 0))] := by decide
    rw [Rust.read, hcut, Option.bind_some, if_neg (by decide)]
    rfl
  exact (htells _ hread).1 rfl [] 0 (Nat.le_refl 0) ⟨0, Re.between_refl rfl, rfl⟩

end CodeGraph.Plugin.Patterns
