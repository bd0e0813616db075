import CodeGraph.Graph.Src

/-!
# What the bracket index answers

`Indexed s p` says what the variables of `Src::new` are after the bytes `s`. The stack of indices names the stack of
`opens`, each bracket knows the top of that stack just after it, and each opener where the scan from it has come to an
end. `Pass.byte` keeps this (`Indexed.opener`, `Indexed.closer`), and `src_answers` reads the answers off it.
-/

namespace CodeGraph.Graph.Boundaries

open CodeGraph.Lib

variable {s t rest m : List UInt8} {p p' : Pass} {b c : UInt8} {j k pos : ℕ}

/-- The pass after the bytes `s`. -/
structure Indexed (s : List UInt8) (p : Pass) : Prop where
  sorted : p.brackets.Pairwise (· < ·)
  mem : ∀ j, j ∈ p.brackets ↔ ∃ b, s[j]? = some b ∧ bracketKind b ≠ none
  closeLength : p.close.length = p.brackets.length
  openLength : p.openAfter.length = p.brackets.length
  stack : p.stack.map (p.brackets[·]?) = (opens bracketKind s).map some
  openAfter : ∀ k j : ℕ, p.brackets[k]? = some j →
    p.openAfter[k]? = some (opens bracketKind (s.take (j + 1))).head?
  close : ∀ (k j : ℕ) (b : UInt8), p.brackets[k]? = some j → s[j]? = some b → bracketKind b = some .opener →
    p.close[k]? = some ((closing bracketKind 1 (s.drop (j + 1))).map (j + 1 + ·))

theorem indexed_nil : Indexed [] ⟨[], [], [], []⟩ where
  sorted := List.Pairwise.nil
  mem j := by simp
  closeLength := rfl
  openLength := rfl
  stack := rfl
  openAfter k j h := by simp at h
  close k j b h := by simp at h

theorem Indexed.lt (h : Indexed s p) (hk : p.brackets[k]? = some j) : j < s.length := by
  obtain ⟨b, hb, -⟩ := (h.mem j).mp (List.mem_of_getElem? hk)
  exact (List.getElem?_eq_some_iff.mp hb).1

/-- What the new byte changes of the brackets, when it is one. -/
theorem Indexed.getElem?_concat (h : Indexed s p) (hk : (p.brackets ++ [s.length])[k]? = some j) :
    (p.brackets[k]? = some j ∧ j < s.length ∧ k < p.brackets.length) ∨ (k = p.brackets.length ∧ j = s.length) := by
  rcases Nat.lt_trichotomy k p.brackets.length with hlt | heq | hgt
  · rw [List.getElem?_append_left hlt] at hk
    exact .inl ⟨hk, h.lt hk, hlt⟩
  · rw [heq, List.getElem?_concat_length] at hk
    exact .inr ⟨heq, (Option.some.inj hk).symm⟩
  · rw [List.getElem?_eq_none (by rw [List.length_append, List.length_singleton]; omega)] at hk
    cases hk

/-- The part of the index that any bracket extends in the same way. -/
theorem Indexed.mem_concat (h : Indexed s p) (hb : bracketKind b ≠ none) :
    j ∈ p.brackets ++ [s.length] ↔ ∃ c, (s ++ [b])[j]? = some c ∧ bracketKind c ≠ none := by
  rw [List.mem_append, h.mem, List.mem_singleton]
  constructor
  · rintro (⟨c, hc, hkind⟩ | rfl)
    · have hlt := (List.getElem?_eq_some_iff.mp hc).1
      exact ⟨c, by rw [List.getElem?_append_left hlt, hc], hkind⟩
    · exact ⟨b, List.getElem?_concat_length, hb⟩
  · rintro ⟨c, hc, hkind⟩
    rcases Nat.lt_trichotomy j s.length with hlt | heq | hgt
    · rw [List.getElem?_append_left hlt] at hc
      exact .inl ⟨c, hc, hkind⟩
    · exact .inr heq
    · rw [List.getElem?_eq_none (by rw [List.length_append, List.length_singleton]; omega)] at hc
      cases hc

theorem Indexed.sorted_concat (h : Indexed s p) : (p.brackets ++ [s.length]).Pairwise (· < ·) := by
  rw [List.pairwise_append]
  refine ⟨h.sorted, List.pairwise_singleton _ _, ?_⟩
  intro j hj j' hj'
  rw [List.mem_singleton.mp hj']
  obtain ⟨k, hk⟩ := List.getElem?_of_mem hj
  exact h.lt hk

/-- A further bracket does not move those on the stack. -/
theorem Indexed.stack_concat (h : Indexed s p) :
    p.stack.map ((p.brackets ++ [j])[·]?) = (opens bracketKind s).map some := by
  rw [← h.stack]
  refine List.map_congr_left fun k hk => ?_
  have hmem : p.brackets[k]? ∈ (opens bracketKind s).map some := by
    rw [← h.stack]
    exact List.mem_map_of_mem hk
  obtain ⟨o, -, ho⟩ := List.mem_map.mp hmem
  exact List.getElem?_append_left (List.getElem?_eq_some_iff.mp ho.symm).1

theorem split_at (hj : s[j]? = some c) : s = s.take j ++ c :: s.drop (j + 1) ∧ (s.take j).length = j := by
  obtain ⟨hlt, hget⟩ := List.getElem?_eq_some_iff.mp hj
  refine ⟨?_, List.length_take_of_le hlt.le⟩
  rw [← hget, List.getElem_cons_drop, List.take_append_drop]

theorem closing_drop_eq_none (hj : s[j]? = some c) (hc : bracketKind c = some .opener) :
    closing bracketKind 1 (s.drop (j + 1)) = none ↔ j ∈ opens bracketKind s := by
  obtain ⟨hsplit, hlength⟩ := split_at hj
  have hnone := closing_eq_none (s := s.take j) (t := s.drop (j + 1)) hc
  rwa [← hsplit, hlength] at hnone

/-- How a further byte moves the end of the scan from an opener. -/
theorem closing_drop (hj : s[j]? = some c) (hc : bracketKind c = some .opener) :
    closing bracketKind 1 ((s ++ [b]).drop (j + 1)) =
      if closing bracketKind 1 (s.drop (j + 1)) = none ∧ bracketKind b = some .closer ∧
          (opens bracketKind s).head? = some j then
        some (s.length - (j + 1))
      else closing bracketKind 1 (s.drop (j + 1)) := by
  obtain ⟨hsplit, hlength⟩ := split_at hj
  have hlt := (List.getElem?_eq_some_iff.mp hj).1
  have hconcat := closing_concat (s := s.take j) (t := s.drop (j + 1)) (c := b) hc
  rw [← hsplit, hlength, List.length_drop] at hconcat
  rw [List.drop_append_of_le_length (by omega), hconcat]

/-- A byte that is no bracket changes nothing. -/
theorem Indexed.plain (h : Indexed s p) (hb : bracketKind b = none) : Indexed (s ++ [b]) p := by
  have hopens : opens bracketKind (s ++ [b]) = opens bracketKind s :=
    opens_append_of_plain fun c hc => by rw [List.mem_singleton.mp hc, hb]
  -- the new byte is no bracket, so every bracket is one of the text before
  have hget : ∀ (j : ℕ) (c : UInt8), (s ++ [b])[j]? = some c → bracketKind c ≠ none → s[j]? = some c := by
    intro j c hc hkind
    rcases Nat.lt_trichotomy j s.length with hlt | heq | hgt
    · rwa [List.getElem?_append_left hlt] at hc
    · rw [heq, List.getElem?_concat_length] at hc
      rw [← Option.some.inj hc, hb] at hkind
      exact absurd rfl hkind
    · rw [List.getElem?_eq_none (by rw [List.length_append, List.length_singleton]; omega)] at hc
      cases hc
  constructor
  case sorted => exact h.sorted
  case mem =>
    intro j
    rw [h.mem]
    constructor
    · rintro ⟨c, hc, hkind⟩
      exact ⟨c, by rw [List.getElem?_append_left (List.getElem?_eq_some_iff.mp hc).1, hc], hkind⟩
    · rintro ⟨c, hc, hkind⟩
      exact ⟨c, hget j c hc hkind, hkind⟩
  case closeLength => exact h.closeLength
  case openLength => exact h.openLength
  case stack => rw [hopens, h.stack]
  case openAfter =>
    intro k j hk
    rw [h.openAfter k j hk, List.take_append_of_le_length (h.lt hk)]
  case close =>
    intro k j c hk hj hc
    have hj' := hget j c hj (by rw [hc]; exact Option.some_ne_none _)
    rw [h.close k j c hk hj' hc, closing_drop hj' hc, if_neg]
    rintro ⟨-, hcloser, -⟩
    rw [hb] at hcloser
    cases hcloser

/-- A bracket extends the lists by one, and may close another. -/
theorem Indexed.bracket (h : Indexed s p) (hb : bracketKind b ≠ none) {close : List (Option ℕ)} {after : Option ℕ}
    {stack : List ℕ} (hlength : close.length = p.brackets.length)
    (hclose : ∀ (k j : ℕ) (c : UInt8), p.brackets[k]? = some j → s[j]? = some c → bracketKind c = some .opener →
      close[k]? = some ((closing bracketKind 1 ((s ++ [b]).drop (j + 1))).map (j + 1 + ·)))
    (hafter : after = (opens bracketKind (s ++ [b])).head?)
    (hstack : stack.map ((p.brackets ++ [s.length])[·]?) = (opens bracketKind (s ++ [b])).map some) :
    Indexed (s ++ [b]) ⟨p.brackets ++ [s.length], close ++ [none], p.openAfter ++ [after], stack⟩ where
  sorted := h.sorted_concat
  mem j := h.mem_concat hb
  closeLength := by simp [hlength]
  openLength := by simp [h.openLength]
  stack := hstack
  openAfter k j hk := by
    dsimp only at hk ⊢
    rcases h.getElem?_concat hk with ⟨hk, hj, hlt⟩ | ⟨rfl, rfl⟩
    · rw [List.getElem?_append_left (by rw [h.openLength]; exact hlt), h.openAfter k j hk,
        List.take_append_of_le_length (by omega)]
    · rw [← h.openLength, List.getElem?_concat_length, hafter, List.take_of_length_le (by simp)]
  close k j c hk hj hc := by
    dsimp only at hk ⊢
    rcases h.getElem?_concat hk with ⟨hk, hlt, hk'⟩ | ⟨rfl, rfl⟩
    · rw [List.getElem?_append_left hlt] at hj
      rw [List.getElem?_append_left (by rw [hlength]; exact hk'), hclose k j c hk hj hc]
    · -- nothing follows the new bracket yet
      rw [← hlength, List.getElem?_concat_length, List.drop_eq_nil_of_le (by simp)]
      rfl

/-- A closer closes the opener on top of the stack. -/
theorem Indexed.closeTop (h : Indexed s p) (hb : bracketKind b = some .closer) :
    ∃ close, p.closeTop s.length = .ok close ∧ close.length = p.brackets.length ∧
      ∀ (k j : ℕ) (c : UInt8), p.brackets[k]? = some j → s[j]? = some c → bracketKind c = some .opener →
        close[k]? = some ((closing bracketKind 1 ((s ++ [b]).drop (j + 1))).map (j + 1 + ·)) := by
  have hstack := h.stack
  unfold Pass.closeTop
  cases hp : p.stack with
  | nil =>
    rw [hp] at hstack
    have hopens : opens bracketKind s = [] := (List.map_eq_nil_iff.mp hstack.symm)
    refine ⟨p.close, rfl, h.closeLength, fun k j c hk hj hc => ?_⟩
    rw [h.close k j c hk hj hc, closing_drop hj hc, if_neg]
    rintro ⟨-, -, hhead⟩
    rw [hopens] at hhead
    cases hhead
  | cons top stack =>
    cases hopens : opens bracketKind s with
    | nil =>
      rw [hp, hopens] at hstack
      cases hstack
    | cons o os =>
      rw [hp, hopens] at hstack
      have htop : p.brackets[top]? = some o := (List.cons_eq_cons.mp hstack).1
      have hlt : top < p.close.length := by
        rw [h.closeLength]
        exact (List.getElem?_eq_some_iff.mp htop).1
      refine ⟨p.close.set top (some s.length), if_pos hlt, by rw [List.length_set, h.closeLength], ?_⟩
      intro k j c hk hj hc
      rw [closing_drop hj hc]
      by_cases hkt : k = top
      · -- the bracket on top of the stack
        subst hkt
        obtain rfl : o = j := Option.some.inj (htop.symm.trans hk)
        rw [List.getElem?_set_self hlt, if_pos]
        · have := h.lt hk
          rw [Option.map_some, show o + 1 + (s.length - (o + 1)) = s.length by omega]
        · refine ⟨(closing_drop_eq_none hj hc).mpr ?_, hb, by rw [hopens]; rfl⟩
          rw [hopens]
          exact List.mem_cons_self
      · rw [List.getElem?_set_ne (Ne.symm hkt), h.close k j c hk hj hc, if_neg]
        rintro ⟨-, -, hhead⟩
        -- an index is found at one place only
        rw [hopens] at hhead
        obtain rfl : o = j := Option.some.inj hhead
        obtain ⟨hklt, hkj⟩ := List.getElem?_eq_some_iff.mp hk
        obtain ⟨htlt, htj⟩ := List.getElem?_eq_some_iff.mp htop
        have hnodup : p.brackets.Nodup := h.sorted.imp Nat.ne_of_lt
        exact hkt ((List.Nodup.getElem_inj_iff hnodup).mp (hkj.trans htj.symm))

/-- The opener that the top of a stack of indices names. -/
theorem innermost_eq {stack brackets os : List ℕ} (h : stack.map (brackets[·]?) = os.map some) :
    innermost brackets stack = .ok os.head? := by
  unfold innermost
  cases stack with
  | nil =>
    rw [List.map_eq_nil_iff.mp h.symm]
    rfl
  | cons k stack =>
    cases os with
    | nil => cases h
    | cons o os =>
      have hk : brackets[k]? = some o := (List.cons_eq_cons.mp h).1
      show some <$> elemAt brackets k = _
      unfold elemAt
      rw [hk]
      rfl

/-- What one byte does to the index. -/
theorem Indexed.byte (h : Indexed s p) (b : UInt8) : ∃ p', p.byte s.length b = .ok p' ∧ Indexed (s ++ [b]) p' := by
  unfold Pass.byte
  split
  case h_1 hb =>
    refine ⟨_, rfl, h.bracket (by rw [hb]; exact Option.some_ne_none _) h.closeLength ?_ ?_ ?_⟩
    · intro k j c hk hj hc
      rw [h.close k j c hk hj hc, closing_drop hj hc, if_neg]
      rintro ⟨-, hcloser, -⟩
      rw [hb] at hcloser
      cases hcloser
    · rw [opens_concat, openStep, hb]
      rfl
    · rw [opens_concat, openStep, hb, List.map_cons, h.stack_concat, List.getElem?_concat_length]
      rfl
  case h_2 hb =>
    have hkind : bracketKind b ≠ none := by rw [hb]; exact Option.some_ne_none _
    have hopens : opens bracketKind (s ++ [b]) = (opens bracketKind s).tail := by rw [opens_concat, openStep, hb]
    have htail : p.stack.tail.map ((p.brackets ++ [s.length])[·]?) = (opens bracketKind (s ++ [b])).map some := by
      rw [hopens, List.map_tail, h.stack_concat, List.map_tail]
    obtain ⟨close, hset, hlength, hclose⟩ := h.closeTop hb
    rw [hset, innermost_eq htail]
    exact ⟨_, rfl, h.bracket hkind hlength hclose rfl htail⟩
  case h_3 hb => exact ⟨p, rfl, h.plain hb⟩

/-- The whole pass. -/
theorem Indexed.bytes (h : Indexed s p) (rest : List UInt8) :
    ∃ p', p.bytes s.length rest = .ok p' ∧ Indexed (s ++ rest) p' := by
  induction rest generalizing s p with
  | nil => exact ⟨p, rfl, by rwa [List.append_nil]⟩
  | cons b rest ih =>
    obtain ⟨q, hq, hindexed⟩ := h.byte b
    obtain ⟨p', hp', hall⟩ := ih hindexed
    refine ⟨p', ?_, by rwa [List.append_assoc] at hall⟩
    rw [List.length_append, List.length_singleton] at hp'
    rw [Pass.bytes, hq]
    exact hp'

/-! ### Lines -/

/-- The starts of the lines after the first, where the text is at offset `i`. -/
def startsFrom (i : ℕ) (m : List UInt8) : List ℕ :=
  ((m.zipIdx i).filter fun bi => bi.1 == newline).map fun bi => bi.2 + 1

theorem startsFrom_cons (i : ℕ) : startsFrom i (b :: m) =
    if b = newline then (i + 1) :: startsFrom (i + 1) m else startsFrom (i + 1) m := by
  unfold startsFrom
  rw [List.zipIdx_cons, List.filter_cons]
  by_cases hb : b = newline <;> simp [hb]

theorem mem_startsFrom {i n : ℕ} (h : n ∈ startsFrom i m) : i < n ∧ n ≤ i + m.length := by
  induction m generalizing i with
  | nil => cases h
  | cons b m ih =>
    rw [startsFrom_cons] at h
    rw [List.length_cons]
    split_ifs at h with hb
    · rcases List.mem_cons.mp h with rfl | h
      · omega
      · have := ih h
        omega
    · have := ih h
      omega

theorem startsFrom_pairwise (i : ℕ) : (startsFrom i m).Pairwise (· < ·) := by
  induction m generalizing i with
  | nil => exact List.Pairwise.nil
  | cons b m ih =>
    rw [startsFrom_cons]
    split_ifs with hb
    · exact List.pairwise_cons.mpr ⟨fun n hn => (mem_startsFrom hn).1, ih (i + 1)⟩
    · exact ih (i + 1)

theorem partitionPoint_startsFrom (i pos : ℕ) :
    partitionPoint (· ≤ pos) (startsFrom i m) = (m.take (pos - i)).count newline := by
  induction m generalizing i with
  | nil => rw [List.take_nil]; rfl
  | cons b m ih =>
    have ih := ih (i + 1)
    unfold partitionPoint at ih ⊢
    rw [startsFrom_cons]
    by_cases hpos : pos ≤ i
    · -- every start from here on is behind the position
      have hnone : ∀ n ∈ startsFrom (i + 1) m, ¬decide (n ≤ pos) = true := by
        intro n hn
        have := (mem_startsFrom hn).1
        rw [decide_eq_true_iff]
        omega
      rw [show pos - i = 0 by omega, List.take_zero, List.count_nil, List.length_eq_zero_iff]
      have hle : ¬i + 1 ≤ pos := by omega
      split_ifs with hb
      · rw [List.takeWhile_cons_of_neg (by simpa using hle)]
      · rw [List.takeWhile_eq_nil_iff]
        intro hlen
        exact hnone _ (List.getElem_mem hlen)
    · rw [show pos - i = pos - (i + 1) + 1 by omega, List.take_succ_cons, List.count_cons, ← ih]
      by_cases hb : b = newline
      · rw [if_pos hb, List.takeWhile_cons_of_pos (by simp; omega), List.length_cons, if_pos (beq_iff_eq.mpr hb)]
      · rw [if_neg hb, if_neg (by simpa using hb)]
        rfl

theorem lineStarts_eq : lineStarts m = 0 :: startsFrom 0 m := rfl

theorem partitionPoint_lineStarts (pos : ℕ) :
    partitionPoint (· ≤ pos) (lineStarts m) = (m.take pos).count newline + 1 := by
  rw [lineStarts_eq]
  unfold partitionPoint
  rw [List.takeWhile_cons_of_pos (by simp), List.length_cons]
  exact congrArg (· + 1) (partitionPoint_startsFrom 0 pos)

/-- The slice that `line_of` takes is in range. -/
theorem lineOf_ok (src : Src) (hm : src.lineStarts = lineStarts src.m) (pos : ℕ) :
    ∃ line, src.lineOf pos = .ok line := by
  have hno : src.lineNo pos = (src.m.take pos).count newline + 1 := by
    rw [Src.lineNo, hm, partitionPoint_lineStarts]
  have hle : src.lineNo pos ≤ src.lineStarts.length :=
    (List.takeWhile_prefix _).length_le
  -- the starts of the lines go up, and none is past the text
  have hpairwise : (lineStarts src.m).Pairwise (· < ·) :=
    List.pairwise_cons.mpr ⟨fun n hn => (mem_startsFrom hn).1, startsFrom_pairwise 0⟩
  have hmem : ∀ n ∈ lineStarts src.m, n ≤ src.m.length := by
    intro n hn
    rcases List.mem_cons.mp hn with rfl | hn
    · exact Nat.zero_le _
    · have := (mem_startsFrom hn).2
      omega
  rw [← hm] at hpairwise hmem
  unfold Src.lineOf
  rw [hno] at hle ⊢
  generalize (src.m.take pos).count newline = l at hle ⊢
  have hstart : elemAt src.lineStarts l = .ok src.lineStarts[l] := by
    unfold elemAt
    rw [List.getElem?_eq_getElem (by omega)]
  show ∃ line, (elemAt src.lineStarts l >>= fun lo => src.lineEnd (l + 1) >>= fun hi =>
    trimAscii <$> slice src.m lo hi) = .ok line
  -- the line ends before the next start, or with the text
  obtain ⟨hi, hend, hlo, hhi⟩ : ∃ hi, src.lineEnd (l + 1) = .ok hi ∧ src.lineStarts[l] ≤ hi ∧ hi ≤ src.m.length := by
    unfold Src.lineEnd
    cases hnext : src.lineStarts[l + 1]? with
    | none => exact ⟨_, rfl, hmem _ (List.getElem_mem _), le_rfl⟩
    | some n =>
      obtain ⟨hlt, hn⟩ := List.getElem?_eq_some_iff.mp hnext
      have hless : src.lineStarts[l] < n := by
        rw [← hn]
        exact List.pairwise_iff_getElem.mp hpairwise l (l + 1) _ hlt (Nat.lt_succ_self l)
      have hlast : n ≤ src.m.length := by
        rw [← hn]
        exact hmem _ (List.getElem_mem _)
      exact ⟨n - 1, if_neg (by omega), by omega, by omega⟩
  refine ⟨trimAscii ((src.m.take hi).drop src.lineStarts[l]), ?_⟩
  rw [hstart, hend]
  show trimAscii <$> slice src.m src.lineStarts[l] hi = _
  rw [slice, if_pos ⟨hlo, hhi⟩]
  rfl

/-! ### The answers -/

/-- In an ascending list the partition point parts the indices. -/
theorem lt_partitionPoint_iff {xs : List ℕ} (h : xs.Pairwise (· < ·)) {i x : ℕ} (hx : xs[i]? = some x) :
    i < partitionPoint (· < pos) xs ↔ x < pos := by
  unfold partitionPoint
  induction xs generalizing i with
  | nil => cases hx
  | cons y xs ih =>
    obtain ⟨hy, hxs⟩ := List.pairwise_cons.mp h
    by_cases hpos : y < pos
    · rw [List.takeWhile_cons_of_pos (by simpa using hpos), List.length_cons]
      cases i with
      | zero =>
        obtain rfl := Option.some.inj hx
        exact iff_of_true (Nat.succ_pos _) hpos
      | succ i => rw [← ih hxs hx, Nat.add_lt_add_iff_right]
    · rw [List.takeWhile_cons_of_neg (by simpa using hpos)]
      refine iff_of_false (Nat.not_lt_zero _) ?_
      cases i with
      | zero =>
        obtain rfl := Option.some.inj hx
        exact hpos
      | succ i =>
        have := hy x (List.mem_of_getElem? hx)
        omega

/-- Between the last bracket before a position and the position the stack stays. -/
theorem Indexed.opens_take (h : Indexed m p) {lo : ℕ} (hlo : lo ≤ pos)
    (hnone : ∀ j, j ∈ p.brackets → lo ≤ j → pos ≤ j) :
    opens bracketKind (m.take pos) = opens bracketKind (m.take lo) := by
  have hsplit : m.take pos = m.take lo ++ (m.take pos).drop lo := by
    conv_lhs => rw [← List.take_append_drop lo (m.take pos), List.take_take, min_eq_left hlo]
  rw [hsplit]
  refine opens_append_of_plain fun c hc => ?_
  by_contra hkind
  obtain ⟨i, hi⟩ := List.getElem?_of_mem hc
  rw [List.getElem?_drop] at hi
  have hlt := (List.getElem?_eq_some_iff.mp hi).1
  rw [List.length_take] at hlt
  rw [List.getElem?_take_of_lt (by omega)] at hi
  have := hnone (lo + i) ((h.mem _).mpr ⟨c, hi, hkind⟩) (by omega)
  omega

theorem Indexed.enclosingOpener (h : Indexed m p) {src : Src} (hbrackets : src.brackets = p.brackets)
    (hopen : src.openAfter = p.openAfter) : src.enclosingOpener pos =
      .ok ((enclosing bracketKind 0 (m.take pos).reverse).filter fun o => pos ≤ o + 4096) := by
  have hnear : (fun o => decide (pos - 4096 ≤ o)) = fun o => decide (pos ≤ o + 4096) := by
    funext o
    rw [decide_eq_decide]
    omega
  have hpart : ∀ {i x : ℕ}, p.brackets[i]? = some x → (i < partitionPoint (· < pos) p.brackets ↔ x < pos) :=
    fun hx => lt_partitionPoint_iff h.sorted hx
  unfold Src.enclosingOpener
  rw [hbrackets, hopen, enclosing_eq, ← List.head?_eq_getElem?]
  split
  case h_1 hk =>
    -- there is no bracket before the position
    rw [hk] at hpart
    have hnone : opens bracketKind (m.take pos) = [] := by
      rw [h.opens_take (Nat.zero_le pos), List.take_zero, opens_nil]
      intro j hj _
      obtain ⟨i, hi⟩ := List.getElem?_of_mem hj
      have := hpart hi
      omega
    rw [hnone]
    rfl
  case h_2 k hk =>
    rw [hk] at hpart
    have hlt : k < p.brackets.length := by
      have hle : partitionPoint (· < pos) p.brackets ≤ p.brackets.length := (List.takeWhile_prefix _).length_le
      omega
    have hlast := List.getElem?_eq_getElem hlt
    generalize p.brackets[k] = j at hlast
    have hj : j < pos := (hpart hlast).mp (Nat.lt_succ_self k)
    have hstack : opens bracketKind (m.take pos) = opens bracketKind (m.take (j + 1)) := by
      refine h.opens_take (by omega) fun j' hj' hle => ?_
      obtain ⟨i, hi⟩ := List.getElem?_of_mem hj'
      -- a bracket behind the last one before the position has a later index
      have hik : k < i := by
        by_contra hik
        have hij : j' ≤ j := by
          rcases Nat.lt_or_eq_of_le (not_lt.mp hik) with hik | rfl
          · obtain ⟨hi', hget⟩ := List.getElem?_eq_some_iff.mp hi
            obtain ⟨hk', hget'⟩ := List.getElem?_eq_some_iff.mp hlast
            rw [← hget, ← hget']
            exact (List.pairwise_iff_getElem.mp h.sorted i k hi' hk' hik).le
          · exact (Option.some.inj (hi.symm.trans hlast)).le
        omega
      have := hpart hi
      omega
    rw [hstack]
    show (elemAt p.openAfter k >>= _) = _
    unfold elemAt
    rw [h.openAfter k j hlast]
    show Except.ok _ = _
    rw [hnear]

theorem Indexed.matchingClose (h : Indexed m p) {src : Src} (hbrackets : src.brackets = p.brackets)
    (hclose : src.close = p.close) (hpos : m[pos]? = some b) (hb : bracketKind b = some .opener) :
    src.matchingClose pos = .ok ((closing bracketKind 1 (m.drop (pos + 1))).map (pos + 1 + ·)) := by
  have hmem : pos ∈ p.brackets := (h.mem pos).mpr ⟨b, hpos, by rw [hb]; exact Option.some_ne_none _⟩
  unfold Src.matchingClose
  rw [hbrackets, hclose]
  cases hfound : p.brackets.findIdx? (· == pos) with
  | none =>
    have := List.findIdx?_eq_none_iff.mp hfound pos hmem
    simp at this
  | some k =>
    obtain ⟨hlt, heq, -⟩ := List.findIdx?_eq_some_iff_getElem.mp hfound
    have hk : p.brackets[k]? = some pos := by rw [List.getElem?_eq_getElem hlt, eq_of_beq heq]
    show elemAt p.close k = _
    unfold elemAt
    rw [h.close k pos b hk hpos hb]

/-- The source is indexed, and every question about it is answered as a scan of the bytes would answer it. -/
theorem src_answers (m : List UInt8) : ∃ src, Src.new m = .ok src ∧
    (∀ pos, src.enclosingOpener pos =
      .ok ((enclosing bracketKind 0 (m.take pos).reverse).filter fun o => pos ≤ o + 4096)) ∧
    (∀ pos b, m[pos]? = some b → bracketKind b = some .opener → src.matchingClose pos =
      .ok ((closing bracketKind 1 (m.drop (pos + 1))).map (pos + 1 + ·))) ∧
    (∀ pos, src.lineNo pos = (m.take pos).count newline + 1) ∧
    ∀ pos, ∃ line, src.lineOf pos = .ok line := by
  obtain ⟨p, hp, hindexed⟩ := indexed_nil.bytes m
  refine ⟨⟨m, p.brackets, p.close, p.openAfter, lineStarts m⟩, ?_, ?_, ?_, partitionPoint_lineStarts, ?_⟩
  · unfold Src.new
    rw [show Pass.bytes ⟨[], [], [], []⟩ 0 m = .ok p from hp]
    rfl
  · exact fun pos => hindexed.enclosingOpener rfl rfl
  · exact fun pos b hpos hb => hindexed.matchingClose rfl rfl hpos hb
  · exact lineOf_ok _ rfl

end CodeGraph.Graph.Boundaries
