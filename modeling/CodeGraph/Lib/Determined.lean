import CodeGraph.Lib.Backtrack

/-!
# Expressions that match in one way

Often what stands behind a match leaves an expression one end from each position (`Re.Determined`): a run of characters
ends where another character follows, and a turn of a loop is the last one where what follows the loop cannot begin
another turn (`Determined.rep`).
-/

namespace CodeGraph.Lib

variable {α : Type*} {w : List α} {i j k : ℕ} {p q : α → Bool} {least : ℕ} {most : Option ℕ}

/-- The character at a position. -/
def Next (w : List α) (p : α → Bool) (i : ℕ) : Prop := ∃ a ∈ w[i]?, p a = true

theorem Next.mono (hp : Next w p i) (h : ∀ a, p a = true → q a = true) : Next w q i := by
  obtain ⟨a, ha, hpa⟩ := hp
  exact ⟨a, ha, h a hpa⟩

theorem Next.disjoint (hp : Next w p i) (h : ∀ a, p a = true → q a = false) : ¬Next w q i := by
  rintro ⟨b, hb, hqb⟩
  obtain ⟨a, ha, hpa⟩ := hp
  have hab : a = b := Option.some.inj (ha.symm.trans hb)
  rw [← hab, h a hpa] at hqb
  cases hqb

theorem Next.lt (hp : Next w p i) : i < w.length := by
  obtain ⟨a, ha, -⟩ := hp
  exact (List.getElem?_eq_some_iff.mp ha).1

namespace Pattern

/-- The characters one after the other. -/
def word (s : List α) [DecidableEq α] : Pattern α := s.foldr (fun a p => seq (one (· = a)) p) empty

/-- One of the words, the first ones first. -/
def words (l : List (List α)) [DecidableEq α] : Pattern α := l.foldr (fun s p => alt (word s) p) (one fun _ => false)

variable [DecidableEq α] {s : List α} {l : List (List α)}

theorem backtracks_word : (word s).Backtracks := by
  induction s with
  | nil => trivial
  | cons a s ih => exact ⟨trivial, ih⟩

theorem backtracks_words : (words l).Backtracks := by
  induction l with
  | nil => trivial
  | cons s l ih => exact ⟨backtracks_word, ih⟩

theorem between_word : (word s).toRe.between w i j ↔ s <+: w.drop i ∧ j = i + s.length := by
  induction s generalizing i with
  | nil => exact ⟨fun h => ⟨List.nil_prefix, h.symm⟩, fun h => h.2.symm⟩
  | cons a s ih =>
    have hcons : a :: s <+: w.drop i ↔ w[i]? = some a ∧ s <+: w.drop (i + 1) := by
      by_cases hi : i < w.length
      · rw [List.drop_eq_getElem_cons hi, List.cons_prefix_cons, List.getElem?_eq_getElem hi, Option.some_inj, eq_comm]
      · rw [List.drop_eq_nil_of_le (Nat.le_of_not_lt hi), List.getElem?_eq_none (Nat.le_of_not_lt hi)]
        simp
    rw [hcons, List.length_cons]
    constructor
    · rintro ⟨m, ⟨⟨b, hb, heq⟩, rfl⟩, hs⟩
      obtain rfl := of_decide_eq_true heq
      obtain ⟨hpre, rfl⟩ := ih.mp hs
      exact ⟨⟨hb, hpre⟩, by omega⟩
    · rintro ⟨⟨ha, hpre⟩, rfl⟩
      exact ⟨i + 1, ⟨⟨a, ha, decide_eq_true rfl⟩, rfl⟩, ih.mpr ⟨hpre, by omega⟩⟩

theorem between_words : (words l).toRe.between w i j ↔ ∃ s ∈ l, s <+: w.drop i ∧ j = i + s.length := by
  induction l with
  | nil =>
    refine iff_of_false ?_ (by simp)
    rintro ⟨⟨a, -, ha⟩, -⟩
    cases ha
  | cons s l ih =>
    rw [List.exists_mem_cons_iff, ← ih, ← between_word]
    exact Iff.rfl

end Pattern

namespace Re

variable {r s : Re α} {F G : ℕ → Prop}

/-- From each position the expression has at most one end with `F`. -/
def Determined (w : List α) (r : Re α) (F : ℕ → Prop) : Prop :=
  ∀ ⦃i j j'⦄, r.between w i j → F j → r.between w i j' → F j' → j = j'

theorem Determined.mono (h : r.Determined w F) (hGF : ∀ j, G j → F j) : r.Determined w G :=
  fun _ _ _ hj hG hj' hG' => h hj (hGF _ hG) hj' (hGF _ hG')

theorem determined_empty : (empty : Re α).Determined w F := fun _ _ _ hj _ hj' _ => hj.symm.trans hj'

theorem determined_one : (one p).Determined w F := fun _ _ _ hj _ hj' _ => hj.2.trans hj'.2.symm

theorem determined_look (test : List α → List α → Bool) : (look test).Determined w F :=
  fun _ _ _ hj _ hj' _ => hj.1.symm.trans hj'.1

theorem Determined.seq (hr : r.Determined w fun m => ∃ j, s.between w m j ∧ F j) (hs : s.Determined w F) :
    (seq r s).Determined w F := by
  rintro i j j' ⟨m, hm, hj⟩ hF ⟨m', hm', hj'⟩ hF'
  obtain rfl := hr hm ⟨j, hj, hF⟩ hm' ⟨j', hj', hF'⟩
  exact hs hj hF hj' hF'

theorem Determined.alt (hr : r.Determined w F) (hs : s.Determined w F)
    (hapart : ∀ i j j', r.between w i j → F j → s.between w i j' → ¬F j') : (alt r s).Determined w F := by
  rintro i j j' (hj | hj) hF (hj' | hj') hF'
  · exact hr hj hF hj' hF'
  · exact absurd hF' (hapart i j j' hj hF hj')
  · exact absurd hF (hapart i j' j hj' hF' hj)
  · exact hs hj hF hj' hF'

theorem Determined.opt (hr : r.Determined w F) (hapart : ∀ i j, F i → r.between w i j → ¬F j) :
    (rep r 0 (some 1)).Determined w F := by
  intro i j j' hj hF hj' hF'
  rw [between_opt] at hj hj'
  rcases hj with rfl | hj
  · rcases hj' with rfl | hj'
    · rfl
    · exact absurd hF' (hapart i j' hF hj')
  · rcases hj' with rfl | hj'
    · exact absurd hF (hapart i j hF' hj)
    · exact hr hj hF hj' hF'

/-- A loop, with `G` where it ends or goes on. -/
theorem Determined.rep (hr : r.Determined w G) (hG : ∀ j, F j → G j) (hback : ∀ i j, r.between w i j → G j → G i)
    (hapart : ∀ i j, F i → r.between w i j → ¬G j) : (rep r least most).Determined w F := by
  -- where the rest can follow after some turns, it can begin before them
  have hturns : ∀ {k i j}, Times (r.between w) k i j → F j → G i := by
    intro k
    induction k with
    | zero =>
      rintro i j rfl hF
      exact hG i hF
    | succ k ih =>
      rintro i j ⟨m, hm, hj⟩ hF
      exact hback i m hm (ih hj hF)
  -- two runs of turns that end where the rest follows have the same number of turns
  have hmain : ∀ {k k' i j j'}, Times (r.between w) k i j → F j → Times (r.between w) k' i j' → F j' → j = j' := by
    intro k
    induction k with
    | zero =>
      rintro k' i j j' rfl hF hj' hF'
      cases k' with
      | zero => exact hj'
      | succ k' =>
        obtain ⟨m, hm, hj'⟩ := hj'
        exact absurd (hturns hj' hF') (hapart i m hF hm)
    | succ k ih =>
      rintro k' i j j' ⟨m, hm, hj⟩ hF hj' hF'
      cases k' with
      | zero =>
        obtain rfl : i = j' := hj'
        exact absurd (hturns hj hF) (hapart i m hF' hm)
      | succ k' =>
        obtain ⟨m', hm', hj'⟩ := hj'
        obtain rfl := hr hm (hturns hj hF) hm' (hturns hj' hF')
        exact ih hj hF hj' hF'
  rintro i j j' ⟨k, -, -, hj⟩ hF ⟨k', -, -, hj'⟩ hF'
  exact hmain hj hF hj' hF'

/-! ### Runs of characters -/

theorem times_one : Times ((one p).between w) k i j ↔ j = i + k ∧ ∀ m, i ≤ m → m < j → Next w p m := by
  induction k generalizing i with
  | zero =>
    constructor
    · rintro rfl
      exact ⟨rfl, fun m hm hm' => absurd hm' (Nat.not_lt.mpr hm)⟩
    · exact fun h => h.1.symm
  | succ k ih =>
    constructor
    · rintro ⟨m, ⟨hnext, rfl⟩, hj⟩
      obtain ⟨rfl, hrun⟩ := ih.mp hj
      refine ⟨by omega, fun m hm hm' => ?_⟩
      rcases Nat.eq_or_lt_of_le hm with rfl | hlt
      · exact hnext
      · exact hrun m hlt hm'
    · rintro ⟨rfl, hrun⟩
      exact ⟨i + 1, ⟨hrun i (Nat.le_refl i) (by omega), rfl⟩, ih.mpr ⟨by omega, fun m hm hm' => hrun m (by omega) hm'⟩⟩

theorem between_run : (rep (one p) least most).between w i j ↔
    i + least ≤ j ∧ (∀ m, most = some m → j ≤ i + m) ∧ ∀ m, i ≤ m → m < j → Next w p m := by
  constructor
  · rintro ⟨k, hleast, hmost, hk⟩
    obtain ⟨rfl, hrun⟩ := times_one.mp hk
    exact ⟨by omega, fun m hm => Nat.add_le_add_left (hmost m hm) i, hrun⟩
  · rintro ⟨hleast, hmost, hrun⟩
    refine ⟨j - i, by omega, fun m hm => ?_, times_one.mpr ⟨by omega, hrun⟩⟩
    have hle := hmost m hm
    omega

theorem determined_run (h : ∀ j, F j → ¬Next w p j) : (rep (one p) least most).Determined w F := by
  intro i j j' hj hF hj' hF'
  obtain ⟨hle, -, hrun⟩ := between_run.mp hj
  obtain ⟨hle', -, hrun'⟩ := between_run.mp hj'
  rcases Nat.lt_trichotomy j j' with hlt | heq | hlt
  · exact absurd (hrun' j (by omega) hlt) (h j hF)
  · exact heq
  · exact absurd (hrun j' (by omega) hlt) (h j' hF')

theorem next_of_run (h : (rep (one p) (least + 1) most).between w i j) : Next w p i := by
  obtain ⟨hle, -, hrun⟩ := between_run.mp h
  exact hrun i (Nat.le_refl i) (by omega)

theorem determined_word [DecidableEq α] {s : List α} : (Pattern.word s).toRe.Determined w F := by
  intro i j j' hj _ hj' _
  rw [(Pattern.between_word.mp hj).2, (Pattern.between_word.mp hj').2]

/-- Words of letters, where no letter follows. -/
theorem determined_words [DecidableEq α] {l : List (List α)} (hl : ∀ s ∈ l, ∀ a ∈ s, p a = true)
    (h : ∀ j, F j → ¬Next w p j) : (Pattern.words l).toRe.Determined w F := by
  intro i j j' hj hF hj' hF'
  obtain ⟨s, hs, hpre, rfl⟩ := Pattern.between_words.mp hj
  obtain ⟨s', hs', hpre', rfl⟩ := Pattern.between_words.mp hj'
  have hnext : ∀ {s : List α} {n : ℕ}, s ∈ l → s <+: w.drop i → n < s.length → Next w p (i + n) := by
    intro s n hs hpre hn
    refine ⟨s[n], ?_, hl s hs _ (List.getElem_mem hn)⟩
    obtain ⟨t, ht⟩ := hpre
    rw [Option.mem_def, ← List.getElem?_drop, ← ht, List.getElem?_append_left hn, List.getElem?_eq_getElem hn]
  rcases Nat.lt_trichotomy s.length s'.length with hlt | heq | hlt
  · exact absurd (hnext hs' hpre' hlt) (h _ hF)
  · rw [heq]
  · exact absurd (hnext hs hpre hlt) (h _ hF')

end Re

end CodeGraph.Lib
