import CodeGraph.Indexer.PathKey

/-!
# When a path key is canonical

A key is squeezed behind its UNC root, if it has one (`normalizeRelStrOn_root`, `normalizeRelStrOn_eq_squeeze`). The
root and the body are looked at apart, so a third separator right behind the root stays: `canonical_iff` says that
this is the only way for a key to be something else than canonical.
-/

namespace CodeGraph.Indexer.PathKey

open CodeGraph.Lib

/-- What separates the parts of a path. -/
def separator (backslashIsSep : Bool) (c : Char) : Bool := c == '/' || (backslashIsSep && c == '\\')

/-- Two paths that begin with the same two characters and differ in the runs of separators behind them. -/
def DifferInRuns (backslashIsSep : Bool) (rel other : List Char) : Prop :=
  ∃ a b s t, rel = a :: b :: s ∧ other = a :: b :: t ∧ SameRuns (separator backslashIsSep) s t

/-- The key of a path is its own key, two separators of it that stand together are its first two, and it does not tell
how long the runs of separators were. -/
structure Canonical (backslashIsSep : Bool) (rel : List Char) : Prop where
  idempotent : normalizeRelStrOn (normalizeRelStrOn rel backslashIsSep) backslashIsSep =
    normalizeRelStrOn rel backslashIsSep
  doubled : ∀ i, (normalizeRelStrOn rel backslashIsSep)[i]? = some '/' →
    (normalizeRelStrOn rel backslashIsSep)[i + 1]? = some '/' → i = 0
  runs : ∀ other, DifferInRuns backslashIsSep rel other →
    normalizeRelStrOn rel backslashIsSep = normalizeRelStrOn other backslashIsSep

variable {back : Bool} {rel s t u : List Char}

/-- Slashes that stand apart. -/
abbrev Slashes : Char → Char → Prop := Apart (· == '/')

theorem slash_unique (c d : Char) (hc : (c == '/') = true) (hd : (d == '/') = true) : c = d := by
  rw [eq_of_beq hc, eq_of_beq hd]

/-! ### Unifying -/

theorem unify_cons (c : Char) : unify back (c :: s) = (if separator back c then '/' else c) :: unify back s := by
  unfold unify separator
  cases back with
  | true =>
    simp only [if_true, List.map_cons]
    by_cases hc : c = '/' <;> simp [hc]
  | false =>
    simp only [Bool.false_eq_true, if_false]
    by_cases hc : c = '/' <;> simp [hc]

theorem unify_eq_self (h : back = true → '\\' ∉ s) : unify back s = s := by
  unfold unify
  split_ifs with hback
  · have hsame : ∀ c ∈ s, (if c = '\\' then '/' else c) = c := by
      intro c hc
      rw [if_neg]
      rintro rfl
      exact h hback hc
    rw [List.map_congr_left hsame, List.map_id']
  · rfl

theorem not_mem_unify (h : back = true) : '\\' ∉ unify back s := by
  unfold unify
  rw [if_pos h, List.mem_map]
  rintro ⟨c, -, hc⟩
  by_cases hback : c = '\\'
  · rw [if_pos hback] at hc
    cases hc
  · rw [if_neg hback] at hc
    exact hback hc

theorem sameRuns_unify (h : SameRuns (separator back) s t) :
    SameRuns (· == '/') (unify back s) (unify back t) := by
  unfold PathKey.unify
  split_ifs with hback
  · refine h.map fun c hc => ?_
    rw [separator, hback, Bool.true_and, Bool.or_eq_true] at hc
    rcases hc with hc | hc
    · rw [eq_of_beq hc]
      rfl
    · rw [eq_of_beq hc]
      rfl
  · rw [← List.map_id s, ← List.map_id t]
    refine h.map fun c hc => ?_
    rw [separator, Bool.eq_false_iff.mpr hback, Bool.false_and, Bool.or_false] at hc
    exact hc

/-! ### The key -/

theorem isChain_of_absent (h : ¬['/', '/'] <:+: s) : s.IsChain Slashes := by
  rw [List.isChain_iff_forall_rel_of_append_cons_cons]
  rintro a b l₁ l₂ rfl ⟨ha, hb⟩
  refine h ⟨l₁, l₂, ?_⟩
  rw [eq_of_beq ha, eq_of_beq hb, List.append_assoc]
  rfl

/-- Behind a UNC root the key is squeezed. -/
theorem normalizeRelStrOn_root (h : unify back rel = '/' :: '/' :: u) :
    normalizeRelStrOn rel back = '/' :: '/' :: squeeze (· == '/') u := by
  have hroot : ['/', '/'] <+: '/' :: '/' :: u := ⟨u, rfl⟩
  unfold normalizeRelStrOn
  rw [h]
  dsimp only
  rw [if_neg (not_not_intro hroot.isInfix), if_pos hroot, if_pos hroot]
  rfl

/-- Without one all of it is. -/
theorem normalizeRelStrOn_eq_squeeze (h : ¬['/', '/'] <+: unify back rel) :
    normalizeRelStrOn rel back = squeeze (· == '/') (unify back rel) := by
  unfold normalizeRelStrOn
  dsimp only
  rw [if_neg h, if_neg h]
  split_ifs with hinfix
  · rfl
  · exact (squeeze_eq_self (isChain_of_absent hinfix)).symm

/-- Two slashes at the beginning of a text, or none to tell apart. -/
theorem root_cases (u : List Char) : (∃ v, u = '/' :: '/' :: v) ∨ ¬['/', '/'] <+: u := by
  by_cases h : ['/', '/'] <+: u
  · obtain ⟨v, rfl⟩ := h
    exact .inl ⟨v, rfl⟩
  · exact .inr h

/-- A key holds no backslash that separates. -/
theorem not_mem_normalizeRelStrOn (h : back = true) : '\\' ∉ normalizeRelStrOn rel back := by
  intro hmem
  refine not_mem_unify (s := rel) h ?_
  rcases root_cases (unify back rel) with ⟨v, hv⟩ | hroot
  · rw [normalizeRelStrOn_root hv] at hmem
    rw [hv]
    simp only [List.mem_cons] at hmem ⊢
    exact hmem.imp_right (Or.imp_right (fun hv' => squeezeFrom_subset hv'))
  · rw [normalizeRelStrOn_eq_squeeze hroot] at hmem
    exact squeezeFrom_subset hmem

theorem normalizeRelStrOn_idempotent (rel : List Char) (back : Bool) :
    normalizeRelStrOn (normalizeRelStrOn rel back) back = normalizeRelStrOn rel back := by
  have hunify : unify back (normalizeRelStrOn rel back) = normalizeRelStrOn rel back :=
    unify_eq_self not_mem_normalizeRelStrOn
  rcases root_cases (unify back rel) with ⟨v, hv⟩ | hroot
  · rw [normalizeRelStrOn_root hv] at hunify ⊢
    rw [normalizeRelStrOn_root hunify, squeeze_squeeze]
  · rw [normalizeRelStrOn_eq_squeeze hroot] at hunify ⊢
    have hchain : (squeeze (· == '/') (unify back rel)).IsChain Slashes := squeeze_isChain
    have hnot : ¬['/', '/'] <+: unify back (squeeze (· == '/') (unify back rel)) := by
      rw [hunify]
      rintro ⟨v, hv⟩
      rw [← hv] at hchain
      exact (List.isChain_cons_cons.mp hchain).1 ⟨rfl, rfl⟩
    rw [normalizeRelStrOn_eq_squeeze hnot, hunify, squeeze_squeeze]

/-- The key depends on the first two characters and on what follows them up to the lengths of runs. -/
theorem normalizeRelStrOn_runs {other : List Char} (h : DifferInRuns back rel other) :
    normalizeRelStrOn rel back = normalizeRelStrOn other back := by
  obtain ⟨a, b, s, t, rfl, rfl, hruns⟩ := h
  have hsame := sameRuns_unify hruns
  obtain ⟨a', b', hunify⟩ : ∃ a' b', ∀ r, unify back (a :: b :: r) = a' :: b' :: unify back r :=
    ⟨_, _, fun r => by rw [unify_cons, unify_cons]⟩
  have hs := hunify s
  have ht := hunify t
  by_cases hroot : a' = '/' ∧ b' = '/'
  · obtain ⟨rfl, rfl⟩ := hroot
    rw [normalizeRelStrOn_root hs, normalizeRelStrOn_root ht]
    exact congrArg _ (congrArg _ (hsame.squeezeFrom slash_unique))
  · have hnot : ∀ v, ¬['/', '/'] <+: a' :: b' :: v := by
      rintro v ⟨w, hw⟩
      obtain ⟨ha, hb, -⟩ : '/' = a' ∧ '/' = b' ∧ _ := by simpa using hw
      exact hroot ⟨ha.symm, hb.symm⟩
    rw [normalizeRelStrOn_eq_squeeze (by rw [hs]; exact hnot _),
      normalizeRelStrOn_eq_squeeze (by rw [ht]; exact hnot _), hs, ht]
    exact ((hsame.cons b').cons a').squeezeFrom slash_unique

/-! ### Doubled separators -/

theorem isChain_slashes_iff :
    s.IsChain Slashes ↔ ∀ i : ℕ, s[i]? = some '/' → s[i + 1]? = some '/' → False := by
  rw [List.isChain_iff_getElem]
  constructor
  · intro h i hi hi'
    obtain ⟨hlt, hslash'⟩ := List.getElem?_eq_some_iff.mp hi'
    obtain ⟨_, hslash⟩ := List.getElem?_eq_some_iff.mp hi
    exact h i hlt ⟨beq_iff_eq.mpr hslash, beq_iff_eq.mpr hslash'⟩
  · rintro h i hi ⟨hslash, hslash'⟩
    refine h i ?_ ?_
    · rw [List.getElem?_eq_getElem (by omega), eq_of_beq hslash]
    · rw [List.getElem?_eq_getElem hi, eq_of_beq hslash']

/-- In a key two slashes stand together behind the first two characters just where three separators begin the
path. -/
theorem doubled_iff : (∀ i, (normalizeRelStrOn rel back)[i]? = some '/' →
      (normalizeRelStrOn rel back)[i + 1]? = some '/' → i = 0) ↔
    ¬['/', '/', '/'] <+: unify back rel := by
  rcases root_cases (unify back rel) with ⟨v, hv⟩ | hroot
  · rw [normalizeRelStrOn_root hv, hv]
    have hchain : (squeeze (· == '/') v).IsChain Slashes := squeeze_isChain
    have hthird : ['/', '/', '/'] <+: '/' :: '/' :: v ↔ (squeeze (· == '/') v)[0]? = some '/' := by
      rw [← List.head?_eq_getElem?, squeeze_head?]
      cases v with
      | nil => simp
      | cons c v => simp [eq_comm]
    rw [hthird]
    constructor
    · intro h hslash
      have := h 1 rfl hslash
      omega
    · intro h i hi hi'
      rcases i with _ | _ | i
      · rfl
      · exact absurd hi' h
      · exact (isChain_slashes_iff.mp hchain i hi hi').elim
  · rw [normalizeRelStrOn_eq_squeeze hroot]
    refine iff_of_true (fun i hi hi' => (isChain_slashes_iff.mp squeeze_isChain i hi hi').elim) ?_
    rintro ⟨v, hv⟩
    exact hroot ⟨'/' :: v, hv⟩

theorem prefix_three_iff : ['/', '/', '/'] <+: unify back rel ↔
    ∃ a b c rest, rel = a :: b :: c :: rest ∧ separator back a ∧ separator back b ∧ separator back c := by
  have hhead : ∀ c s v, '/' :: v <+: unify back (c :: s) ↔ separator back c = true ∧ v <+: unify back s := by
    intro c s v
    rw [unify_cons, List.cons_prefix_cons]
    refine and_congr_left fun _ => ?_
    cases hc : separator back c with
    | true => simp
    | false =>
      refine iff_of_false ?_ Bool.false_ne_true
      rintro rfl
      cases hc
  have hnil : ∀ v, ¬ '/' :: v <+: unify back [] := by
    intro v
    cases back with
    | true => simp [unify]
    | false => simp [unify]
  rcases rel with _ | ⟨a, _ | ⟨b, _ | ⟨c, rest⟩⟩⟩
  · simp [hnil]
  · simp [hhead, hnil]
  · simp [hhead, hnil]
  · simp [hhead]

/-- The key of a path is canonical just when the path does not begin with three separators. -/
theorem canonical_iff (back : Bool) (rel : List Char) : Canonical back rel ↔
    ¬∃ a b c rest, rel = a :: b :: c :: rest ∧ separator back a ∧ separator back b ∧ separator back c := by
  rw [← prefix_three_iff, ← doubled_iff]
  exact ⟨Canonical.doubled, fun h => ⟨normalizeRelStrOn_idempotent rel back, h, fun _ => normalizeRelStrOn_runs⟩⟩

/-- The key of `///a` is `///a`. -/
theorem not_canonical : ¬∀ back rel, Canonical back rel := by
  intro h
  have hone := (h false ['/', '/', '/', 'a']).doubled 1 (by decide) (by decide)
  omega

end CodeGraph.Indexer.PathKey
