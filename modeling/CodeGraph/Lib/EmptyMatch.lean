import CodeGraph.Lib.Backtrack

/-!
# Matches without characters

Whether an expression can match nothing is computed bottom up: a sequence can where all its pieces can, an alternation
where one branch can, a repetition where it may be left out or its body can. `Tells exact e r` is what such a flag `e`
says of `r`: where it is false no line has an empty match of `r`, and where it is true and exact the empty line has one.
-/

namespace CodeGraph.Lib.Re

variable {α : Type*} {w : List α} {r s : Re α} {l : List (Re α)} {least : ℕ} {most : Option ℕ} {i j : ℕ} {exact : Prop}
  {e e' : Bool}

/-- No empty match in any line. -/
def Consumes (r : Re α) : Prop := ∀ (w : List α) (i : ℕ), i ≤ w.length → ¬r.between w i i

def MatchesEmpty (r : Re α) : Prop := r.between [] 0 0

structure Tells (exact : Prop) (e : Bool) (r : Re α) : Prop where
  sound : e = false → r.Consumes
  complete : exact → e = true → r.MatchesEmpty

theorem consumes_one (p : α → Bool) : (one p).Consumes := by
  rintro w i - ⟨-, h⟩
  exact Nat.succ_ne_self i h.symm

/-- The middle of an empty match of a sequence is where it begins. -/
theorem eq_of_between (hi : i ≤ w.length) (hr : r.between w i j) (hs : s.between w j i) : j = i := by
  obtain ⟨hij, hlength⟩ := r.advances hi hr
  exact Nat.le_antisymm (s.advances hlength hs).1 hij

theorem Consumes.seq_left (h : r.Consumes) : (seq r s).Consumes := by
  rintro w i hi ⟨j, hr, hs⟩
  obtain rfl := eq_of_between hi hr hs
  exact h w j hi hr

theorem Consumes.seq_right (h : s.Consumes) : (seq r s).Consumes := by
  rintro w i hi ⟨j, hr, hs⟩
  obtain rfl := eq_of_between hi hr hs
  exact h w j hi hs

theorem Consumes.rep (h : r.Consumes) (hleast : 0 < least) : (rep r least most).Consumes := by
  rintro w i hi ⟨k, hk, -, htimes⟩
  obtain ⟨k, rfl⟩ : ∃ n, k = n + 1 := ⟨k - 1, by omega⟩
  obtain ⟨j, hr, hrest⟩ := htimes
  obtain ⟨hij, hlength⟩ := r.advances hi hr
  have hji : j ≤ i := (Advances.times r.advances k hlength hrest).1
  obtain rfl := Nat.le_antisymm hji hij
  exact h w j hi hr

theorem times_refl {R : ℕ → ℕ → Prop} (h : R i i) (n : ℕ) : Times R n i i := by
  induction n with
  | zero => rfl
  | succ n ih => exact ⟨i, h, ih⟩

theorem MatchesEmpty.rep (h : r.MatchesEmpty) (hle : ∀ m, most = some m → least ≤ m) :
    (rep r least most).MatchesEmpty :=
  ⟨least, Nat.le_refl least, hle, times_refl h least⟩

/-! ### Flags -/

theorem tells_empty : Tells exact true (empty : Re α) := ⟨(nomatch ·), fun _ _ => rfl⟩

theorem tells_one (p : α → Bool) : Tells exact false (one p) := ⟨fun _ => consumes_one p, fun _ h => nomatch h⟩

/-- An assertion. -/
theorem tells_look (test : List α → List α → Bool) (h : ¬exact) : Tells exact true (look test) :=
  ⟨(nomatch ·), fun hexact => absurd hexact h⟩

/-- A true flag that need not be exact. -/
theorem tells_true (h : ¬exact) : Tells exact true r := ⟨(nomatch ·), fun hexact => absurd hexact h⟩

theorem Tells.rep (h : Tells exact e r) (hle : ∀ m, most = some m → least ≤ m) :
    Tells exact (e || least = 0) (rep r least most) := by
  constructor
  · intro hfalse
    rw [Bool.or_eq_false_iff, decide_eq_false_iff_not] at hfalse
    exact (h.sound hfalse.1).rep (Nat.pos_of_ne_zero hfalse.2)
  · intro hexact htrue
    rw [Bool.or_eq_true, decide_eq_true_iff] at htrue
    rcases htrue with he | hzero
    · exact (h.complete hexact he).rep hle
    · exact between_refl hzero

theorem between_foldl_seq : (l.foldl (fun r piece => .seq piece r) r).between w i j ↔
    ∃ m, (seqAll l).between w i m ∧ r.between w m j := by
  induction l generalizing r j with
  | nil => exact ⟨fun h => ⟨i, rfl, h⟩, fun ⟨m, him, h⟩ => (show i = m from him) ▸ h⟩
  | cons a l ih =>
    have hall : ∀ {m}, (seqAll (a :: l)).between w i m ↔ ∃ k, (seqAll l).between w i k ∧ a.between w k m := by
      intro m
      rw [seqAll, List.foldl_cons, ih]
      constructor
      · rintro ⟨k, hk, n, hn, rfl⟩
        exact ⟨k, hk, hn⟩
      · rintro ⟨k, hk, hm⟩
        exact ⟨k, hk, m, hm, rfl⟩
    rw [List.foldl_cons, ih]
    constructor
    · rintro ⟨k, hk, m, hm, hr⟩
      exact ⟨m, hall.mpr ⟨k, hk, hm⟩, hr⟩
    · rintro ⟨m, hm, hr⟩
      obtain ⟨k, hk, hkm⟩ := hall.mp hm
      exact ⟨k, hk, m, hkm, hr⟩

/-- One piece more. -/
theorem between_seqAll_cons : (seqAll (r :: l)).between w i j ↔ ((seqAll l).seq r).between w i j := by
  rw [seqAll, List.foldl_cons, between_foldl_seq]
  constructor
  · rintro ⟨m, hm, k, hk, rfl⟩
    exact ⟨m, hm, hk⟩
  · rintro ⟨m, hm, hr⟩
    exact ⟨m, hm, j, hr, rfl⟩

theorem Tells.seqAll_cons (hl : Tells exact e (seqAll l)) (hr : Tells exact e' r) :
    Tells exact (e && e') (seqAll (r :: l)) := by
  constructor
  · intro hfalse w i hi hbetween
    rw [between_seqAll_cons] at hbetween
    rcases Bool.and_eq_false_iff.mp hfalse with he | he
    · exact (hl.sound he).seq_left w i hi hbetween
    · exact (hr.sound he).seq_right w i hi hbetween
  · intro hexact htrue
    rw [Bool.and_eq_true] at htrue
    exact between_seqAll_cons.mpr ⟨0, hl.complete hexact htrue.1, hr.complete hexact htrue.2⟩

theorem between_altAll : (altAll l r).between w i j ↔ (∃ a ∈ l, a.between w i j) ∨ r.between w i j := by
  induction l generalizing r with
  | nil => simp [altAll]
  | cons a l ih =>
    rw [altAll, List.foldl_cons, ← altAll, ih, List.exists_mem_cons_iff, or_comm (a := a.between w i j), or_assoc]
    exact Iff.rfl

/-- One alternative more. -/
theorem Tells.altAll_cons (h : Tells exact e (altAll l r)) (hs : Tells exact e' s) :
    Tells exact (e' || e) (altAll (r :: l) s) := by
  have hiff : ∀ (w : List α) i j, (altAll (r :: l) s).between w i j ↔ (altAll l r).between w i j ∨ s.between w i j := by
    intro w i j
    rw [between_altAll, between_altAll, List.exists_mem_cons_iff, or_comm (a := r.between w i j)]
  constructor
  · intro hfalse w i hi hbetween
    obtain ⟨he', he⟩ := Bool.or_eq_false_iff.mp hfalse
    rcases (hiff w i i).mp hbetween with hold | hnew
    · exact h.sound he w i hi hold
    · exact hs.sound he' w i hi hnew
  · intro hexact htrue
    refine (hiff [] 0 0).mpr ?_
    rcases Bool.or_eq_true_iff.mp htrue with he | he
    · exact .inr (hs.complete hexact he)
    · exact .inl (h.complete hexact he)

end CodeGraph.Lib.Re
