import Mathlib.Data.List.Sort
import Mathlib.Data.List.Nodup
import Mathlib.Data.List.Perm.Subperm
import Mathlib.Data.Finset.Defs

/-!
# Sorting by a key

`sortByKey key l` is the stable sort of a list by a key. Elements that agree on the key keep their
order (`sortByKey_pairwise`); where no two agree, the result depends on the members alone
(`sortByKey_strict`, `eq_of_strict`).
-/

namespace CodeGraph.Lib

variable {α κ : Type*} [LinearOrder κ] {key : α → κ} {l l' : List α} {s : α → α → Prop}

/-- A stable sort. -/
def sortByKey (key : α → κ) (l : List α) : List α :=
  l.insertionSort fun a b => key a ≤ key b

theorem sortByKey_perm (key : α → κ) (l : List α) : (sortByKey key l).Perm l :=
  List.perm_insertionSort _ l

@[simp] theorem mem_sortByKey {a : α} : a ∈ sortByKey key l ↔ a ∈ l :=
  (sortByKey_perm key l).mem_iff

/-- An element goes before those with its key, so in front of what it stood in front of. -/
theorem orderedInsert_pairwise {a : α}
    (hl : l.Pairwise fun a b => key a < key b ∨ key a = key b ∧ s a b) (ha : ∀ b ∈ l, s a b) :
    (l.orderedInsert (fun a b => key a ≤ key b) a).Pairwise
      fun a b => key a < key b ∨ key a = key b ∧ s a b := by
  induction l with
  | nil => simp
  | cons b l ih =>
    rw [List.pairwise_cons] at hl
    rw [List.orderedInsert_cons]
    split_ifs with hab
    · refine List.pairwise_cons.mpr ⟨fun c hc => ?_, List.pairwise_cons.mpr hl⟩
      have hac : key a ≤ key c := by
        rcases List.mem_cons.mp hc with rfl | hc
        · exact hab
        · exact hab.trans ((hl.1 c hc).elim le_of_lt fun h => h.1.le)
      rcases lt_or_eq_of_le hac with hlt | heq
      · exact .inl hlt
      · exact .inr ⟨heq, ha c hc⟩
    · refine List.pairwise_cons.mpr ⟨fun c hc => ?_, ih hl.2 fun c hc => ha c (by simp [hc])⟩
      rcases (List.mem_orderedInsert _).mp hc with rfl | hc
      · exact .inl (not_le.mp hab)
      · exact hl.1 c hc

/-- Sorted by the key, and in the order of the list where the keys agree. -/
theorem sortByKey_pairwise (h : l.Pairwise s) :
    (sortByKey key l).Pairwise fun a b => key a < key b ∨ key a = key b ∧ s a b := by
  induction l with
  | nil => exact List.Pairwise.nil
  | cons a l ih =>
    rw [List.pairwise_cons] at h
    rw [sortByKey, List.insertionSort_cons]
    exact orderedInsert_pairwise (ih h.2) fun b hb => h.1 b (mem_sortByKey.mp hb)

/-- Sorted strictly, when no two elements have one key. -/
theorem sortByKey_strict (h : (l.map key).Nodup) :
    (sortByKey key l).Pairwise fun a b => key a < key b := by
  have hne : l.Pairwise fun a b => key a ≠ key b := List.pairwise_map.mp h
  refine (sortByKey_pairwise hne).imp ?_
  rintro a b (hlt | ⟨heq, hab⟩)
  · exact hlt
  · exact absurd heq hab

theorem sortByKey_id_strict {l : List κ} (h : l.Nodup) : (sortByKey id l).Pairwise (· < ·) := by
  have hl : (l.map id).Nodup := by
    rw [List.map_id]
    exact h
  exact sortByKey_strict hl

/-- Two lists sorted strictly that have the same members are one. -/
theorem eq_of_strict {k : α → κ} (h : l.Pairwise fun a b => k a < k b)
    (h' : l'.Pairwise fun a b => k a < k b) (hmem : ∀ a, a ∈ l ↔ a ∈ l') : l = l' := by
  have : Std.Irrefl fun a b : α => k a < k b := ⟨fun a => lt_irrefl (k a)⟩
  have : Std.Asymm fun a b : α => k a < k b := ⟨fun a b => lt_asymm⟩
  exact List.Pairwise.eq_of_mem_iff h h' hmem

/-- Where no two elements have one key, the sort begins with the first `n` elements just when each of them comes
before all that follow it. -/
theorem take_sortByKey_iff (h : (l.map key).Nodup) (n : ℕ) :
    (sortByKey key l).take n = l.take n ↔
      ∀ i j, (hij : i < j) → (hj : j < l.length) → i < n → key l[i] < key l[j] := by
  have hsorted := sortByKey_strict h
  constructor
  · -- what is behind the first `n` is the same in both, but for the order
    intro htake i j hij hj hi
    have hperm : ((sortByKey key l).drop n).Perm (l.drop n) := by
      have hall : (l.take n ++ (sortByKey key l).drop n).Perm (l.take n ++ l.drop n) := by
        rw [List.take_append_drop, ← htake, List.take_append_drop]
        exact sortByKey_perm key l
      exact (List.perm_append_left_iff _).mp hall
    rw [← List.take_append_drop n (sortByKey key l), List.pairwise_append, htake] at hsorted
    obtain ⟨hfirst, -, hacross⟩ := hsorted
    have hmem : l[i] ∈ l.take n := List.mem_take_iff_getElem.mpr ⟨i, by omega, rfl⟩
    rcases Nat.lt_or_ge j n with hjn | hjn
    · have hlt := List.pairwise_iff_getElem.mp hfirst i j (by rw [List.length_take]; omega)
        (by rw [List.length_take]; omega) hij
      rwa [List.getElem_take, List.getElem_take] at hlt
    · refine hacross _ hmem _ (hperm.mem_iff.mpr ?_)
      exact List.mem_drop_iff_getElem.mpr ⟨j - n, by omega, by simp [Nat.add_sub_cancel' hjn]⟩
  · intro hlt
    have hdrop : ((l.drop n).map key).Nodup := h.sublist ((List.drop_sublist n l).map key)
    -- the sorted list is the first `n` and the sorted rest
    have hsplit : sortByKey key l = l.take n ++ sortByKey key (l.drop n) := by
      refine eq_of_strict (k := key) hsorted ?_ fun a => ?_
      · rw [List.pairwise_append]
        refine ⟨?_, sortByKey_strict hdrop, ?_⟩
        · rw [List.pairwise_iff_getElem]
          intro i j hi hj hij
          rw [List.length_take] at hi hj
          rw [List.getElem_take, List.getElem_take]
          exact hlt i j hij (by omega) (by omega)
        · intro a ha b hb
          obtain ⟨i, hi, rfl⟩ := List.mem_take_iff_getElem.mp ha
          obtain ⟨j, hj, rfl⟩ := List.mem_drop_iff_getElem.mp (mem_sortByKey.mp hb)
          exact hlt i (n + j) (by omega) (by omega) (by omega)
      · rw [mem_sortByKey, List.mem_append, mem_sortByKey, ← List.mem_append, List.take_append_drop]
    rw [hsplit]
    rcases Nat.le_total n l.length with hle | hle
    · rw [List.take_append_of_le_length (by rw [List.length_take]; omega), List.take_take, min_self]
    · rw [List.drop_eq_nil_of_le hle, show sortByKey key ([] : List α) = [] from rfl, List.append_nil, List.take_take,
        min_self]

/-- Lists of members of a list are told by a function that tells its members. -/
theorem map_inj_of_subset {β : Type*} {f : α → β} {whole : List α} (h : (whole.map f).Nodup) (hl : l ⊆ whole)
    (hl' : l' ⊆ whole) : l.map f = l'.map f ↔ l = l' := by
  refine ⟨fun heq => ?_, congrArg (List.map f)⟩
  have hlength : l.length = l'.length := by simpa using congrArg List.length heq
  refine List.ext_getElem hlength fun i hi hi' => ?_
  refine List.inj_on_of_nodup_map h (hl (List.getElem_mem hi)) (hl' (List.getElem_mem hi')) ?_
  have hget := congrArg (·[i]?) heq
  simpa [hi, hi'] using hget

/-! ### The place of an element -/

section Place

variable {β : Type*} [DecidableEq β] {f : α → β} {a a' : α}

theorem idxOf_take (b : β) (m : List β) (n : ℕ) : (m.take n).idxOf b = min n (m.idxOf b) := by
  induction m generalizing n with
  | nil => simp
  | cons c m ih =>
    cases n with
    | zero => simp
    | succ n =>
      rw [List.take_succ_cons]
      by_cases hc : c = b
      · subst hc
        rw [List.idxOf_cons_self, List.idxOf_cons_self, Nat.min_zero]
      · rw [List.idxOf_cons_ne _ hc, List.idxOf_cons_ne _ hc, ih n]
        omega

/-- The place of the name of an element is the number of elements before it. -/
theorem idxOf_map_split {before after : List α} (h : ((before ++ a :: after).map f).Nodup) :
    ((before ++ a :: after).map f).idxOf (f a) = before.length := by
  rw [List.map_append, List.map_cons] at h ⊢
  have hnew : f a ∉ before.map f := fun hmem => (List.nodup_append.mp h).2.2 _ hmem (f a) (by simp) rfl
  rw [List.idxOf_append_of_notMem hnew, List.idxOf_cons_self, List.length_map, Nat.add_zero]

/-- When every element ahead after a change has the name of an element that was ahead before it, the place has not
become worse. -/
theorem idxOf_map_le (hl : l.Pairwise fun a b => key a < key b) (hl' : l'.Pairwise fun a b => key a < key b)
    (hnames : (l.map f).Nodup) (hnames' : (l'.map f).Nodup) (ha : a ∈ l) (ha' : a' ∈ l')
    (hahead : ∀ b' ∈ l', key b' < key a' → ∃ b ∈ l, f b = f b' ∧ key b < key a) :
    (l'.map f).idxOf (f a') ≤ (l.map f).idxOf (f a) := by
  obtain ⟨before, after, rfl⟩ := List.append_of_mem ha
  obtain ⟨before', after', rfl⟩ := List.append_of_mem ha'
  rw [idxOf_map_split hnames, idxOf_map_split hnames']
  have hsub : before'.map f ⊆ before.map f := by
    intro name hmem
    obtain ⟨b', hb', rfl⟩ := List.mem_map.mp hmem
    have hlt : key b' < key a' := (List.pairwise_append.mp hl').2.2 b' hb' a' (by simp)
    obtain ⟨b, hb, heq, hba⟩ := hahead b' (by simp [hb']) hlt
    rw [← heq]
    rcases List.mem_append.mp hb with hb | hb
    · exact List.mem_map_of_mem hb
    · rcases List.mem_cons.mp hb with rfl | hb
      · exact absurd hba (lt_irrefl _)
      · -- behind `a`, but with a smaller key
        have hab : key a < key b := (List.pairwise_cons.mp (List.pairwise_append.mp hl).2.1).1 b hb
        exact absurd hba (lt_asymm hab)
  have hnodup : (before'.map f).Nodup := by
    rw [List.map_append] at hnames'
    exact (List.nodup_append.mp hnames').1
  have hlength := (hnodup.subperm hsub).length_le
  rwa [List.length_map, List.length_map] at hlength

end Place

theorem sortByKey_sorted (key : α → κ) (l : List α) :
    (sortByKey key l).Pairwise fun a b => key a ≤ key b := by
  have htrue : l.Pairwise fun _ _ => True := List.pairwise_of_forall fun _ _ => trivial
  refine (sortByKey_pairwise htrue).imp ?_
  rintro a b (hlt | ⟨heq, -⟩)
  · exact le_of_lt hlt
  · exact le_of_eq heq

/-- The elements of a finite set, from the smallest. -/
def inOrder (s : Finset κ) : List κ :=
  Quot.liftOn s.val (sortByKey id) (by
    intro l l' h
    have hsorted : ∀ l : List κ, (sortByKey id l).Pairwise (· ≤ ·) := sortByKey_sorted id
    have hperm : (sortByKey id l).Perm (sortByKey id l') :=
      (sortByKey_perm id l).trans (h.trans (sortByKey_perm id l').symm)
    exact hperm.eq_of_pairwise' (hsorted l) (hsorted l'))

@[simp] theorem mem_inOrder {s : Finset κ} {a : κ} : a ∈ inOrder s ↔ a ∈ s := by
  obtain ⟨⟨l⟩, hs⟩ := s
  exact mem_sortByKey

theorem inOrder_strict (s : Finset κ) : (inOrder s).Pairwise (· < ·) := by
  obtain ⟨⟨l⟩, hs⟩ := s
  exact sortByKey_id_strict hs

end CodeGraph.Lib
