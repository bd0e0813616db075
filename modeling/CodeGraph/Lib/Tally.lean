import Mathlib.Data.List.Count
import Mathlib.Data.List.Nodup
import Mathlib.Data.List.Perm.Basic

/-!
# Counts in the order of their keys

A map from keys to counts that is walked in the order in which its keys were first set. Spelled out
(`Tally.expand`), it holds every key as often as it counts.
-/

namespace CodeGraph.Lib

namespace Tally

variable {α : Type*} [DecidableEq α] {m : List (α × ℕ)} {a b : α} {n : ℕ}

def get : List (α × ℕ) → α → ℕ
  | [], _ => 0
  | (b, k) :: m, a => if b = a then k else get m a

/-- A key that is there keeps its place. -/
def set : List (α × ℕ) → α → ℕ → List (α × ℕ)
  | [], a, n => [(a, n)]
  | (b, k) :: m, a, n => if b = a then (b, n) :: m else (b, k) :: set m a n

/-- Count the elements of a list. -/
def count (l : List α) : List (α × ℕ) := l.foldl (fun m a => set m a (get m a + 1)) []

/-- The keys of the map. -/
def keys (m : List (α × ℕ)) : List α := m.map Prod.fst

def expand (m : List (α × ℕ)) : List α := m.flatMap fun e => List.replicate e.2 e.1

theorem get_set (m : List (α × ℕ)) : get (set m a n) b = if a = b then n else get m b := by
  induction m with
  | nil => rfl
  | cons e m ih =>
    obtain ⟨c, k⟩ := e
    by_cases hca : c = a
    · subst hca
      rw [set, if_pos rfl, get, get]
      by_cases hcb : c = b
      · rw [if_pos hcb, if_pos hcb]
      · rw [if_neg hcb, if_neg hcb, if_neg hcb]
    · rw [set, if_neg hca, get, ih, get]
      by_cases hcb : c = b
      · rw [if_pos hcb, if_pos hcb, if_neg fun hab => hca (hcb.trans hab.symm)]
      · rw [if_neg hcb, if_neg hcb]

theorem keys_set (m : List (α × ℕ)) : keys (set m a n) = if a ∈ keys m then keys m else keys m ++ [a] := by
  induction m with
  | nil => rfl
  | cons e m ih =>
    obtain ⟨c, k⟩ := e
    show keys (set ((c, k) :: m) a n) = if a ∈ c :: keys m then c :: keys m else c :: keys m ++ [a]
    by_cases hca : c = a
    · subst hca
      rw [set, if_pos rfl, if_pos List.mem_cons_self]
      rfl
    · rw [set, if_neg hca]
      show c :: keys (set m a n) = _
      rw [ih]
      by_cases ha : a ∈ keys m
      · rw [if_pos ha, if_pos (List.mem_cons_of_mem c ha)]
      · rw [if_neg ha, if_neg]
        · rfl
        · intro hmem
          rcases List.mem_cons.mp hmem with hac | hmem
          · exact hca hac.symm
          · exact ha hmem

theorem keys_nodup_set (h : (keys m).Nodup) : (keys (set m a n)).Nodup := by
  rw [keys_set]
  split_ifs with ha
  · exact h
  · refine List.nodup_append.mpr ⟨h, List.nodup_singleton a, ?_⟩
    rintro x hx y hy rfl
    exact ha (List.mem_singleton.mp hy ▸ hx)

theorem get_eq_zero (h : a ∉ keys m) : get m a = 0 := by
  induction m with
  | nil => rfl
  | cons e m ih =>
    obtain ⟨c, k⟩ := e
    have hne : c ≠ a := fun hca => h (hca ▸ List.mem_cons_self)
    rw [get, if_neg hne]
    exact ih fun ha => h (List.mem_cons_of_mem c ha)

theorem count_expand (h : (keys m).Nodup) (a : α) : (expand m).count a = get m a := by
  induction m with
  | nil => rfl
  | cons e m ih =>
    obtain ⟨c, k⟩ := e
    obtain ⟨hc, hm⟩ := List.nodup_cons.mp h
    rw [expand, List.flatMap_cons, List.count_append, List.count_replicate, get]
    have hrest : List.count a (m.flatMap fun e => List.replicate e.2 e.1) = get m a := ih hm
    rw [hrest]
    by_cases hca : c = a
    · subst hca
      have hzero : get m c = 0 := get_eq_zero hc
      rw [if_pos (beq_self_eq_true c), if_pos rfl]
      omega
    · rw [if_neg (by simpa using hca), if_neg hca]
      omega

omit [DecidableEq α] in
theorem mem_keys_of_mem_expand (h : a ∈ expand m) : a ∈ keys m := by
  obtain ⟨e, he, ha⟩ := List.mem_flatMap.mp h
  rw [List.eq_of_mem_replicate ha]
  exact List.mem_map_of_mem he

omit [DecidableEq α] in
/-- Spelling the counts out keeps the order of the keys. -/
theorem pairwise_expand {r : α → α → Prop} (hr : ∀ a, r a a) (h : (keys m).Pairwise r) : (expand m).Pairwise r := by
  induction m with
  | nil => exact .nil
  | cons e m ih =>
    obtain ⟨c, k⟩ := e
    obtain ⟨hc, hm⟩ := List.pairwise_cons.mp h
    refine List.pairwise_append.mpr ⟨?_, ih hm, ?_⟩
    · exact List.pairwise_replicate.mpr (.inr (hr c))
    · intro x hx y hy
      rw [List.eq_of_mem_replicate hx]
      exact hc y (mem_keys_of_mem_expand hy)

/-- A map is its keys and their counts. -/
theorem ext_get {m' : List (α × ℕ)} (hkeys : keys m = keys m') (hm : (keys m).Nodup)
    (hget : ∀ a, get m a = get m' a) : m = m' := by
  induction m generalizing m' with
  | nil => exact (List.map_eq_nil_iff.mp hkeys.symm).symm
  | cons e m ih =>
    obtain ⟨c, k⟩ := e
    match m', hkeys with
    | [], hkeys => cases hkeys
    | (c', k') :: m', hkeys =>
      obtain ⟨rfl, htail⟩ := List.cons.inj hkeys
      obtain ⟨hc, hm⟩ := List.nodup_cons.mp hm
      have hk : k = k' := by simpa [get] using hget c
      have hrest : m = m' := by
        apply ih htail hm
        intro a
        by_cases hca : c = a
        · subst hca
          have hc' : c ∉ keys m' := by
            rw [show keys m' = keys m from htail.symm]
            exact hc
          rw [get_eq_zero hc, get_eq_zero hc']
        · simpa [get, hca] using hget a
      rw [hk, hrest]

/-! ### Counting a list -/

theorem get_foldl (l : List α) (m : List (α × ℕ)) :
    get (l.foldl (fun m a => set m a (get m a + 1)) m) a = get m a + l.count a := by
  induction l generalizing m with
  | nil => rfl
  | cons b l ih =>
    rw [List.foldl_cons, ih, get_set, List.count_cons]
    by_cases hba : b = a
    · subst hba
      rw [if_pos rfl, if_pos (beq_self_eq_true b)]
      omega
    · rw [if_neg hba, if_neg (by simpa using hba)]
      omega

theorem get_count (l : List α) (a : α) : get (count l) a = l.count a := by
  have hfold := @get_foldl α _ a l []
  rw [count, hfold]
  exact Nat.zero_add _

theorem keys_nodup_count (l : List α) : (keys (count l)).Nodup := by
  suffices h : ∀ m : List (α × ℕ), (keys m).Nodup → (keys (l.foldl (fun m a => set m a (get m a + 1)) m)).Nodup from
    h [] .nil
  induction l with
  | nil => exact fun m hm => hm
  | cons a l ih => exact fun m hm => ih _ (keys_nodup_set hm)

/-- A list in an order that its first elements respect gives keys in that order. -/
theorem keys_pairwise_count {r : α → α → Prop} {l : List α} (h : l.Pairwise r) :
    (keys (count l)).Pairwise r := by
  suffices hfold : ∀ m : List (α × ℕ), (keys m).Pairwise r → (∀ x ∈ keys m, ∀ y ∈ l, r x y) →
      (keys (l.foldl (fun m a => set m a (get m a + 1)) m)).Pairwise r from
    hfold [] .nil fun x hx => absurd hx List.not_mem_nil
  induction l with
  | nil => exact fun m hm _ => hm
  | cons a l ih =>
    intro m hm hle
    obtain ⟨ha, hl⟩ := List.pairwise_cons.mp h
    rw [List.foldl_cons]
    apply ih hl
    · rw [keys_set]
      split_ifs with hmem
      · exact hm
      · refine List.pairwise_append.mpr ⟨hm, List.pairwise_singleton r a, ?_⟩
        intro x hx y hy
        rw [List.mem_singleton.mp hy]
        exact hle x hx a List.mem_cons_self
    · intro x hx y hy
      rw [keys_set] at hx
      split_ifs at hx with hmem
      · exact hle x hx y (List.mem_cons_of_mem a hy)
      · rcases List.mem_append.mp hx with hx | hx
        · exact hle x hx y (List.mem_cons_of_mem a hy)
        · rw [List.mem_singleton.mp hx]
          exact ha y hy

end Tally

end CodeGraph.Lib
