import CodeGraph.Plugin.StopImpact
import Mathlib.Data.List.Lattice

/-!
# When a changed signature is reported

`signatureChanged` pairs equal keys first and then gives every old key that is left the first new key left that extends
it. A silent answer is always backed by a pairing (`pairable_of_unchanged`). The converse fails where an old key can be
starved: the keys that extend it are those that others may take, or the key equal to its only extension was paired
already.
-/

namespace CodeGraph.Plugin.StopImpact

open CodeGraph.Lib

section Exact

variable {κ : Type*} [DecidableEq κ] {old old' new new' : List κ} {s : List (κ × ℕ) × List κ} {key : κ}

/-- The old keys without an equal new one. -/
def leftOld (old new : List κ) : List κ := old.diff new

/-- The old keys with an equal new one. -/
def common (old new : List κ) : List κ := old.bagInter new

/-- The new keys without an equal old one. -/
def leftNew (old new : List κ) : List κ := new.diff old

def unmatched (old new : List κ) : List κ := (old.foldl matchExact (Tally.count new, [])).2

def pool (old new : List κ) : List κ := Tally.expand (old.foldl matchExact (Tally.count new, [])).1

/-! ### The exact pairs -/

theorem matchExact_of_zero (h : Tally.get s.1 key = 0) : matchExact s key = (s.1, s.2 ++ [key]) := by
  rw [matchExact]
  exact if_pos h

theorem matchExact_of_ne_zero (h : Tally.get s.1 key ≠ 0) :
    matchExact s key = (Tally.set s.1 key (Tally.get s.1 key - 1), s.2) := by
  rw [matchExact]
  exact if_neg h

theorem matchExact_keys (s : List (κ × ℕ) × List κ) (key : κ) : Tally.keys (matchExact s key).1 = Tally.keys s.1 := by
  by_cases hzero : Tally.get s.1 key = 0
  · rw [matchExact_of_zero hzero]
  · have hmem : key ∈ Tally.keys s.1 := by
      by_contra hmem
      exact hzero (Tally.get_eq_zero hmem)
    rw [matchExact_of_ne_zero hzero, Tally.keys_set, if_pos hmem]

theorem foldl_matchExact_keys (old : List κ) (s : List (κ × ℕ) × List κ) :
    Tally.keys (old.foldl matchExact s).1 = Tally.keys s.1 := by
  induction old generalizing s with
  | nil => rfl
  | cons key old ih => rw [List.foldl_cons, ih, matchExact_keys]

/-- Every key is paired as often as both lists have it. -/
theorem foldl_matchExact_count (old : List κ) (s : List (κ × ℕ) × List κ) (key : κ) :
    Tally.get (old.foldl matchExact s).1 key = Tally.get s.1 key - old.count key ∧
      (old.foldl matchExact s).2.count key = s.2.count key + (old.count key - Tally.get s.1 key) := by
  -- the induction is on the old list: each element takes one of its key, or is left over
  induction old generalizing s with
  | nil =>
    rw [List.foldl_nil, List.count_nil]
    omega
  | cons k old ih =>
    obtain ⟨hget, hcount⟩ := ih (matchExact s k)
    rw [List.foldl_cons, hget, hcount]
    by_cases hzero : Tally.get s.1 k = 0
    · rw [matchExact_of_zero hzero]
      show Tally.get s.1 key - old.count key = Tally.get s.1 key - (k :: old).count key ∧
        (s.2 ++ [k]).count key + (old.count key - Tally.get s.1 key) =
          s.2.count key + ((k :: old).count key - Tally.get s.1 key)
      rw [List.count_append, List.count_singleton, List.count_cons]
      by_cases hk : k = key
      · subst hk
        rw [if_pos (beq_self_eq_true k)]
        omega
      · rw [if_neg (by simpa using hk)]
        omega
    · rw [matchExact_of_ne_zero hzero]
      show Tally.get (Tally.set s.1 k (Tally.get s.1 k - 1)) key - _ = _ ∧ s.2.count key + _ = _
      rw [Tally.get_set, List.count_cons]
      by_cases hk : k = key
      · subst hk
        rw [if_pos rfl, if_pos (beq_self_eq_true k)]
        omega
      · rw [if_neg hk, if_neg (by simpa using hk)]
        omega

theorem unmatched_perm (old new : List κ) : (unmatched old new).Perm (leftOld old new) := by
  rw [List.perm_iff_count]
  intro key
  have hcount := (foldl_matchExact_count old (Tally.count new, []) key).2
  rw [unmatched, leftOld, List.count_diff, hcount, Tally.get_count, List.count_nil]
  omega

theorem pool_perm (old new : List κ) : (pool old new).Perm (leftNew old new) := by
  rw [List.perm_iff_count]
  intro key
  have hkeys := foldl_matchExact_keys old (Tally.count new, [])
  have hnodup : (Tally.keys (old.foldl matchExact (Tally.count new, [])).1).Nodup := by
    rw [hkeys]
    exact Tally.keys_nodup_count new
  rw [pool, leftNew, Tally.count_expand hnodup, List.count_diff, (foldl_matchExact_count old _ key).1, Tally.get_count]

/-- The order of the old keys does not show in the pool. -/
theorem pool_congr (h : old.Perm old') : pool old new = pool old' new := by
  have hkeys := foldl_matchExact_keys old (Tally.count new, [])
  have hkeys' := foldl_matchExact_keys old' (Tally.count new, [])
  rw [pool, pool]
  refine congrArg Tally.expand (Tally.ext_get (hkeys.trans hkeys'.symm) ?_ ?_)
  · rw [hkeys]
    exact Tally.keys_nodup_count new
  · intro key
    rw [(foldl_matchExact_count old _ key).1, (foldl_matchExact_count old' _ key).1, h.count_eq key]

/-- New keys that come first when they pass a test still do in the pool. -/
theorem pool_split {p : κ → Bool} (old new : List κ) :
    let pool := pool old (new.filter p ++ new.filter fun key => !p key)
    pool = pool.filter p ++ pool.filter fun key => !p key := by
  intro pool'
  have hnew : (new.filter p ++ new.filter fun key => !p key).Pairwise fun x y => p y = true → p x = true := by
    refine List.pairwise_append.mpr ⟨?_, ?_, ?_⟩
    · exact List.pairwise_of_forall_mem_list fun x hx _ _ _ => (List.mem_filter.mp hx).2
    · refine List.pairwise_of_forall_mem_list fun x _ y hy hpy => ?_
      have hy := (List.mem_filter.mp hy).2
      rw [hpy] at hy
      cases hy
    · exact fun x hx _ _ _ => (List.mem_filter.mp hx).2
  have hpool : pool'.Pairwise fun x y => p y = true → p x = true := by
    refine Tally.pairwise_expand (fun _ h => h) ?_
    rw [foldl_matchExact_keys]
    exact Tally.keys_pairwise_count hnew
  clear_value pool'
  induction pool' with
  | nil => rfl
  | cons key pool' ih =>
    obtain ⟨hkey, hpool⟩ := List.pairwise_cons.mp hpool
    by_cases hp : p key = true
    · rw [List.filter_cons_of_pos hp, List.filter_cons_of_neg (by simp [hp]), List.cons_append, ← ih hpool]
    · have hnone : pool'.filter p = [] := List.filter_eq_nil_iff.mpr fun x hx hpx => hp (hkey x hx hpx)
      have hall : (pool'.filter fun key => !p key) = pool' := by
        apply List.filter_eq_self.mpr
        intro x hx
        have hx := List.filter_eq_nil_iff.mp hnone x hx
        simpa using hx
      rw [List.filter_cons_of_neg hp, List.filter_cons_of_pos (by simpa using hp), hnone, hall, List.nil_append]

/-- Keys of which nothing is left stay unmatched, in their order. -/
theorem foldl_matchExact_of_zero (h : ∀ key ∈ old, Tally.get s.1 key = 0) :
    old.foldl matchExact s = (s.1, s.2 ++ old) := by
  induction old generalizing s with
  | nil => rw [List.foldl_nil, List.append_nil]
  | cons key old ih =>
    have hstep := matchExact_of_zero (h key List.mem_cons_self)
    have hrest := @ih (s.1, s.2 ++ [key]) fun k hk => h k (List.mem_cons_of_mem key hk)
    rw [List.foldl_cons, hstep, hrest, List.append_assoc, List.singleton_append]

/-- With the common keys first, what is left keeps its order. -/
theorem unmatched_common (h : old'.Perm (leftOld old new)) : unmatched (common old new ++ old') new = old' := by
  have hcommon := foldl_matchExact_count (common old new) (Tally.count new, [])
  have hnil : ((common old new).foldl matchExact (Tally.count new, [])).2 = [] := by
    apply List.eq_nil_iff_forall_not_mem.mpr
    intro key hmem
    have hpos := List.count_pos_iff.mpr hmem
    rw [(hcommon key).2, Tally.get_count, common, List.count_bagInter, List.count_nil] at hpos
    omega
  have hzero : ∀ key ∈ old', Tally.get ((common old new).foldl matchExact (Tally.count new, [])).1 key = 0 := by
    intro key hmem
    have hpos := List.count_pos_iff.mpr hmem
    rw [h.count_eq key, leftOld, List.count_diff] at hpos
    rw [(hcommon key).1, Tally.get_count, common, List.count_bagInter]
    omega
  rw [unmatched, List.foldl_append, foldl_matchExact_of_zero hzero, hnil, List.nil_append]

theorem common_append_leftOld (old new : List κ) : (common old new ++ leftOld old new).Perm old := by
  rw [List.perm_iff_count]
  intro key
  rw [List.count_append, common, List.count_bagInter, leftOld, List.count_diff]
  omega

theorem common_append_leftNew (old new : List κ) : (common old new ++ leftNew old new).Perm new := by
  rw [List.perm_iff_count]
  intro key
  rw [List.count_append, common, List.count_bagInter, leftNew, List.count_diff]
  omega

theorem leftOld_perm (ho : old'.Perm old) (hn : new'.Perm new) : (leftOld old' new').Perm (leftOld old new) :=
  ho.diff hn

theorem leftNew_perm (ho : old'.Perm old) (hn : new'.Perm new) : (leftNew old' new').Perm (leftNew old new) :=
  hn.diff ho

end Exact

/-! ### The answer -/

section Answer

variable {symbol : List Char} {old old' new new' : List (List Char)}

/-- The new key is the old one with optional parameters appended. -/
def extendsKey (symbol s t : List Char) : Bool := appendsOptionalParams s t symbol

/-- Every old key has a new key of its own that its callers can still use. -/
def Pairable (symbol : List Char) (old new : List (List Char)) : Prop :=
  Pairs (fun s t => s = t ∨ extendsKey symbol s t = true) old new

/-- The answer is silent just when there is a pairing, in whatever order the keys come. -/
structure Settled (symbol : List Char) (old new : List (List Char)) : Prop where
  pairs : signatureChanged old new (some symbol) = false ↔ Pairable symbol old new
  order : ∀ old' new', old'.Perm old → new'.Perm new →
    signatureChanged old' new' (some symbol) = signatureChanged old new (some symbol)

theorem signatureChanged_eq_false_iff : signatureChanged old new (some symbol) = false ↔
    unmatched old new = [] ∨ symbol ≠ [] ∧ firstFit (extendsKey symbol) (unmatched old new) (pool old new) = true := by
  unfold signatureChanged
  show (if unmatched old new = [] then false else _) = false ↔ _
  by_cases hnil : unmatched old new = []
  · rw [if_pos hnil]
    exact iff_of_true rfl (.inl hnil)
  · rw [if_neg hnil]
    cases symbol with
    | nil => exact iff_of_false (fun h => by cases h) (fun h => h.elim hnil fun h => h.1 rfl)
    | cons c symbol =>
      show (!firstFit (extendsKey (c :: symbol)) (unmatched old new) (pool old new)) = false ↔ _
      rw [Bool.not_eq_false']
      exact ⟨fun h => .inr ⟨List.cons_ne_nil c symbol, h⟩, fun h => h.resolve_left hnil |>.2⟩

theorem pairable_congr (ho : old'.Perm old) (hn : new'.Perm new) :
    Pairable symbol old' new' ↔ Pairable symbol old new :=
  pairs_congr ho hn

/-- Pairs of the keys that are left, beside the equal ones, pair all keys. -/
theorem pairable_of_left (h : Pairs (fun s t => extendsKey symbol s t = true) (leftOld old new) (leftNew old new)) :
    Pairable symbol old new := by
  have hequal : Pairs (fun s t => s = t ∨ extendsKey symbol s t = true) (common old new) (common old new) :=
    ⟨common old new, List.forall₂_same.mpr fun s _ => .inl rfl, List.Subperm.refl _⟩
  have hall := hequal.append (h.mono fun s t hst => Or.inr hst)
  exact hall.perm (common_append_leftOld old new) (common_append_leftNew old new)

theorem pairable_of_unchanged (h : signatureChanged old new (some symbol) = false) : Pairable symbol old new := by
  apply pairable_of_left
  rcases signatureChanged_eq_false_iff.mp h with hnil | ⟨-, hfit⟩
  · have hleft : leftOld old new = [] := by
      have hperm := unmatched_perm old new
      rw [hnil] at hperm
      exact hperm.symm.eq_nil
    rw [hleft]
    exact ⟨[], .nil, List.nil_subperm⟩
  · exact (pairs_of_firstFit hfit).perm (unmatched_perm old new) (pool_perm old new)

theorem unchanged_of_not_starved (h : ¬Starved (extendsKey symbol) (leftOld old new) (leftNew old new))
    (hsymbol : symbol = [] → leftOld old new = []) : signatureChanged old new (some symbol) = false := by
  rw [signatureChanged_eq_false_iff]
  by_cases hnil : symbol = []
  · left
    have hperm := unmatched_perm old new
    rw [hsymbol hnil] at hperm
    exact hperm.eq_nil
  · right
    refine ⟨hnil, firstFit_of_not_starved fun hstarved => h ?_⟩
    exact hstarved.perm (unmatched_perm old new) (pool_perm old new)

/-- An order in which the takers come before the starved key, and what they take at the head of the pool. -/
theorem exists_changed_of_starved (h : Starved (extendsKey symbol) (leftOld old new) (leftNew old new)) :
    ∃ old' new', old'.Perm old ∧ new'.Perm new ∧ signatureChanged old' new' (some symbol) = true := by
  obtain ⟨key, takers, rest, horder, htake⟩ := h.exists_order
  let p := extendsKey symbol key
  let new' := new.filter p ++ new.filter fun t => !p t
  have hnew : new'.Perm new := List.filter_append_perm p new
  have hpool := (pool_perm old new').trans (leftNew_perm (List.Perm.refl old) hnew)
  obtain ⟨takers', htake', htakers⟩ := List.perm_comp_forall₂ (hpool.filter p) htake.flip
  let left' := takers' ++ key :: rest
  have hleft : left'.Perm (leftOld old new') :=
    ((htakers.append_right (key :: rest)).trans horder).trans (leftOld_perm (List.Perm.refl old) hnew.symm)
  let old' := common old new' ++ left'
  have hold : old'.Perm old := (hleft.append_left _).trans (common_append_leftOld old new')
  refine ⟨old', new', hold, hnew, ?_⟩
  rw [← Bool.not_eq_false, signatureChanged_eq_false_iff]
  have hunmatched : unmatched old' new' = left' := unmatched_common hleft
  have hsplit : pool old' new' = (pool old new').filter p ++ (pool old new').filter fun t => !p t := by
    rw [pool_congr hold]
    exact pool_split old new
  rw [hunmatched, hsplit]
  rintro (hnil | ⟨-, hfit⟩)
  · exact List.append_ne_nil_of_right_ne_nil takers' (List.cons_ne_nil key rest) hnil
  · rw [firstFit_eq_false htake'.flip] at hfit
    · cases hfit
    · intro t ht
      have hp := (List.mem_filter.mp ht).2
      rwa [Bool.not_eq_true'] at hp

/-- The answer is right in every order just when no key that is left can be starved, or there is no pairing. -/
theorem signatureChanged_settled_iff : Settled symbol old new ↔
    (Pairable symbol old new →
      ¬Starved (extendsKey symbol) (leftOld old new) (leftNew old new) ∧ (symbol = [] → leftOld old new = [])) := by
  constructor
  · intro h hpair
    have hfalse := h.pairs.mpr hpair
    constructor
    · intro hstarved
      obtain ⟨old', new', hold, hnew, htrue⟩ := exists_changed_of_starved hstarved
      rw [h.order old' new' hold hnew, hfalse] at htrue
      cases htrue
    · intro hsymbol
      rcases signatureChanged_eq_false_iff.mp hfalse with hnil | ⟨hne, -⟩
      · have hperm := unmatched_perm old new
        rw [hnil] at hperm
        exact hperm.symm.eq_nil
      · exact absurd hsymbol hne
  · intro h
    -- no order of the two lists starves one, so every order pairs them
    have hany : ∀ old' new', old'.Perm old → new'.Perm new →
        (signatureChanged old' new' (some symbol) = false ↔ Pairable symbol old new) := by
      intro old' new' hold hnew
      refine ⟨fun hfalse => (pairable_congr hold hnew).mp (pairable_of_unchanged hfalse), fun hpair => ?_⟩
      obtain ⟨hstarved, hsymbol⟩ := h hpair
      apply unchanged_of_not_starved
      · intro hstarved'
        exact hstarved (hstarved'.perm (leftOld_perm hold hnew) (leftNew_perm hold hnew))
      · intro hnil
        have hperm := leftOld_perm hold hnew
        rw [hsymbol hnil] at hperm
        exact hperm.eq_nil
    refine ⟨hany old new (List.Perm.refl _) (List.Perm.refl _), fun old' new' hold hnew => ?_⟩
    rw [Bool.eq_iff_iff, ← not_iff_not, Bool.not_eq_true, Bool.not_eq_true, hany old' new' hold hnew,
      hany old new (List.Perm.refl _) (List.Perm.refl _)]

/-- `f(a)` takes the only key that extends `f(a,b=1)`, while another extends `f(a)`. -/
theorem signatureChanged_not_settled : ¬Settled ['f']
    [['f', '(', 'a', ')'], ['f', '(', 'a', ',', 'b', '=', '1', ')']]
    [['f', '(', 'a', ',', 'b', '=', '1', ',', 'c', '=', '2', ')'], ['f', '(', 'a', ',', 'x', '=', '1', ')']] := by
  intro h
  have hpair : Pairable ['f'] [['f', '(', 'a', ')'], ['f', '(', 'a', ',', 'b', '=', '1', ')']]
      [['f', '(', 'a', ',', 'b', '=', '1', ',', 'c', '=', '2', ')'], ['f', '(', 'a', ',', 'x', '=', '1', ')']] :=
    ⟨[['f', '(', 'a', ',', 'x', '=', '1', ')'], ['f', '(', 'a', ',', 'b', '=', '1', ',', 'c', '=', '2', ')']],
      .cons (.inr (by decide)) (.cons (.inr (by decide)) .nil), (List.Perm.swap _ _ _).subperm⟩
  have hfalse := h.pairs.mpr hpair
  revert hfalse
  decide

end Answer

end CodeGraph.Plugin.StopImpact
