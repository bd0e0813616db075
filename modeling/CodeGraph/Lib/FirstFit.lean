import Mathlib.Data.List.Perm.Basic
import Mathlib.Data.List.Perm.Subperm

/-!
# First fit

`firstFit` walks a list and gives every element the first partner left that fits it. What it gives is a pairing
(`Pairs`), yet it can miss one: an element is starved when others can take everything that fits it (`Starved`). That is
the only way to fail (`starved_of_firstFit`), and an order of the two lists brings it about (`firstFit_eq_false`).
-/

namespace CodeGraph.Lib

variable {α β : Type*} {R : α → β → Prop} {fits : α → β → Bool} {l l' : List α} {pool pool' : List β}

/-- Every element of the list has a partner of its own in the pool. -/
def Pairs (R : α → β → Prop) (l : List α) (pool : List β) : Prop := ∃ given, List.Forall₂ R l given ∧ given.Subperm pool

theorem Pairs.perm (h : Pairs R l pool) (hl : l.Perm l') (hpool : pool.Perm pool') : Pairs R l' pool' := by
  obtain ⟨given, hgiven, hsub⟩ := h
  obtain ⟨given', hgiven', hperm⟩ := List.perm_comp_forall₂ hl.symm hgiven
  exact ⟨given', hgiven', (hperm.subperm.trans hsub).trans hpool.subperm⟩

theorem pairs_congr (hl : l.Perm l') (hpool : pool.Perm pool') : Pairs R l pool ↔ Pairs R l' pool' :=
  ⟨fun h => h.perm hl hpool, fun h => h.perm hl.symm hpool.symm⟩

theorem Pairs.append {l₂ : List α} {pool₂ : List β} (h : Pairs R l pool) (h₂ : Pairs R l₂ pool₂) :
    Pairs R (l ++ l₂) (pool ++ pool₂) := by
  obtain ⟨given, hgiven, hsub⟩ := h
  obtain ⟨given₂, hgiven₂, hsub₂⟩ := h₂
  exact ⟨given ++ given₂, List.rel_append hgiven hgiven₂, hsub.append hsub₂⟩

theorem Pairs.mono {S : α → β → Prop} (h : Pairs R l pool) (hRS : ∀ a b, R a b → S a b) : Pairs S l pool := by
  obtain ⟨given, hgiven, hsub⟩ := h
  exact ⟨given, hgiven.imp hRS, hsub⟩

/-- Give every element in turn the first partner left that fits it. -/
def firstFit (fits : α → β → Bool) : List α → List β → Bool
  | [], _ => true
  | a :: l, pool =>
    match pool.findIdx? (fits a) with
    | none => false
    | some i => firstFit fits l (pool.eraseIdx i)

theorem pairs_of_firstFit (h : firstFit fits l pool = true) : Pairs (fun a b => fits a b = true) l pool := by
  induction l generalizing pool with
  | nil => exact ⟨[], .nil, List.nil_subperm⟩
  | cons a l ih =>
    rw [firstFit] at h
    cases hfind : pool.findIdx? (fits a) with
    | none =>
      rw [hfind] at h
      cases h
    | some i =>
      rw [hfind] at h
      obtain ⟨hi, hfit, -⟩ := List.findIdx?_eq_some_iff_getElem.mp hfind
      obtain ⟨given, hgiven, hsub⟩ := ih h
      refine ⟨pool[i] :: given, .cons hfit hgiven, ?_⟩
      exact (List.subperm_cons pool[i]).mpr hsub |>.trans (List.getElem_cons_eraseIdx_perm hi).subperm

/-! ### Starved elements -/

/-- Others can take everything in the pool that fits some element. -/
def Starved (fits : α → β → Bool) (l : List α) (pool : List β) : Prop :=
  ∃ a takers, (a :: takers).Subperm l ∧ List.Forall₂ (fun a b => fits a b = true) takers (pool.filter (fits a))

theorem Starved.perm (h : Starved fits l pool) (hl : l.Perm l') (hpool : pool.Perm pool') : Starved fits l' pool' := by
  obtain ⟨a, takers, hsub, htake⟩ := h
  have hfilter := (hpool.filter (fits a)).symm
  obtain ⟨takers', htake', hperm⟩ := List.perm_comp_forall₂ hfilter htake.flip
  refine ⟨a, takers', ?_, htake'.flip⟩
  exact ((hperm.cons a).subperm.trans hsub).trans hl.subperm

/-- The pairs whose partners pass a test. -/
theorem forall₂_filter {q : β → Bool} (h : List.Forall₂ R l pool) :
    ∃ l', l'.Sublist l ∧ List.Forall₂ R l' (pool.filter q) := by
  induction h with
  | nil => exact ⟨[], List.Sublist.refl [], .nil⟩
  | @cons a b l pool hab _ ih =>
    obtain ⟨l', hsub, hl'⟩ := ih
    by_cases hq : q b = true
    · rw [List.filter_cons_of_pos hq]
      exact ⟨a :: l', hsub.cons_cons a, .cons hab hl'⟩
    · rw [List.filter_cons_of_neg hq]
      exact ⟨l', hsub.cons a, hl'⟩

/-- Where the walk stops, those before the element have taken what fits it. -/
theorem starved_of_firstFit {done : List α} {taken : List β} (h : firstFit fits l pool = false)
    (hdone : List.Forall₂ (fun a b => fits a b = true) done taken) : Starved fits (done ++ l) (taken ++ pool) := by
  induction l generalizing pool done taken with
  | nil => cases h
  | cons a l ih =>
    rw [firstFit] at h
    cases hfind : pool.findIdx? (fits a) with
    | none =>
      have hpool : pool.filter (fits a) = [] := by
        apply List.filter_eq_nil_iff.mpr
        intro b hb
        rw [List.findIdx?_eq_none_iff.mp hfind b hb]
        exact Bool.false_ne_true
      obtain ⟨takers, hsub, htake⟩ := @forall₂_filter α β _ done taken (fits a) hdone
      refine ⟨a, takers, ?_, ?_⟩
      · have hmid : (done ++ a :: l).Perm (a :: (done ++ l)) := List.perm_middle
        exact ((hsub.trans (List.sublist_append_left done l)).cons_cons a).subperm.trans hmid.symm.subperm
      · rw [List.filter_append, hpool, List.append_nil]
        exact htake
    | some i =>
      rw [hfind] at h
      obtain ⟨hi, hfit, -⟩ := List.findIdx?_eq_some_iff_getElem.mp hfind
      have hstarved := ih h (.cons hfit hdone)
      apply hstarved.perm
      · exact List.perm_middle.symm
      · have hmid : (taken ++ pool[i] :: pool.eraseIdx i).Perm (pool[i] :: (taken ++ pool.eraseIdx i)) :=
          List.perm_middle
        exact hmid.symm.trans ((List.getElem_cons_eraseIdx_perm hi).append_left taken)

/-- Without a starved element no walk stops. -/
theorem firstFit_of_not_starved (h : ¬Starved fits l pool) : firstFit fits l pool = true := by
  rw [← Bool.not_eq_false]
  intro hfail
  exact h (starved_of_firstFit hfail .nil)

/-- The takers come first and find what they take at the head of the pool; nothing is left for the element. -/
theorem firstFit_eq_false {takers rest : List α} {given left : List β} {a : α}
    (htake : List.Forall₂ (fun a b => fits a b = true) takers given) (hleft : ∀ b ∈ left, fits a b = false) :
    firstFit fits (takers ++ a :: rest) (given ++ left) = false := by
  induction htake with
  | nil =>
    have hnone : left.findIdx? (fits a) = none := List.findIdx?_eq_none_iff.mpr hleft
    rw [List.nil_append, List.nil_append, firstFit, hnone]
  | @cons t b takers given hfit _ ih =>
    have hhead : (b :: (given ++ left)).findIdx? (fits t) = some 0 := by
      rw [List.findIdx?_cons, if_pos hfit]
    rw [List.cons_append, List.cons_append, firstFit, hhead]
    exact ih

theorem Starved.exists_order (h : Starved fits l pool) :
    ∃ a takers rest, (takers ++ a :: rest).Perm l ∧
      List.Forall₂ (fun a b => fits a b = true) takers (pool.filter (fits a)) := by
  obtain ⟨a, takers, ⟨m, hm, hsub⟩, htake⟩ := h
  obtain ⟨rest, hrest⟩ := hsub.exists_perm_append
  refine ⟨a, takers, rest, ?_, htake⟩
  have horder : (takers ++ a :: rest).Perm (a :: takers ++ rest) := List.perm_middle
  exact horder.trans ((hm.symm.append_right rest).trans hrest.symm)

end CodeGraph.Lib
