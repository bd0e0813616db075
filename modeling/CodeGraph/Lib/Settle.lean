import CodeGraph.Lib.Run
import Mathlib.Data.List.Perm.Basic

/-!
# Asking a list in rounds

The entries of a list are asked one after another. One that can act on the state does, and the others are asked again in
the next round, until none acts in a round (`settle`). This is a run of some entries to a state where none of the others
can act (`Settled`). Where two entries that can act end alike in either order, all such runs do (`settled_unique`), so
that the order of the list makes no difference. States are alike by a view of them that decides what the entries do.
-/

namespace CodeGraph.Lib

variable {σ α τ : Type*}

/-- The state, the entries that have not acted and those that have, in order. -/
structure Round (σ α : Type*) where
  state : σ
  left : List α
  acted : List α

section Rounds

variable (step : σ → α → Option σ)

def askOne (r : Round σ α) (a : α) : Round σ α :=
  match step r.state a with
  | some s => { r with state := s, acted := r.acted ++ [a] }
  | none => { r with left := r.left ++ [a] }

def askRound (s : σ) (l : List α) : Round σ α := l.foldl (askOne step) ⟨s, [], []⟩

/-- Rounds until one in which none acts, or none is left. It is `none` where the fuel runs out. -/
def settle : ℕ → σ → List α → Option (Round σ α)
  | 0, _, _ => none
  | fuel + 1, s, l =>
    let r := askRound step s l
    if r.acted.isEmpty || r.left.isEmpty then some r
    else (settle fuel r.state r.left).map fun r' => { r' with acted := r.acted ++ r'.acted }

/-- Some of the entries act in turn, and then none of the others can. -/
structure Settled (s : σ) (l : List α) (r : Round σ α) : Prop where
  run : run step s r.acted = some r.state
  perm : (r.acted ++ r.left).Perm l
  stuck : ∀ a ∈ r.left, step r.state a = none

end Rounds

variable {step : σ → α → Option σ} {s s' : σ} {l as left : List α} {a : α} {r r' : Round σ α} {fuel : ℕ}

/-! ### A round -/

theorem askRound_run (s : σ) (l : List α) : run step s (askRound step s l).acted = some (askRound step s l).state ∧
    ((askRound step s l).acted ++ (askRound step s l).left).Perm l := by
  have hfold := foldl_invariant (f := askOne step) (l := l) (s := ⟨s, [], []⟩)
    (I := fun r rest => run step s r.acted = some r.state ∧ (r.acted ++ r.left ++ rest).Perm l) ?_ ⟨rfl, .refl _⟩
  · rw [List.append_nil] at hfold
    exact hfold
  rintro r a rest ⟨hrun, hperm⟩
  unfold askOne
  cases hstep : step r.state a with
  | none => exact ⟨hrun, by simpa using hperm⟩
  | some t =>
    refine ⟨run_append_eq_some.mpr ⟨r.state, hrun, run_cons_eq_some.mpr ⟨t, hstep, rfl⟩⟩, ?_⟩
    refine List.Perm.trans ?_ hperm
    simp only [List.append_assoc, List.singleton_append]
    exact List.Perm.append_left _ List.perm_middle.symm

/-- In a round where none acted, none could. -/
theorem askRound_stuck (h : (askRound step s l).acted = []) :
    (askRound step s l).state = s ∧ ∀ a ∈ (askRound step s l).left, step s a = none := by
  have hfold := foldl_invariant (f := askOne step) (l := l) (s := ⟨s, [], []⟩)
    (I := fun r _ => r.acted = [] → r.state = s ∧ ∀ a ∈ r.left, step s a = none) ?_ fun _ => ⟨rfl, by simp⟩
  · exact hfold h
  intro r a rest hr
  unfold askOne
  cases hstep : step r.state a with
  | none =>
    intro hacted
    obtain ⟨hstate, hleft⟩ := hr hacted
    refine ⟨hstate, fun b hb => ?_⟩
    rcases List.mem_append.mp hb with hold | hnew
    · exact hleft b hold
    · rw [List.mem_singleton.mp hnew, ← hstate]
      exact hstep
  | some t =>
    intro hacted
    exact absurd hacted (List.append_ne_nil_of_right_ne_nil _ (by simp))

/-! ### The rounds together -/

theorem settled_of_settle (h : settle step fuel s l = some r) : Settled step s l r := by
  induction fuel generalizing s l r with
  | zero => cases h
  | succ fuel ih =>
    obtain ⟨hrun, hperm⟩ := @askRound_run σ α step s l
    rw [settle] at h
    split_ifs at h with hlast
    · obtain rfl := Option.some_inj.mp h
      refine ⟨hrun, hperm, fun a ha => ?_⟩
      rw [Bool.or_eq_true, List.isEmpty_iff, List.isEmpty_iff] at hlast
      rcases hlast with hacted | hleft
      · obtain ⟨hstate, hstuck⟩ := askRound_stuck hacted
        rw [hstate]
        exact hstuck a ha
      · rw [hleft] at ha
        cases ha
    · obtain ⟨r', hr', rfl⟩ := Option.map_eq_some_iff.mp h
      obtain ⟨hrun', hperm', hstuck⟩ := ih hr'
      refine ⟨run_append_eq_some.mpr ⟨_, hrun, hrun'⟩, ?_, hstuck⟩
      dsimp only
      rw [List.append_assoc]
      exact (hperm'.append_left _).trans hperm

/-- Each round but the last has an entry less to ask in the next. -/
theorem exists_settle (h : l.length < fuel) : ∃ r, settle step fuel s l = some r := by
  induction fuel generalizing s l with
  | zero => omega
  | succ fuel ih =>
    rw [settle]
    split_ifs with hlast
    · exact ⟨_, rfl⟩
    · have hacted : (askRound step s l).acted ≠ [] := by
        intro hnil
        rw [hnil] at hlast
        exact hlast rfl
      have hpos := List.length_pos_iff.mpr hacted
      have hlength := (@askRound_run σ α step s l).2.length_eq
      rw [List.length_append] at hlength
      obtain ⟨r, hr⟩ := ih (s := (askRound step s l).state) (l := (askRound step s l).left) (by omega)
      exact ⟨_, congrArg _ hr⟩

/-! ### Orders that end alike -/

/-- Wherever some entries have acted, two others that can act end alike in either order. -/
def Commute (step : σ → α → Option σ) (view : σ → τ) (s : σ) (l : List α) : Prop :=
  ∀ before a b rest t ta tb, (before ++ a :: b :: rest).Perm l → run step s before = some t →
    step t a = some ta → step t b = some tb →
    ∃ u u', step ta b = some u ∧ step tb a = some u' ∧ view u = view u'

/-- States that look alike are acted on alike. -/
def Decides (step : σ → α → Option σ) (view : σ → τ) : Prop :=
  ∀ s s' a, view s = view s' → (step s a).map view = (step s' a).map view

variable {view : σ → τ}

theorem Commute.tail (hc : Commute step view s l) (ha : step s a = some s') (hl : (a :: as).Perm l) :
    Commute step view s' as := by
  intro before b c rest t tb tc hperm hrun hb hc'
  exact hc (a :: before) b c rest t tb tc ((hperm.cons a).trans hl) (run_cons_eq_some.mpr ⟨s', ha, hrun⟩) hb hc'

theorem Decides.act {t : σ} (hd : Decides step view) (h : view s = view s') (ha : step s a = some t) :
    ∃ t', step s' a = some t' ∧ view t' = view t := by
  have hmap := hd s s' a h
  rw [ha, Option.map_some] at hmap
  exact Option.map_eq_some_iff.mp hmap.symm

theorem Decides.stuck (hd : Decides step view) (h : view s = view s') (ha : step s a = none) : step s' a = none := by
  have hmap := hd s s' a h
  rw [ha, Option.map_none] at hmap
  exact Option.map_eq_none_iff.mp hmap.symm

theorem Decides.run {t : σ} (hd : Decides step view) (h : view s = view s') (hrun : run step s as = some t) :
    ∃ t', run step s' as = some t' ∧ view t' = view t := by
  induction as generalizing s s' with
  | nil => exact ⟨s', rfl, by rw [← h, Option.some_inj.mp hrun]⟩
  | cons a as ih =>
    obtain ⟨u, hu, hrun⟩ := run_cons_eq_some.mp hrun
    obtain ⟨u', hu', hview⟩ := hd.act h hu
    obtain ⟨t', ht', hend⟩ := ih hview.symm hrun
    exact ⟨t', run_cons_eq_some.mpr ⟨u', hu', ht'⟩, hend⟩

/-- An entry that can act does so in every run to the end, and may as well do so first. -/
theorem act_first {t : σ} (hd : Decides step view) (hc : Commute step view s l) (ha : step s a = some s') (hal : a ∈ l)
    (hrun : run step s as = some t) (hperm : (as ++ left).Perm l) (hstuck : ∀ c ∈ left, step t c = none) :
    ∃ as' t', as.Perm (a :: as') ∧ run step s' as' = some t' ∧ view t' = view t := by
  induction as generalizing s s' l with
  | nil =>
    obtain rfl := Option.some_inj.mp hrun
    rw [hstuck a (hperm.mem_iff.mpr hal)] at ha
    cases ha
  | cons c as ih =>
    obtain ⟨sc, hsc, hrun⟩ := run_cons_eq_some.mp hrun
    by_cases hac : a = c
    · subst hac
      obtain rfl : s' = sc := Option.some_inj.mp (ha.symm.trans hsc)
      exact ⟨as, t, .refl _, hrun, rfl⟩
    · have hrest : a ∈ as ++ left := (List.mem_cons.mp (hperm.mem_iff.mpr hal)).resolve_left hac
      obtain ⟨xs, ys, hsplit⟩ := List.append_of_mem hrest
      have hfirst : (([] : List α) ++ a :: c :: (xs ++ ys)).Perm l := by
        refine List.Perm.trans ?_ hperm
        rw [List.nil_append, List.cons_append, hsplit]
        exact (List.Perm.swap c a _).trans (List.perm_middle.symm.cons c)
      obtain ⟨u, u', hu, hu', hview⟩ := hc [] a c (xs ++ ys) s s' sc hfirst rfl ha hsc
      obtain ⟨as', t', hperm', hrun', hend⟩ := ih (hc.tail hsc hperm) hu' hrest hrun (.refl _)
      obtain ⟨t'', hrun'', hend'⟩ := hd.run hview.symm hrun'
      refine ⟨c :: as', t'', ?_, run_cons_eq_some.mpr ⟨u, hu, hrun''⟩, hend'.trans hend⟩
      exact (hperm'.cons c).trans (List.Perm.swap a c as')

theorem run_unique {as' left' : List α} {t t' : σ} (hd : Decides step view) (hc : Commute step view s l)
    (hrun : run step s as = some t) (hperm : (as ++ left).Perm l) (hstuck : ∀ c ∈ left, step t c = none)
    (hrun' : run step s as' = some t') (hperm' : (as' ++ left').Perm l) (hstuck' : ∀ c ∈ left', step t' c = none) :
    view t = view t' ∧ as.Perm as' ∧ left.Perm left' := by
  induction as generalizing s l as' t' with
  | nil =>
    obtain rfl := Option.some_inj.mp hrun
    cases as' with
    | nil =>
      obtain rfl := Option.some_inj.mp hrun'
      exact ⟨rfl, .refl _, hperm.trans hperm'.symm⟩
    | cons c as' =>
      obtain ⟨u, hu, -⟩ := run_cons_eq_some.mp hrun'
      rw [hstuck c (hperm.mem_iff.mpr (hperm'.mem_iff.mp List.mem_cons_self))] at hu
      cases hu
  | cons a as ih =>
    obtain ⟨sa, hsa, hrun⟩ := run_cons_eq_some.mp hrun
    obtain ⟨bs, u, hbs, hu, hend⟩ :=
      act_first hd hc hsa (hperm.mem_iff.mp List.mem_cons_self) hrun' hperm' hstuck'
    have hrest : (bs ++ left').Perm (as ++ left) := by
      refine List.Perm.cons_inv (a := a) ?_
      exact ((hbs.append_right left').symm.trans hperm').trans hperm.symm
    have hstuck'' : ∀ c ∈ left', step u c = none := fun c hcl => hd.stuck hend.symm (hstuck' c hcl)
    obtain ⟨hview, hacted, hleft⟩ := ih (hc.tail hsa hperm) hrun (.refl _) hu hrest hstuck''
    exact ⟨hview.trans hend, (hacted.cons a).trans hbs.symm, hleft⟩

/-- All runs to the end are of the same entries and end alike. -/
theorem settled_unique (hd : Decides step view) (hc : Commute step view s l) (h : Settled step s l r)
    (h' : Settled step s l r') : view r.state = view r'.state ∧ r.acted.Perm r'.acted ∧ r.left.Perm r'.left :=
  run_unique hd hc h.run h.perm h.stuck h'.run h'.perm h'.stuck

end CodeGraph.Lib
