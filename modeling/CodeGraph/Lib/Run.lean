import Mathlib.Data.List.Basic

/-!
# Runs of a partial step function

A system is given by a step function `step : σ → α → Option σ`: `none` means that the action is not
enabled in the state. A run is a list of actions, each enabled where it is taken. The rules here
turn a fact about one step into a fact about every run:

* `run_invariant` carries a predicate that every step preserves;
* `run_invariant_of_forall` asks the preservation only of the actions a run is known to take, and
  `run_invariant_trace` lets the predicate speak of the actions taken so far;
* `AllSteps` says that every step of a run meets a condition on the state before it and its action
  (`AllSteps.of_split`), and `AllSteps.invariant` carries a predicate that such steps preserve;
* `traced` keeps the actions taken beside the state, for conditions on a schedule: with it
  `AllSteps.invariant_traced` lets condition and predicate speak of what was done before;
* `AllFold`, `AllFold.invariant` and `foldl_invariant` are the same for a fold, with predicates that
  also speak of the elements still to come, and `foldl_establishes` is for a fact that one element
  brings about and the others keep.
-/

namespace CodeGraph.Lib

variable {σ α : Type*} {step : σ → α → Option σ} {s s' : σ} {a : α} {as bs : List α}

/-- The state a list of actions leads to, or `none` where one of them is not enabled. -/
def run (step : σ → α → Option σ) : σ → List α → Option σ
  | s, [] => some s
  | s, a :: as => (step s a).bind fun s' => run step s' as

@[simp] theorem run_nil : run step s [] = some s := rfl

/-- A run of `a :: as` takes `a` first. -/
theorem run_cons_eq_some :
    run step s (a :: as) = some s' ↔ ∃ t, step s a = some t ∧ run step t as = some s' := by
  simp only [run, Option.bind_eq_some_iff]

/-- A run of `as ++ bs` is a run of `as` and then one of `bs`. -/
theorem run_append_eq_some :
    run step s (as ++ bs) = some s' ↔ ∃ t, run step s as = some t ∧ run step t bs = some s' := by
  induction as generalizing s with
  | nil => simp
  | cons a as ih =>
    simp only [List.cons_append, run_cons_eq_some, ih]
    grind

/-- A predicate that every action satisfying `ok` preserves holds after a run of such actions. -/
theorem run_invariant_of_forall {I : σ → Prop} {ok : α → Prop}
    (hstep : ∀ {s a s'}, I s → ok a → step s a = some s' → I s')
    (hs : I s) (hok : ∀ a ∈ as, ok a) (h : run step s as = some s') : I s' := by
  induction as generalizing s with
  | nil =>
    rw [run_nil, Option.some_inj] at h
    exact h ▸ hs
  | cons a as ih =>
    obtain ⟨t, ht, hr⟩ := run_cons_eq_some.mp h
    have hI : I t := hstep hs (hok a List.mem_cons_self) ht
    exact ih hI (fun b hb => hok b (List.mem_cons_of_mem a hb)) hr

/-- A predicate that every step preserves holds after every run. -/
theorem run_invariant {I : σ → Prop} (hstep : ∀ {s a s'}, I s → step s a = some s' → I s')
    (hs : I s) (h : run step s as = some s') : I s' := by
  have hok : ∀ a ∈ as, (fun _ => True : α → Prop) a := fun _ _ => trivial
  exact run_invariant_of_forall (fun hI _ h => hstep hI h) hs hok h

/-- The same for a predicate that also speaks of the actions taken so far. -/
theorem run_invariant_trace {I : List α → σ → Prop} {ok : α → Prop}
    (hstep : ∀ {as s a s'}, I as s → ok a → step s a = some s' → I (as ++ [a]) s') {before : List α}
    (hs : I before s) (hok : ∀ a ∈ as, ok a) (h : run step s as = some s') : I (before ++ as) s' := by
  induction as generalizing s before with
  | nil =>
    rw [run_nil, Option.some_inj] at h
    rw [List.append_nil]
    exact h ▸ hs
  | cons a as ih =>
    obtain ⟨t, ht, hr⟩ := run_cons_eq_some.mp h
    have hI : I (before ++ [a]) t := hstep hs (hok a List.mem_cons_self) ht
    have hrest := ih hI (fun b hb => hok b (List.mem_cons_of_mem a hb)) hr
    rwa [List.append_assoc, List.singleton_append] at hrest

/-! ### Runs whose steps meet a condition -/

/-- Every step of the run of `as` from `s` is taken in a state where `P` holds of it. -/
def AllSteps (step : σ → α → Option σ) (P : σ → α → Prop) : σ → List α → Prop
  | _, [] => True
  | s, a :: as => P s a ∧ ∀ t, step s a = some t → AllSteps step P t as

theorem AllSteps.cons {P : σ → α → Prop} {t : σ} (hP : P s a) (h : step s a = some t)
    (hrest : AllSteps step P t as) : AllSteps step P s (a :: as) := by
  refine ⟨hP, fun u hu => ?_⟩
  rw [h, Option.some_inj] at hu
  exact hu ▸ hrest

theorem AllSteps.and {P Q : σ → α → Prop} (hP : AllSteps step P s as) (hQ : AllSteps step Q s as) :
    AllSteps step (fun s a => P s a ∧ Q s a) s as := by
  induction as generalizing s with
  | nil => trivial
  | cons a as ih => exact ⟨⟨hP.1, hQ.1⟩, fun t ht => ih (hP.2 t ht) (hQ.2 t ht)⟩

/-- A condition that holds wherever a run can be cut. -/
theorem AllSteps.of_split {P : σ → α → Prop}
    (h : ∀ before a after t, as = before ++ a :: after → run step s before = some t → P t a) : AllSteps step P s as := by
  induction as generalizing s with
  | nil => trivial
  | cons a as ih =>
    refine ⟨h [] a as s rfl rfl, fun t ht => ih fun before b after u hsplit hrun => ?_⟩
    exact h (a :: before) b after u (congrArg (a :: ·) hsplit) (run_cons_eq_some.mpr ⟨t, ht, hrun⟩)

/-- A predicate preserved by the steps that meet `P` holds after a run of such steps. -/
theorem AllSteps.invariant {I : σ → Prop} {P : σ → α → Prop}
    (hstep : ∀ {s a s'}, I s → P s a → step s a = some s' → I s')
    (hs : I s) (hP : AllSteps step P s as) (h : run step s as = some s') : I s' := by
  induction as generalizing s with
  | nil =>
    rw [run_nil, Option.some_inj] at h
    exact h ▸ hs
  | cons a as ih =>
    obtain ⟨t, ht, hr⟩ := run_cons_eq_some.mp h
    exact ih (hstep hs hP.1 ht) (hP.2 t ht) hr

/-! ### Runs that know what was done before -/

/-- The step that also keeps the actions taken, the latest first. -/
def traced (step : σ → α → Option σ) : σ × List α → α → Option (σ × List α)
  | (s, past), a => (step s a).map fun s' => (s', a :: past)

theorem traced_eq_some {x x' : σ × List α} :
    traced step x a = some x' ↔ step x.1 a = some x'.1 ∧ x'.2 = a :: x.2 := by
  obtain ⟨s, past⟩ := x
  obtain ⟨s', past'⟩ := x'
  rw [traced, Option.map_eq_some_iff]
  constructor
  · rintro ⟨t, ht, heq⟩
    obtain ⟨rfl, rfl⟩ := Prod.mk.inj heq
    exact ⟨ht, rfl⟩
  · rintro ⟨ht, rfl⟩
    exact ⟨s', ht, rfl⟩

/-- A run is one of the traced steps, which end with its actions. -/
theorem run_traced {past : List α} (h : run step s as = some s') :
    run (traced step) (s, past) as = some (s', as.reverse ++ past) := by
  induction as generalizing s past with
  | nil =>
    rw [run_nil, Option.some_inj] at h
    rw [h]
    rfl
  | cons a as ih =>
    obtain ⟨t, ht, hr⟩ := run_cons_eq_some.mp h
    refine run_cons_eq_some.mpr ⟨(t, a :: past), traced_eq_some.mpr ⟨ht, rfl⟩, ?_⟩
    rw [ih hr, List.reverse_cons, List.append_assoc, List.singleton_append]

/-- `AllSteps.invariant` for a condition and a predicate that also speak of the actions taken so far. -/
theorem AllSteps.invariant_traced {I : σ → List α → Prop} {P : σ × List α → α → Prop}
    (hstep : ∀ {s past a s'}, I s past → P (s, past) a → step s a = some s' → I s' (a :: past))
    (hs : I s []) (hP : AllSteps (traced step) P (s, []) as) (h : run step s as = some s') : I s' as.reverse := by
  have htrace : run (traced step) (s, []) as = some (s', as.reverse ++ []) := run_traced h
  rw [List.append_nil] at htrace
  refine hP.invariant (I := fun x => I x.1 x.2) ?_ hs htrace
  rintro ⟨s, past⟩ a ⟨s', past'⟩ hI hPa hmove
  obtain ⟨hmove, hpast⟩ := traced_eq_some.mp hmove
  dsimp only at hmove hpast hI ⊢
  rw [hpast]
  exact hstep hI hPa hmove

/-! ### Folds whose steps know what is still to come -/

/-- Every step of the fold over `as` from `s` is taken where `C` holds of the state, the element and
the elements after it. -/
def AllFold (f : σ → α → σ) (C : σ → α → List α → Prop) : σ → List α → Prop
  | _, [] => True
  | s, a :: as => C s a as ∧ AllFold f C (f s a) as

/-- A predicate of the state and the elements to come that such steps preserve holds at the end. -/
theorem AllFold.invariant {f : σ → α → σ} {C : σ → α → List α → Prop} {I : σ → List α → Prop}
    (hstep : ∀ {s a as}, I s (a :: as) → C s a as → I (f s a) as) (hs : I s as)
    (hC : AllFold f C s as) : I (as.foldl f s) [] := by
  induction as generalizing s with
  | nil => exact hs
  | cons a as ih => exact ih (hstep hs hC.1) hC.2

/-- A predicate of the state and the elements to come that every step preserves. -/
theorem foldl_invariant {f : σ → α → σ} {I : σ → List α → Prop} {l : List α}
    (hstep : ∀ {s a as}, I s (a :: as) → I (f s a) as) (hs : I s l) : I (l.foldl f s) [] := by
  induction l generalizing s with
  | nil => exact hs
  | cons a l ih => exact ih (hstep hs)

/-- What one element establishes, where the invariant `I` holds, and every element keeps holds after a
fold over it. -/
theorem foldl_establishes {f : σ → α → σ} {I P : σ → Prop} (hI : ∀ s, ∀ b ∈ as, I s → I (f s b))
    (hkeep : ∀ s b, I s → P s → P (f s b)) (hmem : a ∈ as) (hadd : ∀ s, I s → P (f s a))
    (hs : I s) : P (as.foldl f s) := by
  obtain ⟨before, after, rfl⟩ := List.append_of_mem hmem
  rw [List.foldl_append, List.foldl_cons]
  have hbefore : I (before.foldl f s) :=
    List.foldlRecOn _ _ hs fun s hs b hb => hI s b (List.mem_append_left _ hb) hs
  have hafter : I (after.foldl f (f (before.foldl f s) a)) ∧
      P (after.foldl f (f (before.foldl f s) a)) := by
    refine List.foldlRecOn (motive := fun s => I s ∧ P s) _ _
      ⟨hI _ a hmem hbefore, hadd _ hbefore⟩ ?_
    rintro s ⟨hs, hP⟩ b hb
    exact ⟨hI s b (List.mem_append_right _ (List.mem_cons_of_mem a hb)) hs, hkeep s b hs hP⟩
  exact hafter.2

end CodeGraph.Lib
