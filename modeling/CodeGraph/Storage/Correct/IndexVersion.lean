import CodeGraph.Storage.IndexVersion

/-!
# Rows older than the stamp

The stamp only says how old the rows are as long as nobody older writes after it was set. `index_files` asks for that
once, before the first batch of a run, and an open sets the stamp in a commit of its own, after the one that cleared
the rows. `current_of_run` says that a schedule in which no upgrade falls between a check and its batches, and no check
into an upgrade, is safe: what a check found then still holds when a batch commits (`Checked`). `breaks_of_passed` says
that a row written otherwise breaks the order.
-/

namespace CodeGraph.Storage.IndexVersion

open CodeGraph.Lib

variable {Tid : Type*} [DecidableEq Tid] {version : Tid → IndexVersion} {s s' : State Tid}
  {past : List (Tid × Move)}

/-- No newer stamp is set or about to be set. -/
def Unpassed (version : Tid → IndexVersion) (s : State Tid) (current : IndexVersion) : Prop :=
  s.db.newerIndexVersion current = none ∧ ¬s.NewerStamping version current

/-- The rows are as new as the stamp and as every stamp about to be set. -/
structure Ordered (version : Tid → IndexVersion) (s : State Tid) : Prop where
  rows : ∀ path v, s.db.files path = some v → s.db.applicationId ≤ v.1
  stamping : ∀ t, s.phase t = .stamping → ∀ path v, s.db.files path = some v → (version t).1 ≤ v.1
  /-- A file without a stamp has no handle yet, hence no rows. -/
  unstamped : s.db.applicationId = 0 →
    (∀ t, s.phase t = .closed ∨ s.phase t = .stamping) ∧ ∀ path, s.db.files path = none

omit [DecidableEq Tid] in
theorem Ordered.init : Ordered version (.init : State Tid) := by
  constructor
  case rows =>
    intro path v h
    cases h
  case stamping =>
    intro t h
    cases h
  case unstamped => exact fun _ => ⟨fun _ => .inl rfl, fun _ => rfl⟩

omit [DecidableEq Tid] in
theorem Ordered.current (hs : Ordered version s) : s.Current :=
  fun _ path v h => Nat.not_lt.mpr (hs.rows path v h)

/-- Who else is about to stamp after a step of `t` was so before it. -/
theorem stamping_of_update {phase : Tid → Phase} {t u : Tid} {after : Phase} (hafter : after ≠ .stamping)
    (hu : Function.update phase t after u = .stamping) : phase u = .stamping := by
  by_cases hut : u = t
  · subst hut
    rw [Function.update_self] at hu
    exact absurd hu hafter
  · rwa [Function.update_of_ne hut] at hu

/-- A step of `t` to a phase without a handle leaves nobody with one. -/
theorem handleless_of_update {phase : Tid → Phase} {t : Tid} {after : Phase}
    (hafter : after = .closed ∨ after = .stamping) (hphases : ∀ u, phase u = .closed ∨ phase u = .stamping) (u : Tid) :
    Function.update phase t after u = .closed ∨ Function.update phase t after u = .stamping := by
  by_cases hut : u = t
  · subst hut
    rwa [Function.update_self]
  · rw [Function.update_of_ne hut]
    exact hphases u

/-- A connection that goes on without touching the database, and not to a stamp, keeps the order. -/
theorem Ordered.move (hs : Ordered version s) {t : Tid} {phase : Phase} (hphase : phase ≠ .stamping)
    (hclosed : s.db.applicationId = 0 → phase = .closed) :
    Ordered version { s with phase := Function.update s.phase t phase } := by
  constructor
  case rows => exact hs.rows
  case stamping => exact fun u hu => hs.stamping u (stamping_of_update hphase hu)
  case unstamped =>
    intro hzero
    obtain ⟨hphases, hfiles⟩ := hs.unstamped hzero
    exact ⟨handleless_of_update (.inl (hclosed hzero)) hphases, hfiles⟩

omit [DecidableEq Tid] in
/-- With the rows cleared, whoever is about to stamp may. -/
theorem Ordered.of_clear {db : Database} (phase : Tid → Phase) (hstamp : db.applicationId ≠ 0) :
    Ordered version { db := db.clear, phase } := by
  constructor
  case rows =>
    intro path v h
    cases h
  case stamping =>
    intro u _ path v h
    cases h
  case unstamped => exact fun hzero => absurd hzero hstamp

/-- So may the reader of a fresh file, which has no rows. -/
theorem Ordered.of_fresh (hs : Ordered version s) (t : Tid) (hzero : s.db.applicationId = 0) :
    Ordered version { s with phase := Function.update s.phase t .stamping } := by
  obtain ⟨hphases, hfiles⟩ := hs.unstamped hzero
  constructor
  case rows => exact hs.rows
  case stamping =>
    intro u _ path v h
    rw [show s.db.files path = none from hfiles path] at h
    cases h
  case unstamped => exact fun _ => ⟨handleless_of_update (.inr rfl) hphases, hfiles⟩

theorem Ordered.of_stamp (hs : Ordered version s) {t : Tid} (ht : s.phase t = .stamping) :
    Ordered version { db := s.db.stamp (version t), phase := Function.update s.phase t (.opened none) } := by
  have hopened : Phase.opened none ≠ .stamping := nofun
  constructor
  case rows => exact hs.stamping t ht
  case stamping => exact fun u hu => hs.stamping u (stamping_of_update hopened hu)
  case unstamped =>
    intro hzero
    have hpos := (version t).2
    rw [Database.stamp_applicationId] at hzero
    omega

/-- A commit is in order where the stamp is not newer and nobody newer is about to stamp. -/
theorem Ordered.of_commit (hs : Ordered version s) {t : Tid} {phase : Phase} {indexed purged : List String}
    (hphase : phase ≠ .stamping) (hstamp : s.db.applicationId ≠ 0) (hpassed : Unpassed version s (version t)) :
    Ordered version
      { db := s.db.commit (version t) indexed purged, phase := Function.update s.phase t phase } := by
  obtain ⟨hnewer, hstamping⟩ := hpassed
  have hle : s.db.applicationId ≤ (version t).1 := by
    unfold Database.newerIndexVersion at hnewer
    split_ifs at hnewer with hlt
    omega
  constructor
  case rows =>
    intro path v h
    obtain rfl | h := Database.commit_files h
    · exact hle
    · exact hs.rows path v h
  case stamping =>
    intro u hu path v h
    have hbefore : s.phase u = .stamping := stamping_of_update hphase hu
    obtain rfl | h := Database.commit_files h
    · exact Nat.not_lt.mp fun hlt => hstamping ⟨u, hbefore, hlt⟩
    · exact hs.stamping u hbefore path v h
  case unstamped => exact fun hzero => absurd hzero hstamp

omit [DecidableEq Tid] in
/-- A phase with a handle is only there in a stamped file. -/
theorem Ordered.stamped (hs : Ordered version s) {t : Tid} {phase : Phase} (ht : s.phase t = phase)
    (hphase : phase ≠ .closed ∧ phase ≠ .stamping) : s.db.applicationId ≠ 0 := by
  intro hzero
  obtain h | h := (hs.unstamped hzero).1 t
  · exact hphase.1 (ht ▸ h)
  · exact hphase.2 (ht ▸ h)

/-- What an open goes on to: the stamp only in a fresh file, and a handle only in a stamped one. -/
theorem openPlan_phase (stored : ℕ) (current : IndexVersion) (revalidate : Bool) :
    stored = 0 ∧ (openPlan stored current revalidate).phase = .stamping ∨
      stored ≠ 0 ∧ (openPlan stored current revalidate).phase ≠ .stamping := by
  unfold openPlan
  split_ifs with h
  · exact .inr ⟨h.1, nofun⟩
  · exact .inr ⟨h.1, nofun⟩
  · exact .inr ⟨h.1, nofun⟩
  · exact .inl ⟨‹_›, rfl⟩
  · exact .inr ⟨‹_›, nofun⟩

/-- A step whose commit nobody newer has passed keeps the order. -/
theorem Ordered.step {t : Tid} {move : Move} (hs : Ordered version s)
    (hbatch : ∀ indexed purged, move = .batch indexed purged → (∃ stale, s.phase t = .indexing stale) →
      Unpassed version s (version t))
    (hrebuild : ∀ indexed, move = .rebuild indexed → ¬s.NewerStamping version (version t))
    (h : s.step version (t, move) = some s') : Ordered version s' := by
  unfold State.step at h
  rw [Option.map_eq_some_iff] at h
  obtain ⟨⟨db, phase⟩, hstep, rfl⟩ := h
  dsimp only at hstep ⊢
  generalize ht : s.phase t = before at hstep
  unfold Phase.step at hstep
  split at hstep
  case h_1 revalidate =>
    cases hstep
    obtain ⟨hzero, hplan⟩ | ⟨hstamp, hplan⟩ := openPlan_phase s.db.applicationId (version t) revalidate
    · rw [hplan]
      exact hs.of_fresh t hzero
    · exact hs.move hplan fun hzero => absurd hzero hstamp
  -- a wipe or a stamp is right by the order that was there
  case h_2 =>
    cases hstep
    exact .of_clear _ (hs.stamped ht ⟨nofun, nofun⟩)
  case h_3 =>
    cases hstep
    exact hs.of_stamp ht
  case h_4 stale =>
    cases hstep
    have hstamp := hs.stamped ht ⟨nofun, nofun⟩
    refine hs.move ?_ fun hzero => absurd hzero hstamp
    split_ifs <;> nofun
  -- a batch is the step that the schedule is asked about
  case h_5 stale indexed purged =>
    cases hstep
    exact hs.of_commit nofun (hs.stamped ht ⟨nofun, nofun⟩) (hbatch indexed purged rfl ⟨stale, ht⟩)
  case h_6 stale =>
    cases hstep
    have hstamp := hs.stamped ht ⟨nofun, nofun⟩
    exact hs.move nofun fun hzero => absurd hzero hstamp
  -- a rebuild clears first, and writes only where no newer stamp is
  case h_7 stale indexed =>
    cases hstep
    have hstamp := hs.stamped ht ⟨nofun, nofun⟩
    split_ifs with hnewer
    · exact hs.move nofun fun hzero => absurd hzero hstamp
    · rw [Option.not_isSome_iff_eq_none] at hnewer
      have hclear : Ordered version { s with db := s.db.clear } := .of_clear _ hstamp
      exact hclear.of_commit nofun hstamp ⟨hnewer, hrebuild indexed rfl⟩
  case h_8 =>
    cases hstep
    exact hs.move nofun fun _ => rfl
  case h_9 => cases hstep

/-! ### What a check found -/

/-- A run that no upgrade has overtaken finds what its check found: no newer stamp is set or about to be set. -/
structure Checked (version : Tid → IndexVersion) (s : State Tid) (past : List (Tid × Move)) : Prop where
  ordered : Ordered version s
  running : ∀ t stale, s.phase t = .indexing stale → overtaken version t past = false →
    Unpassed version s (version t)

theorem Checked.init : Checked version (.init : State Tid) [] := by
  refine ⟨.init, ?_⟩
  intro t stale ht
  cases ht

omit [DecidableEq Tid] in
/-- What a check found goes on to hold when the stamp is not raised over it and nobody newer comes to stamp. -/
theorem Unpassed.of_step {current : IndexVersion} (h : Unpassed version s current)
    (hstamp : s'.db.applicationId = s.db.applicationId ∨ s'.db.applicationId ≤ current.1)
    (hphase : ∀ u, s'.phase u = .stamping → s.phase u = .stamping ∨ ¬current.1 < version u) :
    Unpassed version s' current := by
  obtain ⟨hnewer, hstamping⟩ := h
  constructor
  · unfold Database.newerIndexVersion at hnewer ⊢
    split_ifs at hnewer with hlt
    rw [if_neg]
    omega
  · rintro ⟨u, hu, hlt⟩
    rcases hphase u hu with hbefore | hle
    · exact hstamping ⟨u, hbefore, hlt⟩
    · exact hle hlt

/-- What a step of `a` does to the stamp and to who is about to stamp: only its stamp raises the one, and it comes to a
stamp by a wipe, or in a fresh index. -/
theorem step_stamping {a : Tid} {move : Move} (h : s.step version (a, move) = some s') :
    (s'.db.applicationId = s.db.applicationId ∨ move = .stamp ∧ s'.db.applicationId = version a) ∧
      (∀ u, s'.phase u = .stamping → s.phase u = .stamping ∨ u = a ∧ (move = .wipe ∨ s.db.applicationId = 0)) ∧
      ∀ u, u ≠ a → s'.phase u = s.phase u := by
  unfold State.step at h
  rw [Option.map_eq_some_iff] at h
  obtain ⟨⟨db, phase⟩, hstep, rfl⟩ := h
  dsimp only at hstep ⊢
  generalize ha : s.phase a = before at hstep
  refine ⟨?_, ?_, fun u hu => Function.update_of_ne hu ..⟩
  · unfold Phase.step at hstep
    split at hstep
    case h_3 =>
      cases hstep
      exact .inr ⟨rfl, rfl⟩
    case h_7 =>
      cases hstep
      left
      split_ifs <;> rfl
    all_goals
      cases hstep
      try exact .inl rfl
  · -- a connection begins to stamp by its own wipe, or by opening a fresh file
    intro u hu
    by_cases hne : u = a
    · subst hne
      rw [Function.update_self] at hu
      subst hu
      right
      refine ⟨rfl, ?_⟩
      unfold Phase.step at hstep
      split at hstep
      case h_1 revalidate =>
        obtain ⟨rfl, hphase⟩ := Prod.mk.inj (Option.some.inj hstep)
        obtain ⟨hzero, -⟩ | ⟨-, hplan⟩ := openPlan_phase s.db.applicationId (version u) revalidate
        · exact .inr hzero
        · exact absurd hphase hplan
      case h_2 => exact .inl rfl
      case h_4 =>
        obtain ⟨-, hphase⟩ := Prod.mk.inj (Option.some.inj hstep)
        split_ifs at hphase
      all_goals cases hstep
    · rw [Function.update_of_ne hne] at hu
      exact .inl hu

/-- A step into `index_files` is a check that finds no newer stamp, or a commit of the run. -/
theorem step_indexing {a : Tid} {move : Move} {stale : Option ℕ} (h : s.step version (a, move) = some s')
    (ha : s'.phase a = .indexing stale) :
    move = .index ∧ s.db.newerIndexVersion (version a) = none ∨
      (∃ indexed purged, move = .batch indexed purged) ∧ s.phase a = .indexing stale := by
  unfold State.step at h
  rw [Option.map_eq_some_iff] at h
  obtain ⟨⟨db, phase⟩, hstep, rfl⟩ := h
  dsimp only at hstep ha
  rw [Function.update_self] at ha
  subst ha
  generalize hbefore : s.phase a = before at hstep
  unfold Phase.step at hstep
  split at hstep
  case h_1 revalidate =>
    obtain ⟨-, hphase⟩ := Prod.mk.inj (Option.some.inj hstep)
    unfold openPlan at hphase
    split_ifs at hphase <;> cases hphase
  case h_4 =>
    obtain ⟨-, hphase⟩ := Prod.mk.inj (Option.some.inj hstep)
    split_ifs at hphase with hnewer
    exact .inl ⟨rfl, by simpa using hnewer⟩
  case h_5 _ indexed purged =>
    cases hstep
    exact .inr ⟨⟨indexed, purged, rfl⟩, rfl⟩
  all_goals cases hstep

theorem Checked.step {a : Tid × Move} (hs : Checked version s past) (hturn : s.InTurn version past a)
    (h : s.step version a = some s') : Checked version s' (a :: past) := by
  obtain ⟨a, move⟩ := a
  have hordered : Ordered version s' := by
    refine hs.ordered.step ?_ ?_ h
    · rintro indexed purged rfl ⟨stale, ha⟩
      exact hs.running a stale ha hturn
    · rintro indexed rfl
      exact hturn
  refine ⟨hordered, ?_⟩
  intro t stale ht hpast
  obtain ⟨hstamp, hstamping, hother⟩ := step_stamping h
  by_cases hne : t = a
  · -- the run's own step: its check, or one more batch
    subst hne
    rcases step_indexing h ht with ⟨rfl, hnewer⟩ | ⟨⟨indexed, purged, rfl⟩, hbefore⟩
    · refine Unpassed.of_step ⟨hnewer, hturn⟩ (.inl ?_) ?_
      · refine hstamp.resolve_right ?_
        rintro ⟨hmove, -⟩
        cases hmove
      · intro u hu
        refine .inl ((hstamping u hu).resolve_right ?_)
        rintro ⟨rfl, -⟩
        rw [ht] at hu
        cases hu
    · refine (hs.running t stale hbefore hpast).of_step (.inl ?_) ?_
      · refine hstamp.resolve_right ?_
        rintro ⟨hmove, -⟩
        cases hmove
      · intro u hu
        refine .inl ((hstamping u hu).resolve_right ?_)
        rintro ⟨rfl, -⟩
        rw [ht] at hu
        cases hu
  · -- the step of another connection, which has not overtaken the run
    have hbefore : s.phase t = .indexing stale := (hother t hne).symm.trans ht
    have hstamped := hs.ordered.stamped hbefore ⟨nofun, nofun⟩
    have hrest : overtaken version t past = false ∧ (move = .wipe ∨ move = .stamp → ¬(version t).1 < version a) := by
      cases move
      case wipe =>
        simp only [overtaken, Bool.or_eq_false_iff, decide_eq_false_iff_not] at hpast
        exact ⟨hpast.2, fun _ => hpast.1⟩
      case stamp =>
        simp only [overtaken, Bool.or_eq_false_iff, decide_eq_false_iff_not] at hpast
        exact ⟨hpast.2, fun _ => hpast.1⟩
      case index =>
        rw [overtaken, if_neg (Ne.symm hne)] at hpast
        exact ⟨hpast, by simp⟩
      all_goals exact ⟨hpast, by simp⟩
    obtain ⟨hnot, hslow⟩ := hrest
    refine (hs.running t stale hbefore hnot).of_step ?_ ?_
    · rcases hstamp with hsame | ⟨rfl, hnew⟩
      · exact .inl hsame
      · have hle := hslow (.inr rfl)
        exact .inr (by omega)
    · intro u hu
      rcases hstamping u hu with hbefore | ⟨rfl, rfl | hzero⟩
      · exact .inl hbefore
      · exact .inr (hslow (.inl rfl))
      · exact absurd hzero hstamped

/-- **No row is ever older than the stamp**, in every run whose schedule keeps the runs and the upgrades in turn. -/
theorem current_of_run {as : List (Tid × Move)}
    (hturn : AllSteps (traced (State.step version)) (fun x a => x.1.InTurn version x.2 a) (.init, []) as)
    (hrun : run (State.step version) .init as = some s) : s.Current := by
  have hs : Checked version s as.reverse := hturn.invariant_traced (fun hs hq h => hs.step hq h) .init hrun
  exact hs.ordered.current

/-- The binary of connection `true` is the newer one. -/
def twoVersions (newer : Bool) : IndexVersion :=
  if newer then ⟨2, by decide⟩ else ⟨1, by decide⟩

/-- The newer binary opens the index that the older one has built. -/
def upgrade : List (Bool × Move) :=
  [(true, .open true), (true, .wipe), (true, .stamp)]

/-- The older binary has no run under way when the newer one opens, and its next one is refused. -/
def between : List (Bool × Move) :=
  [(false, .open true), (false, .stamp), (false, .index), (false, .batch ["a.rs"] []), (false, .finish)] ++ upgrade ++
    [(true, .index), (true, .batch ["a.rs"] []), (false, .index)]

theorem upgrade_between : ∃ s, run (State.step twoVersions) .init between = some s ∧ s.Current := by
  have hturn : AllSteps (traced (State.step twoVersions)) (fun x a => x.1.InTurn twoVersions x.2 a) (.init, [])
      between := by
    unfold between upgrade
    refine .cons trivial rfl (.cons trivial rfl (.cons ?_ rfl (.cons rfl rfl (.cons trivial rfl ?_))))
    · rintro ⟨_ | _, ht, -⟩ <;> cases ht
    refine .cons trivial rfl (.cons trivial rfl (.cons trivial rfl (.cons ?_ rfl (.cons rfl rfl (.cons ?_ rfl trivial)))))
    · rintro ⟨_ | _, ht, -⟩ <;> cases ht
    · rintro ⟨_ | _, ht, -⟩ <;> cases ht
  obtain ⟨s, hrun⟩ : ∃ s, run (State.step twoVersions) .init between = some s := ⟨_, rfl⟩
  exact ⟨s, hrun, current_of_run hturn hrun⟩

/-- The upgrade falls between the check of an older run and its batch. -/
theorem upgrade_in_run :
    ¬∀ (as : List (Bool × Move)) (s : State Bool), run (State.step twoVersions) .init as = some s → s.Current := by
  intro h
  have hcurrent := h ([(false, .open true), (false, .stamp), (false, .index)] ++ upgrade ++
    [(false, .batch ["a.rs"] [])]) _ rfl
  exact hcurrent (by decide) "a.rs" (twoVersions false) (by decide) (by decide)

/-! ### Every commit that was passed breaks the order -/

omit [DecidableEq Tid] in
/-- A row of an older binary under a newer stamp. -/
theorem not_current_of_row {path : String} {v : IndexVersion} (hrow : s.db.files path = some v)
    (hlt : v.1 < s.db.applicationId) : ¬s.Current :=
  fun hcurrent => hcurrent (by omega) path v hrow hlt

/-- A row of a binary older than one that is about to stamp is older than the stamp next. -/
theorem breaks_of_row {path : String} {v : IndexVersion} (hrow : s.db.files path = some v)
    (hstamping : s.NewerStamping version v) :
    ∃ u s', s.step version (u, .stamp) = some s' ∧ ¬s'.Current := by
  obtain ⟨t, ht, hlt⟩ := hstamping
  refine ⟨t, { db := s.db.stamp (version t), phase := Function.update s.phase t (.opened none) }, ?_, ?_⟩
  · unfold State.step
    rw [ht]
    rfl
  · have hkept : (s.db.stamp (version t)).files path = some v := hrow
    exact not_current_of_row hkept hlt

/-- A row that a batch writes when a newer stamp is set or about to be set is older than the stamp, now or after one
more step. -/
theorem breaks_of_passed {t : Tid} {indexed purged : List String} {path : String} (hpath : path ∈ indexed)
    (h : s.step version (t, .batch indexed purged) = some s') (hpassed : ¬Unpassed version s (version t)) :
    ¬s'.Current ∨ ∃ u s'', s'.step version (u, .stamp) = some s'' ∧ ¬s''.Current := by
  obtain ⟨stale, ht, rfl⟩ : ∃ stale, s.phase t = .indexing stale ∧
      s' = { db := s.db.commit (version t) indexed purged, phase := Function.update s.phase t (.indexing stale) } := by
    unfold State.step at h
    rw [Option.map_eq_some_iff] at h
    obtain ⟨⟨db, phase⟩, hstep, rfl⟩ := h
    dsimp only at hstep
    generalize ht : s.phase t = before at hstep
    cases before
    case indexing stale =>
      cases hstep
      exact ⟨stale, rfl, rfl⟩
    all_goals cases hstep
  have hrow : (s.db.commit (version t) indexed purged).files path = some (version t) := if_pos hpath
  by_cases hnewer : s.db.newerIndexVersion (version t) = none
  · -- somebody newer is about to stamp
    right
    obtain ⟨u, hu, hlt⟩ : s.NewerStamping version (version t) := by
      by_contra hnobody
      exact hpassed ⟨hnewer, hnobody⟩
    have hut : u ≠ t := by
      rintro rfl
      rw [ht] at hu
      cases hu
    exact breaks_of_row hrow ⟨u, (Function.update_of_ne hut ..).trans hu, hlt⟩
  · left
    refine not_current_of_row hrow ?_
    unfold Database.newerIndexVersion at hnewer
    split_ifs at hnewer with hlt
    · exact hlt
    · exact absurd rfl hnewer

end CodeGraph.Storage.IndexVersion
