import CodeGraph.Server.WritePath

/-!
# Who writes beside an incremental

`embedding_in_progress` is a lock among the workers (`Exclusive`): a thread holds it from the swap that finds it
clear to the drop of its guard. The incremental does not hold it; it only has seen it clear. From the raise of
`embedding_yield` to the drop of `_withdraw` the request holds a repair off and stops a backfill (`Clean`), but a repair
that asked before the raise has passed it already, and while the incremental writes it has been withdrawn.
`undisturbed_of_run` says that a schedule which keeps clear of these two gaps is safe.
-/

namespace CodeGraph.Server.WritePath

open CodeGraph.Lib

variable {Tid : Type*} [DecidableEq Tid] {s s' : State Tid} {a : Action Tid} {flags flags' : Flags}
  {hasPath : Bool} {past : List (Action Tid)}

/-- A step of a worker keeps the lock as it is, takes it where it is clear, or drops it. -/
theorem Worker.step_holds {w w' : Worker} {move : WorkerMove} (h : w.step hasPath flags move = some (flags', w')) :
    flags' = flags ∧ w'.holds = w.holds ∨
      flags.inProgress = false ∧ flags' = { flags with inProgress := true } ∧ w.holds = false ∧ w'.holds = true ∨
      flags' = { flags with inProgress := false } ∧ w.holds = true ∧ w'.holds = false := by
  unfold Worker.step at h
  split at h
  case h_3 | h_5 =>
    -- the two swaps
    obtain hset | hclear := Bool.eq_false_or_eq_true flags.inProgress
    · rw [if_pos hset] at h
      obtain ⟨rfl, rfl⟩ := Prod.mk.inj (Option.some.inj h)
      exact .inl ⟨rfl, rfl⟩
    · rw [if_neg (by simp [hclear])] at h
      obtain ⟨rfl, rfl⟩ := Prod.mk.inj (Option.some.inj h)
      exact .inr (.inl ⟨hclear, rfl, rfl, rfl⟩)
  case h_16 =>
    obtain ⟨rfl, rfl⟩ := Prod.mk.inj (Option.some.inj h)
    refine .inr (.inr ⟨rfl, rfl, ?_⟩)
    split <;> rfl
  case h_17 => cases h
  all_goals
    obtain ⟨rfl, rfl⟩ := Prod.mk.inj (Option.some.inj h)
    refine .inl ⟨rfl, ?_⟩
    try split_ifs
    all_goals rfl

/-- No worker touches the request. -/
theorem Worker.step_yield {w w' : Worker} {move : WorkerMove} (h : w.step hasPath flags move = some (flags', w')) :
    flags'.yield = flags.yield := by
  rcases Worker.step_holds h with ⟨rfl, -⟩ | ⟨-, rfl, -⟩ | ⟨rfl, -⟩ <;> rfl

/-- A repair comes to its swap by an `ask` that finds no request. -/
theorem Worker.step_taking {w w' : Worker} {move : WorkerMove} {attempt : ℕ}
    (h : w.step hasPath flags move = some (flags', w')) (hw' : w' = .taking attempt) :
    move = .ask ∧ flags.yield = false := by
  subst hw'
  unfold Worker.step at h
  split at h
  case h_4 attempt' =>
    obtain ⟨-, h⟩ := Prod.mk.inj (Option.some.inj h)
    split_ifs at h with hyield
    exact ⟨rfl, by simpa using hyield⟩
  case h_16 retry =>
    cases retry <;> cases h
  all_goals
    try split_ifs at h
    all_goals cases h

/-- A repair starts with a swap. -/
theorem Worker.step_repairing {w w' : Worker} {move : WorkerMove} {attempt : ℕ}
    (h : w.step hasPath flags move = some (flags', w')) (hw' : w' = .repairing attempt) :
    move = .swap ∧ w = .taking attempt ∧ flags.inProgress = false := by
  subst hw'
  unfold Worker.step at h
  split at h
  case h_5 attempt' =>
    split_ifs at h with hset
    · cases h
    · obtain ⟨-, h⟩ := Prod.mk.inj (Option.some.inj h)
      cases h
      exact ⟨rfl, rfl, by simpa using hset⟩
  case h_16 retry =>
    cases retry <;> cases h
  all_goals
    try split_ifs at h
    all_goals cases h

/-- The worker is past a check it made while the incremental had the path. -/
def Worker.isLate : Worker → Bool
  | .fetching late | .embedding late => late
  | _ => false

/-- It gets there by a check that finds `embedding_yield` clear. -/
theorem Worker.step_isLate {w w' : Worker} {move : WorkerMove} (h : w.step hasPath flags move = some (flags', w'))
    (hw : w.isLate = false) (hw' : w'.isLate = true) :
    move = .check ∧ w = .checking ∧ flags.yield = false ∧ hasPath = true := by
  unfold Worker.step at h
  split at h
  case h_9 =>
    obtain ⟨-, rfl⟩ := Prod.mk.inj (Option.some.inj h)
    split_ifs at hw' with hyield
    · cases hw'
    · exact ⟨rfl, rfl, by simpa using hyield, hw'⟩
  case h_10 late =>
    obtain ⟨-, rfl⟩ := Prod.mk.inj (Option.some.inj h)
    exact absurd (hw.symm.trans hw') Bool.false_ne_true
  case h_16 retry =>
    obtain ⟨-, rfl⟩ := Prod.mk.inj (Option.some.inj h)
    cases retry <;> cases hw'
  all_goals
    try split_ifs at h
    all_goals cases h
    try split_ifs at hw'
    all_goals cases hw'

/-- The incremental leaves `embedding_in_progress` alone, and gets the path from a look that finds it clear. -/
theorem Incremental.step_spec {i i' : Incremental} {move : IncrementalMove}
    (h : i.step flags move = some (flags', i')) :
    flags'.inProgress = flags.inProgress ∧ (i'.hasPath → i.hasPath ∨ flags.inProgress = false) := by
  unfold Incremental.step at h
  split at h
  case h_1 =>
    obtain ⟨rfl, rfl⟩ := Prod.mk.inj (Option.some.inj h)
    refine ⟨rfl, fun hpath => ?_⟩
    split_ifs at hpath <;> cases hpath
  case h_3 =>
    obtain ⟨rfl, rfl⟩ := Prod.mk.inj (Option.some.inj h)
    refine ⟨rfl, fun hpath => .inr ?_⟩
    split_ifs at hpath with hset
    · cases hpath
    · simpa using hset
  case h_7 => 
    obtain ⟨rfl, rfl⟩ := Prod.mk.inj (Option.some.inj h)
    exact ⟨rfl, fun _ => .inl rfl⟩
  case h_9 =>
    obtain ⟨rfl, rfl⟩ := Prod.mk.inj (Option.some.inj h)
    refine ⟨?_, fun hpath => by cases hpath⟩
    split_ifs <;> rfl
  case h_10 => cases h
  all_goals
    obtain ⟨rfl, rfl⟩ := Prod.mk.inj (Option.some.inj h)
    exact ⟨rfl, fun hpath => by cases hpath⟩

/-- The incremental has raised `embedding_yield` and not dropped `_withdraw`. -/
def Incremental.asks : Incremental → Bool
  | .waiting | .seenSet | .leaving | .withdrawing => true
  | _ => false

/-- It keeps the flag set as long as it asks. -/
theorem Incremental.step_asks {i i' : Incremental} {move : IncrementalMove}
    (h : i.step flags move = some (flags', i')) (hi : i.asks → flags.yield = true) : i'.asks → flags'.yield = true := by
  unfold Incremental.step at h
  split at h
  case h_10 => cases h
  all_goals
    obtain ⟨rfl, rfl⟩ := Prod.mk.inj (Option.some.inj h)
    intro hasks
    first
      | rfl
      | exact hi rfl
      | split_ifs at hasks <;> cases hasks
      | cases hasks

omit [DecidableEq Tid] in
/-- A request that stands is one that the incremental still makes. -/
theorem Incremental.step_requested {i i' : Incremental} {move : IncrementalMove}
    (h : i.step flags move = some (flags', i')) (hi : requested past = true → i.asks)
    (hrequest : requested (.incremental move :: past) = true) : i'.asks := by
  unfold Incremental.step at h
  split at h
  case h_10 => cases h
  all_goals
    obtain ⟨rfl, rfl⟩ := Prod.mk.inj (Option.some.inj h)
    first
      | rfl
      | cases hrequest
      | exact absurd (hi hrequest) Bool.false_ne_true
      | split_ifs <;> rfl

/-! ### Runs -/

/-- What a step of the system does: one thread moves, and the flags are those it leaves. -/
theorem step_cases (h : step s a = some s') :
    (∃ move, a = .incremental move ∧ s.incremental.step s.flags move = some (s'.flags, s'.incremental) ∧
        s'.workers = s.workers) ∨
      ∃ t move w, a = .worker t move ∧ (s.workers t).step s.incremental.hasPath s.flags move = some (s'.flags, w) ∧
        s'.incremental = s.incremental ∧ s'.workers = Function.update s.workers t w := by
  cases a with
  | incremental move =>
    obtain ⟨⟨flags, i⟩, hmove, rfl⟩ := Option.map_eq_some_iff.mp h
    exact .inl ⟨move, rfl, hmove, rfl⟩
  | worker t move =>
    obtain ⟨⟨flags, w⟩, hmove, rfl⟩ := Option.map_eq_some_iff.mp h
    exact .inr ⟨t, move, w, rfl, hmove, rfl, rfl⟩

/-- One worker at most holds the lock, and then the flag is set. -/
structure Exclusive (s : State Tid) : Prop where
  set : ∀ t, (s.workers t).holds → s.flags.inProgress = true
  one : ∀ t t', (s.workers t).holds → (s.workers t').holds → t = t'

theorem Exclusive.step (hs : Exclusive s) (h : WritePath.step s a = some s') : Exclusive s' := by
  rcases step_cases h with ⟨move, rfl, hmove, hworkers⟩ | ⟨t, move, w, rfl, hmove, -, hworkers⟩
  · obtain ⟨hflag, -⟩ := Incremental.step_spec hmove
    constructor
    case set =>
      intro t ht
      rw [hworkers] at ht
      rw [hflag]
      exact hs.set t ht
    case one =>
      rw [hworkers]
      exact hs.one
  · have hother : ∀ t', t' ≠ t → s'.workers t' = s.workers t' := by
      intro t' hne
      rw [hworkers, Function.update_of_ne hne]
    have hself : s'.workers t = w := by rw [hworkers, Function.update_self]
    rcases Worker.step_holds hmove with ⟨hflags, hsame⟩ | ⟨hclear, hflags, -, -⟩ | ⟨hflags, hheld, hfree⟩
    · have hholds : ∀ t', (s'.workers t').holds = (s.workers t').holds := by
        intro t'
        by_cases hne : t' = t
        · rw [hne, hself, hsame]
        · rw [hother t' hne]
      constructor
      case set =>
        intro t' ht'
        rw [hholds] at ht'
        rw [hflags]
        exact hs.set t' ht'
      case one =>
        intro t' t'' ht' ht''
        rw [hholds] at ht' ht''
        exact hs.one t' t'' ht' ht''
    · -- nobody held the clear lock, so the thread that took it is the only holder
      have honly : ∀ t', (s'.workers t').holds → t' = t := by
        intro t' ht'
        by_contra hne
        rw [hother t' hne] at ht'
        have hset := hs.set t' ht'
        rw [hclear] at hset
        cases hset
      constructor
      case set => exact fun _ _ => by rw [hflags]
      case one => exact fun t' t'' ht' ht'' => (honly t' ht').trans (honly t'' ht'').symm
    · have hnone : ∀ t', ¬(s'.workers t').holds := by
        intro t' ht'
        by_cases hne : t' = t
        · rw [hne, hself, hfree] at ht'
          cases ht'
        · rw [hother t' hne] at ht'
          exact hne (hs.one t' t ht' hheld)
      exact ⟨fun t' ht' => absurd ht' (hnone t'), fun t' _ ht' _ => absurd ht' (hnone t')⟩

theorem askedUnderRequest_cons {t : Tid} (ha : a ≠ .worker t .ask) :
    askedUnderRequest t (a :: past) = askedUnderRequest t past := by
  cases a with
  | incremental move => rfl
  | worker u move =>
    cases move
    case ask =>
      have hne : u ≠ t := by
        rintro rfl
        exact ha rfl
      exact if_neg hne
    all_goals rfl

/-- The flag is set as long as the request stands, so whoever is past his `ask` asked when it did not. Nothing has been
written beside an incremental: while it has the path no repair runs, and no worker is past a check that it made then. -/
structure Clean (s : State Tid) (past : List (Action Tid)) : Prop where
  exclusive : Exclusive s
  standing : s.incremental.asks → s.flags.yield = true
  request : requested past = true → s.incremental.asks
  passed : ∀ t attempt, s.workers t = .taking attempt → askedUnderRequest t past = false
  repairs : s.incremental.hasPath → ∀ t attempt, s.workers t ≠ .repairing attempt
  late : ∀ t, (s.workers t).isLate = false

theorem Clean.init : Clean (.init : State Tid) [] := by
  constructor
  case exclusive => constructor <;> simp [State.init, Worker.holds]
  all_goals simp [State.init, Worker.isLate, Incremental.hasPath, Incremental.asks, requested]

/-- The incremental goes on. -/
theorem Clean.step_incremental {move : IncrementalMove} (hs : Clean s past)
    (h : WritePath.step s (.incremental move) = some s')
    (hmove : s.incremental.step s.flags move = some (s'.flags, s'.incremental)) (hworkers : s'.workers = s.workers) :
    Clean s' (.incremental move :: past) := by
  constructor
  case exclusive => exact hs.exclusive.step h
  case standing => exact Incremental.step_asks hmove hs.standing
  case request => exact Incremental.step_requested hmove hs.request
  case passed =>
    intro t attempt ht
    rw [hworkers] at ht
    exact hs.passed t attempt ht
  case repairs =>
    intro hpath t attempt ht
    rw [hworkers] at ht
    rcases (Incremental.step_spec hmove).2 hpath with hbefore | hclear
    · exact hs.repairs hbefore t attempt ht
    · -- a running repair would have had the flag set
      have hset := hs.exclusive.set t (by rw [ht]; rfl)
      rw [hclear] at hset
      cases hset
  case late =>
    rw [hworkers]
    exact hs.late

/-- A worker goes on, clear of the gaps. -/
theorem Clean.step_worker {t : Tid} {move : WorkerMove} {w : Worker} (hs : Clean s past)
    (hclear : KeepsClear s past (.worker t move)) (h : WritePath.step s (.worker t move) = some s')
    (hmove : (s.workers t).step s.incremental.hasPath s.flags move = some (s'.flags, w))
    (hi : s'.incremental = s.incremental) (hworkers : s'.workers = Function.update s.workers t w) :
    Clean s' (.worker t move :: past) := by
  constructor
  case exclusive => exact hs.exclusive.step h
  case standing =>
    rw [hi, Worker.step_yield hmove]
    exact hs.standing
  case request =>
    rw [hi]
    exact hs.request
  case passed =>
    intro u attempt hu
    rw [hworkers] at hu
    by_cases hne : u = t
    · subst hne
      rw [Function.update_self] at hu
      obtain ⟨rfl, hyield⟩ := Worker.step_taking hmove hu
      -- it has just asked, and found no request
      rw [askedUnderRequest, if_pos rfl, ← Bool.not_eq_true]
      intro hrequest
      have hset := hs.standing (hs.request hrequest)
      rw [hyield] at hset
      cases hset
    · rw [Function.update_of_ne hne] at hu
      have hother : (.worker t move : Action Tid) ≠ .worker u .ask := by
        intro heq
        exact hne (Action.worker.inj heq).1.symm
      rw [askedUnderRequest_cons hother]
      exact hs.passed u attempt hu
  case repairs =>
    intro hpath u attempt hu
    rw [hi] at hpath
    rw [hworkers] at hu
    by_cases hne : u = t
    · rw [hne, Function.update_self] at hu
      obtain ⟨rfl, htaking, -⟩ := Worker.step_repairing hmove hu
      have hunder := hclear hpath ⟨attempt, htaking⟩
      rw [hs.passed t attempt htaking] at hunder
      cases hunder
    · rw [Function.update_of_ne hne] at hu
      exact hs.repairs hpath u attempt hu
  case late =>
    intro u
    rw [hworkers]
    by_cases hne : u = t
    · rw [hne, Function.update_self, ← Bool.not_eq_true]
      intro hlate
      obtain ⟨rfl, hchecking, hyield, hpath⟩ := Worker.step_isLate hmove (hs.late t) hlate
      have hwriting := hclear hchecking
      -- with the path and not writing, the incremental still asks
      have hasks : s.incremental.asks := by
        generalize s.incremental = i at hpath hwriting
        cases i with
        | withdrawing => rfl
        | writing yielded =>
          cases yielded
          · cases hpath
          · exact absurd rfl hwriting
        | _ => cases hpath
      have hset := hs.standing hasks
      rw [hyield] at hset
      cases hset
    · rw [Function.update_of_ne hne]
      exact hs.late u

theorem Clean.step (hs : Clean s past) (hclear : KeepsClear s past a) (h : WritePath.step s a = some s') :
    Clean s' (a :: past) := by
  rcases step_cases h with ⟨move, rfl, hmove, hworkers⟩ | ⟨t, move, w, rfl, hmove, hi, hworkers⟩
  · exact hs.step_incremental h hmove hworkers
  · exact hs.step_worker hclear h hmove hi hworkers

/-- **Nothing writes beside an incremental** that asked for the write path, in every run whose schedule keeps clear of
the gaps in its request. -/
theorem undisturbed_of_run {as : List (Action Tid)}
    (hclear : AllSteps (traced step) (fun x a => KeepsClear x.1 x.2 a) (.init, []) as)
    (hrun : run step .init as = some s) : s.Undisturbed := by
  have hclean : Clean s as.reverse := hclear.invariant_traced (fun hs hq h => hs.step hq h) .init hrun
  intro hpath t
  refine ⟨hclean.repairs hpath t, fun ht => ?_⟩
  have hlate := hclean.late t
  rw [ht] at hlate
  cases hlate

/-- A backfill stops for an incremental, which sees the flag clear and starts to write. -/
def stopped : List (Action Unit) :=
  [.worker () .callBackfill, .worker () .swap, .worker () .opened, .incremental .call, .incremental .raise,
    .worker () .check, .worker () .release, .incremental .look, .incremental .withdraw]

/-- A repair asks meanwhile, and has to go on asking. -/
def waited : List (Action Bool) :=
  [.worker false .callBackfill, .worker false .swap, .worker false .opened, .worker true .callRepair,
    .incremental .call, .incremental .raise, .worker true .ask, .worker false .check, .worker false .release,
    .incremental .look, .worker true .ask, .incremental .withdraw]

/-- The incremental writes alone there. -/
theorem waited_undisturbed :
    ∃ s, run step .init waited = some s ∧ s.incremental.hasPath = true ∧ s.Undisturbed := by
  have hclear : AllSteps (traced step) (fun x a => KeepsClear x.1 x.2 a) (.init, []) waited := by
    unfold waited
    refine .cons trivial rfl ?_
    -- the swap of the backfill, before the incremental has the path
    refine .cons (fun h => by cases h) rfl ?_
    refine .cons trivial rfl (.cons trivial rfl (.cons trivial rfl (.cons trivial rfl (.cons trivial rfl ?_))))
    -- its check, while the request stands
    refine .cons (fun _ h => by cases h) rfl ?_
    exact .cons trivial rfl (.cons trivial rfl (.cons trivial rfl (.cons trivial rfl trivial)))
  exact ⟨_, rfl, rfl, undisturbed_of_run hclear rfl⟩

/-- After `stopped` a repair finds both flags clear, and runs beside the incremental. -/
theorem repair_beside :
    ¬∀ (as : List (Action Unit)) (s : State Unit), run step .init as = some s → s.Undisturbed := by
  intro h
  have hpath := h (stopped ++ [.worker () .callRepair, .worker () .ask, .worker () .swap]) _ rfl rfl
  exact (hpath ()).1 1 rfl

end CodeGraph.Server.WritePath
