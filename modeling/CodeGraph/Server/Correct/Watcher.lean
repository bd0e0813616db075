import CodeGraph.Server.Watcher

/-!
# No edit is stranded

An edit that comes while the watcher is active leaves an event in the channel, and what takes the event out arms
`pending_incremental` in the same step. `Heard` is the invariant: a run that is on its way will have seen every edit
but those that have an event, so its success may clear the flag.

An edit from before the watcher has neither. `trusted_of_run` asks that there is none unscanned when the watcher is
started, and `stranded_of_start` says that such an edit is stranded then.
-/

namespace CodeGraph.Server.Watcher

open CodeGraph.Lib

variable {s s' : State}

/-- The call in progress has armed `pending_incremental`. -/
def Main.armed : Main → Bool
  | .before .incremental | .before .rebuild | .scanning .incremental _ | .scanning .rebuild _ => true
  | _ => false

/-- The call in progress found `indexed` set, and has not cleared it. -/
def Main.incremental : Main → Bool
  | .before .incremental | .scanning .incremental _ => true
  | _ => false

/-- Every edit from the first `seen` on has an event. -/
def State.HeardFrom (s : State) (seen : ℕ) : Prop :=
  ∀ channel, s.watcher = some channel → seen < s.edits → channel ≠ []

structure Heard (s : State) : Prop where
  /-- The startup thread and `ensure_indexed` do not run beside each other. -/
  serial : s.main ≠ .idle → s.startup = .idle
  startupFirst : s.startup ≠ .idle → s.indexed = false
  armed : s.main.armed → s.pendingIncremental = true
  incremental : s.main.incremental → s.indexed = true
  indexed : s.watcher.isSome → s.indexed = true ∨ s.pendingIncremental = true
  /-- A drain of the channel finds a change. -/
  real : ∀ channel, s.watcher = some channel →
    ∀ paths ∈ channel, (paths.any fun path => !isIgnoredWatchPath path) = true
  settled : s.pendingIncremental = true ∨ s.HeardFrom s.scanned
  scanning : ∀ run seen, s.main = .scanning run seen → s.HeardFrom seen
  startupScanning : ∀ seen, s.startup = .scanning seen → s.HeardFrom seen

theorem Heard.init : Heard .init := by
  constructor
  case settled => exact .inr nofun
  case scanning => exact fun _ _ h => by cases h
  case startupScanning => exact fun _ h => by cases h
  case real => exact fun _ h => by cases h
  all_goals simp [State.init, Main.armed, Main.incremental]

theorem Heard.trusted (hs : Heard s) : s.Trusted := by
  intro channel hchannel hlt
  obtain hpending | hheard := hs.settled
  · exact .inr (.inl hpending)
  · exact .inl (hheard channel hchannel hlt)

/-! ### Edits and drains -/

theorem trySend_ne_nil (channel : List WatchEvent) (event : WatchEvent) : trySend channel event ≠ [] := by
  unfold trySend watcherChannelBound
  split_ifs with hlt
  · simp
  · -- the channel is full
    rintro rfl
    simp at hlt

theorem mem_trySend {channel : List WatchEvent} {event paths : WatchEvent} (h : paths ∈ trySend channel event) :
    paths ∈ channel ∨ paths = event := by
  unfold trySend at h
  split_ifs at h
  · simpa using h
  · exact .inl h

theorem Heard.edit (hs : Heard s) (paths : List String) : Heard (s.edit paths) := by
  unfold State.edit
  dsimp only
  split_ifs with hempty
  · exact hs
  have hheard : ∀ seen, State.HeardFrom { s with
      edits := s.edits + 1
      watcher := s.watcher.map (trySend · (paths.filter fun path => !isIgnoredWatchPath path)) } seen := by
    intro seen channel hchannel _
    obtain ⟨before, -, rfl⟩ := Option.map_eq_some_iff.mp hchannel
    exact trySend_ne_nil _ _
  refine { hs with indexed := ?_, real := ?_, settled := .inr (hheard _),
                   scanning := fun _ _ _ => hheard _, startupScanning := fun _ _ => hheard _ }
  · rw [Option.isSome_map]
    exact hs.indexed
  · intro channel hchannel event hevent
    obtain ⟨before, hbefore, rfl⟩ := Option.map_eq_some_iff.mp hchannel
    obtain hevent | rfl := mem_trySend hevent
    · exact hs.real before hbefore event hevent
    · -- what the callback leaves of an event is not ignored
      rw [List.isEmpty_iff] at hempty
      obtain ⟨path, hpath⟩ := List.exists_mem_of_ne_nil _ hempty
      exact List.any_eq_true.mpr ⟨path, hpath, (List.mem_filter.mp hpath).2⟩

/-- A drain that finds no change leaves a channel that was empty. -/
theorem Heard.drain_eq (hs : Heard s) (h : (drainWatcherEvents s.watcher).1 = false) :
    (drainWatcherEvents s.watcher).2 = s.watcher := by
  cases hwatcher : s.watcher with
  | none => rfl
  | some channel =>
    rw [hwatcher] at h
    cases channel with
    | nil => rfl
    | cons event rest =>
      have hevent := hs.real _ hwatcher event List.mem_cons_self
      simp [drainWatcherEvents, hevent] at h

theorem drain_isSome (watcher : Option (List WatchEvent)) : (drainWatcherEvents watcher).2.isSome = watcher.isSome := by
  cases watcher <;> rfl

theorem Heard.look (hs : Heard s) (hmain : s.main = .consumed) (elapsed : Bool) : Heard (s.look elapsed) := by
  have hstartup : s.startup = .idle := hs.serial (by rw [hmain]; nofun)
  unfold State.look
  split_ifs with hindexed
  · generalize hdrain : drainWatcherEvents s.watcher = drained
    obtain ⟨hasChanges, watcher⟩ := drained
    have hsome : watcher.isSome = s.watcher.isSome := by rw [← drain_isSome s.watcher, hdrain]
    dsimp only
    split_ifs with hrun
    · constructor
      case serial => exact fun _ => hstartup
      case startupFirst => exact fun h => absurd hstartup h
      case armed => exact fun _ => rfl
      case incremental => exact fun _ => hindexed
      case indexed => exact fun _ => .inr rfl
      case settled => exact .inl rfl
      case scanning => nofun
      case startupScanning => exact fun seen h => by rw [hstartup] at h; cases h
      case real =>
        intro channel hchannel paths hpaths
        cases hwatcher : s.watcher with
        | none =>
          rw [hwatcher] at hdrain
          cases hdrain
          cases hchannel
        | some before =>
          rw [hwatcher] at hdrain
          cases hdrain
          cases hchannel
          cases hpaths
    · -- no change, so there was no event
      have hnone : hasChanges = false := by
        cases hasChanges
        · rfl
        · simp at hrun
      have hsame := hs.drain_eq (by rw [hdrain]; exact hnone)
      rw [hdrain] at hsame
      subst hsame
      exact { hs with serial := fun h => absurd rfl h, armed := nofun, incremental := nofun, scanning := nofun }
  · exact { hs with serial := fun _ => hstartup, armed := nofun, incremental := nofun, scanning := nofun }

/-! ### The start of the watcher -/

theorem Heard.startPostIndexServices (hs : Heard s) (hindexed : s.indexed = true) (hmain : s.main = .idle)
    (starts : Bool) (hsettled : s.watcher = none → starts = true → s.Settled) :
    Heard (s.startPostIndexServices starts) := by
  unfold State.startPostIndexServices
  cases hwatcher : s.watcher with
  | some channel => exact hs
  | none =>
    dsimp only
    split_ifs with hstarts
    · have hstartup : s.startup = .idle := by
        by_contra hrunning
        rw [hs.startupFirst hrunning] at hindexed
        cases hindexed
      constructor
      case serial => exact fun h => absurd hmain h
      case startupFirst => exact hs.startupFirst
      case armed => exact hs.armed
      case incremental => exact hs.incremental
      case indexed => exact fun _ => .inl hindexed
      case real =>
        intro channel hchannel paths hpaths
        cases hchannel
        cases hpaths
      case settled =>
        by_cases hlt : s.scanned < s.edits
        · exact .inl (hsettled hwatcher hstarts hlt)
        · exact .inr fun _ _ h => absurd h hlt
      case scanning => exact fun _ _ h => by rw [hmain] at h; cases h
      case startupScanning => exact fun _ h => by rw [hstartup] at h; cases h
    · exact hs

theorem Heard.consumeStartupIndexResult (hs : Heard s) (hmain : s.main = .idle) (starts : Bool)
    (hsettled : s.startsWatcher (.ensureIndexed starts) = true → s.Settled) :
    Heard (s.consumeStartupIndexResult starts) := by
  unfold State.consumeStartupIndexResult
  split_ifs with hstartup hresult
  · exact hs
  · have hidle : s.startup = .idle := not_not.mp hstartup
    have htaken : Heard { s with startupIndexResult := false, indexed := true } :=
      { hs with
        startupFirst := fun h => absurd hidle h, incremental := fun _ => rfl, indexed := fun _ => .inl rfl }
    refine htaken.startPostIndexServices rfl hmain starts fun hwatcher hstarts => hsettled ?_
    have hnone : s.watcher = none := hwatcher
    simp [State.startsWatcher, hnone, hstarts, hidle, hresult]
  · exact hs

theorem startPostIndexServices_startup (s : State) (starts : Bool) :
    (s.startPostIndexServices starts).startup = s.startup := by
  unfold State.startPostIndexServices
  split
  · rfl
  · split_ifs <;> rfl

/-- The startup thread is left as it is. -/
theorem consumeStartupIndexResult_startup (s : State) (starts : Bool) :
    (s.consumeStartupIndexResult starts).startup = s.startup := by
  unfold State.consumeStartupIndexResult
  split_ifs
  · rfl
  · rw [startPostIndexServices_startup]
  · rfl

theorem Heard.runStartupTasks (hs : Heard s) (hmain : s.main = .idle) (starts : Bool)
    (hsettled : s.startsWatcher (.runStartupTasks starts) = true → s.Settled) :
    Heard (s.runStartupTasks starts) := by
  unfold State.runStartupTasks
  split_ifs with hpending
  · dsimp only
    have htaken : Heard { s with startupIndexPending := false } := { hs with }
    split_ifs with hindexed hidle
    · refine htaken.startPostIndexServices hindexed hmain starts fun hwatcher hstarts => hsettled ?_
      have hnone : s.watcher = none := hwatcher
      simp [State.startsWatcher, hnone, hstarts, hpending, hindexed]
    · exact { hs with
        serial := fun h => absurd hmain h
        startupFirst := fun _ => by simpa using hindexed
        startupScanning := nofun }
    · exact htaken
  · refine hs.consumeStartupIndexResult hmain starts fun h => hsettled ?_
    simpa [State.startsWatcher, hpending, and_assoc] using h

/-! ### Runs of the index -/

theorem Heard.finish (hs : Heard s) {run : IndexRun} {seen : ℕ} (hmain : s.main = .scanning run seen)
    (outcome : Outcome) : Heard (s.finish seen run outcome) := by
  have hheard := hs.scanning run seen hmain
  have hstartup : s.startup = .idle := hs.serial (by rw [hmain]; nofun)
  have hfirst : ∀ {p : Prop}, s.startup ≠ .idle → p := fun h => absurd hstartup h
  unfold State.finish
  split
  case h_1 =>
    exact { hs with
      serial := fun h => absurd rfl h, startupFirst := hfirst, armed := nofun, incremental := nofun
      indexed := fun _ => .inl rfl, settled := .inr hheard, scanning := nofun }
  case h_2 =>
    have hindexed : s.indexed = true := hs.incremental (by rw [hmain]; rfl)
    exact { hs with
      serial := fun h => absurd rfl h, armed := nofun, incremental := nofun
      indexed := fun _ => .inl hindexed, settled := .inr hheard, scanning := nofun }
  case h_3 =>
    have harmed : s.pendingIncremental = true := hs.armed (by rw [hmain]; rfl)
    exact { hs with
      serial := fun _ => hstartup, startupFirst := hfirst, armed := fun _ => harmed, incremental := nofun
      indexed := fun _ => .inr harmed, scanning := nofun }
  case h_4 =>
    exact { hs with
      serial := fun h => absurd rfl h, startupFirst := hfirst, armed := nofun, incremental := nofun
      indexed := fun _ => .inl rfl, settled := .inr hheard, scanning := nofun }
  case h_5 => exact { hs with serial := fun h => absurd rfl h, armed := nofun, incremental := nofun, scanning := nofun }

theorem Heard.startupFinish (hs : Heard s) {seen : ℕ} (hstartup : s.startup = .scanning seen) :
    Heard { s with startup := .idle, startupIndexResult := true, scanned := seen } := by
  exact { hs with
    serial := fun _ => rfl
    startupFirst := fun h => absurd rfl h
    settled := .inr (hs.startupScanning seen hstartup)
    startupScanning := nofun }

/-- The scan of the startup index finds every edit made so far. -/
theorem Heard.startupScan (hs : Heard s) (hstartup : s.startup = .spawned) :
    Heard { s with startup := .scanning s.edits } := by
  refine { hs with serial := fun hbusy => ?_, startupFirst := fun _ => ?_, startupScanning := fun seen hseen => ?_ }
  · have hidle := hs.serial hbusy
    rw [hstartup] at hidle
    cases hidle
  · exact hs.startupFirst (by rw [hstartup]; nofun)
  · cases hseen
    exact fun _ _ hlt => absurd hlt (Nat.lt_irrefl _)

theorem Heard.ensureIndexed (hs : Heard s) (hmain : s.main = .idle) (starts : Bool)
    (hsettled : s.startsWatcher (.ensureIndexed starts) = true → s.Settled) (hidle : s.startup = .idle) :
    Heard { s.consumeStartupIndexResult starts with main := .consumed } := by
  have hconsumed := hs.consumeStartupIndexResult hmain starts hsettled
  refine { hconsumed with serial := fun _ => ?_, armed := nofun, incremental := nofun, scanning := nofun }
  rw [← hidle]
  exact consumeStartupIndexResult_startup s starts

theorem Heard.mayNotWrite (hs : Heard s) (hmain : s.main = .consumed) (hasData : Bool) :
    Heard { s with indexed := s.indexed || hasData, main := .idle } := by
  have hidle : s.startup = .idle := hs.serial (by rw [hmain]; nofun)
  exact { hs with
    serial := fun h => absurd rfl h
    startupFirst := fun h => absurd hidle h
    armed := nofun
    incremental := nofun
    indexed := fun hwatcher => (hs.indexed hwatcher).imp_left fun h => by rw [h]; rfl
    scanning := nofun }

/-- A run's scan finds every edit made so far. -/
theorem Heard.scan (hs : Heard s) {run : IndexRun} (hmain : s.main = .before run) :
    Heard { s with main := .scanning run s.edits } := by
  refine { hs with
    serial := fun _ => hs.serial (by rw [hmain]; nofun)
    armed := fun h => hs.armed ?_
    incremental := fun h => hs.incremental ?_
    scanning := fun run' seen hseen => ?_ }
  · rw [hmain]
    cases run <;> exact h
  · rw [hmain]
    cases run <;> exact h
  · cases hseen
    exact fun _ _ hlt => absurd hlt (Nat.lt_irrefl _)

theorem Heard.step {a : Action} (hs : Heard s) (hsettled : s.startsWatcher a = true → s.Settled)
    (h : s.step a = some s') : Heard s' := by
  cases a with
  | edit paths =>
    cases h
    exact hs.edit paths
  -- the startup index
  | initialized =>
    cases h
    exact { hs with }
  | runStartupTasks starts =>
    simp only [State.step] at h
    split at h
    case h_1 hmain =>
      cases h
      exact hs.runStartupTasks hmain starts hsettled
    case h_2 => cases h
  | startupScan =>
    simp only [State.step] at h
    split at h
    case h_1 hstartup =>
      cases h
      exact hs.startupScan hstartup
    case h_2 => cases h
  | startupFinish ok =>
    simp only [State.step] at h
    split at h
    case h_1 hstartup =>
      cases h
      exact hs.startupFinish hstartup
    case h_2 | h_3 =>
      cases h
      exact { hs with serial := fun _ => rfl, startupFirst := fun h => absurd rfl h, startupScanning := nofun }
    case h_4 => cases h
  -- a call, up to its decision for a run
  | ensureIndexed starts =>
    simp only [State.step] at h
    split at h
    case h_1 hmain =>
      cases h
      split_ifs with hidle
      · exact hs.ensureIndexed hmain starts hsettled hidle
      · exact hs
    case h_2 => cases h
  | mayNotWrite hasData =>
    simp only [State.step] at h
    split at h
    case h_1 hmain =>
      cases h
      exact hs.mayNotWrite hmain hasData
    case h_2 => cases h
  | look elapsed =>
    simp only [State.step] at h
    split at h
    case h_1 hmain =>
      cases h
      exact hs.look hmain elapsed
    case h_2 => cases h
  -- the run
  | skip =>
    simp only [State.step] at h
    split at h
    case h_1 =>
      cases h
      exact { hs with serial := fun h => absurd rfl h, armed := nofun, incremental := nofun, scanning := nofun }
    case h_2 => cases h
  | scan =>
    simp only [State.step] at h
    split at h
    case h_1 run hmain =>
      cases h
      exact hs.scan hmain
    case h_2 => cases h
  | finish outcome =>
    simp only [State.step] at h
    split at h
    case h_1 run seen hmain =>
      cases h
      exact hs.finish hmain outcome
    case h_2 => cases h

/-- In every run in which the watcher is only started when no edit is unscanned or a rescan is owed, no edit is
stranded. -/
theorem trusted_of_run {as : List Action}
    (hstart : AllSteps State.step (fun s a => s.startsWatcher a = true → s.Settled) .init as)
    (hrun : run State.step .init as = some s) : s.Trusted := by
  have hs : Heard s := hstart.invariant (fun hs hq h => hs.step hq h) .init hrun
  exact hs.trusted

/-- The startup index, up to its scan. -/
def startup : List Action :=
  [.initialized, .runStartupTasks true, .startupScan]

/-- An edit after the watcher was started is indexed, and one more has its event. -/
def heard : List Action :=
  startup ++ [.startupFinish true, .runStartupTasks true, .edit ["src/a.rs"], .ensureIndexed true, .look false, .scan,
    .edit ["src/b.rs"], .finish .ok]

theorem heard_trusted : ∃ s, run State.step .init heard = some s ∧ s.scanned < s.edits ∧ s.Trusted := by
  have hstart : AllSteps State.step (fun s a => s.startsWatcher a = true → s.Settled) .init heard := by
    unfold heard startup
    refine .cons nofun rfl (.cons nofun rfl (.cons nofun rfl (.cons nofun rfl ?_)))
    -- the watcher is started with nothing edited
    refine .cons (fun _ hlt => absurd hlt (by decide)) rfl ?_
    refine .cons nofun rfl (.cons nofun rfl (.cons nofun rfl (.cons nofun rfl (.cons nofun rfl ?_))))
    exact .cons nofun rfl trivial
  obtain ⟨s, hrun⟩ : ∃ s, run State.step .init heard = some s := ⟨_, rfl⟩
  refine ⟨s, hrun, ?_, trusted_of_run hstart hrun⟩
  cases hrun
  decide

/-- The edit comes after the scan of the startup index, and before its result is consumed. -/
theorem startup_stranded :
    ¬∀ (as : List Action) (s : State), run State.step .init as = some s → s.Trusted := by
  intro h
  have htrusted := h (startup ++ [.edit ["src/a.rs"], .startupFinish true, .runStartupTasks true]) _ rfl
  have howed := htrusted [] rfl (by decide)
  revert howed
  decide

/-! ### Every other start strands an edit -/

/-- The first start of a watcher finds its channel empty. -/
theorem startPostIndexServices_of_none {s : State} (hwatcher : s.watcher = none) :
    s.startPostIndexServices true = { s with watcher := some [] } := by
  unfold State.startPostIndexServices
  rw [hwatcher]
  rfl

/-- With an index and an empty channel, an edit that no run has scanned is stranded. -/
theorem not_trusted_of_empty (hsettled : ¬s.Settled) (hwatcher : s.watcher = some []) (hindexed : s.indexed = true) :
    ¬s.Trusted := by
  intro htrusted
  refine hsettled fun hlt => ?_
  obtain hempty | hpending | hclear := htrusted [] hwatcher hlt
  · exact absurd rfl hempty
  · exact hpending
  · rw [hindexed] at hclear
    cases hclear

theorem consumeStartupIndexResult_of_none (hwatcher : s.watcher = none)
    (hstartup : s.startup = .idle) (hresult : s.startupIndexResult = true) :
    s.consumeStartupIndexResult true =
      { s with startupIndexResult := false, indexed := true, watcher := some [] } := by
  unfold State.consumeStartupIndexResult
  rw [if_neg (not_not.mpr hstartup), if_pos hresult]
  exact startPostIndexServices_of_none hwatcher

/-- A start of the watcher over an edit that no run has scanned strands it. -/
theorem stranded_of_start {a : Action} (hsettled : ¬s.Settled) (hstart : s.startsWatcher a = true)
    (h : s.step a = some s') : ¬s'.Trusted := by
  cases a with
  | runStartupTasks starts =>
    obtain ⟨⟨hwatcher, rfl⟩, hwhy⟩ : (s.watcher = none ∧ starts = true) ∧
        (if s.startupIndexPending then s.indexed else s.startup == .idle && s.startupIndexResult) = true := by
      simpa [State.startsWatcher] using hstart
    simp only [State.step] at h
    split at h
    case h_1 =>
      cases h
      unfold State.runStartupTasks
      -- the watcher is started for a pending index, or for a result that was waiting
      split_ifs at hwhy ⊢ with hpending
      · dsimp only
        rw [if_pos hwhy, startPostIndexServices_of_none (s := { s with startupIndexPending := false }) hwatcher]
        exact not_trusted_of_empty hsettled rfl hwhy
      · obtain ⟨hstartup, hresult⟩ : s.startup = .idle ∧ s.startupIndexResult = true := by simpa using hwhy
        rw [consumeStartupIndexResult_of_none hwatcher hstartup hresult]
        exact not_trusted_of_empty hsettled rfl rfl
    case h_2 => cases h
  | ensureIndexed starts =>
    obtain ⟨⟨⟨hwatcher, rfl⟩, hstartup⟩, hresult⟩ : ((s.watcher = none ∧ starts = true) ∧ s.startup = .idle) ∧
        s.startupIndexResult = true := by
      simpa [State.startsWatcher] using hstart
    simp only [State.step] at h
    split at h
    case h_1 =>
      cases h
      rw [if_pos hstartup, consumeStartupIndexResult_of_none hwatcher hstartup hresult]
      exact not_trusted_of_empty hsettled rfl rfl
    case h_2 => cases h
  | _ => cases hstart

end CodeGraph.Server.Watcher
