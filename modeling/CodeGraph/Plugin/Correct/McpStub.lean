import CodeGraph.Plugin.McpStub

/-!
# Nothing of the client is lost

Every line of the client has one fate, in the order in which the lines came: the stub handles it, or it is written to a
child, or it still waits for the child that is not yet ready (`client_lines_once`). A child that is heard only while it
is ours is written its handshake before any line (`child_handshake_first`). A stub that only its timer drives gives up
after `maxUpgradeFailures` failures (`timer_retries_bounded`).
-/

namespace CodeGraph.Plugin.McpStub

open CodeGraph.Lib
open CodeGraph.Plugin.Adopt (jsSpace)

variable {parse : Line → Option JsonVal} {upgrade : Option Upgrade} {s s' : State}

/-! ### Fates -/

/-- The part of what the client sends that an action brings. -/
def Action.text : Action → List Char
  | .data chunk => chunk
  | _ => []

/-- The lines of a text that are not blank, trimmed. -/
def solidLines (ls : List Line) : List Line := (ls.map (trim jsSpace)).filter (· ≠ [])

/-- The lines that the client has ended. -/
def clientLines (as : List Action) : List Line := solidLines (lines '\n' (as.flatMap Action.text)).1

/-- Where a line of the client goes. -/
inductive Fate
  | stub
  | child (k : ℕ)

/-- What is written for a line that goes there. -/
def Fate.shows (parse : Line → Option JsonVal) (upgrade : Option Upgrade) : Fate → Line → Option Effect
  | .stub, line => (reply parse upgrade line).map .answer
  | .child k, line => some (.send k line)

/-- What is written for a line of the client. -/
def Effect.carries : Effect → Bool
  | .answer _ | .send .. => true
  | _ => false

/-- The log as far as it tells of the lines of the client. -/
def State.carried (s : State) : List Effect := s.log.filter Effect.carries

theorem filter_shows (fate : Fate) (ls : List Line) :
    (ls.filterMap (fate.shows parse upgrade)).filter Effect.carries = ls.filterMap (fate.shows parse upgrade) := by
  rw [List.filter_eq_self]
  intro effect heffect
  obtain ⟨line, -, hshows⟩ := List.mem_filterMap.mp heffect
  cases fate with
  | stub =>
    obtain ⟨value, -, rfl⟩ := Option.map_eq_some_iff.mp hshows
    rfl
  | child k =>
    cases hshows
    rfl

/-- Every line received has its fate or waits, and what is written tells the fates. -/
structure Ledger (parse : Line → Option JsonVal) (upgrade : Option Upgrade) (received : List Line) (rest : List Char)
    (s : State) : Prop where
  fates : ∃ fates : List (Line × Fate), fates.map Prod.fst ++ s.queuedForChild = received ∧
    fates.filterMap (fun f => f.2.shows parse upgrade f.1) = s.carried
  queued : s.queuedForChild ≠ [] → s.child.isSome = true ∧ s.childReady = false
  stdin : s.endedStdin = []
  buf : s.buf = rest

variable {received : List Line} {rest : List Char}

theorem Ledger.init : Ledger parse upgrade [] [] (.init upgrade) :=
  ⟨⟨[], rfl, rfl⟩, fun h => absurd rfl h, rfl, rfl⟩

theorem Ledger.queued_nil (h : Ledger parse upgrade received rest s) (hready : s.child = none ∨ s.childReady = true) :
    s.queuedForChild = [] := by
  by_contra hne
  obtain ⟨hchild, hfalse⟩ := h.queued hne
  rcases hready with hnone | htrue
  · simp [hnone] at hchild
  · simp [htrue] at hfalse

/-- Nothing of the client's moves. -/
theorem Ledger.still (h : Ledger parse upgrade received rest s) (hqueue : s'.queuedForChild = s.queuedForChild)
    (hcarried : s'.carried = s.carried)
    (hwait : s.queuedForChild ≠ [] → s'.child.isSome = true ∧ s'.childReady = false)
    (hstdin : s'.endedStdin = s.endedStdin) (hbuf : s'.buf = s.buf) : Ledger parse upgrade received rest s' where
  fates := by
    rw [hqueue, hcarried]
    exact h.fates
  queued hne := hwait (hqueue ▸ hne)
  stdin := hstdin.trans h.stdin
  buf := hbuf.trans h.buf

/-- What waits, and more lines behind it, all go one way. -/
theorem Ledger.dispatch (h : Ledger parse upgrade received rest s) (fate : Fate) (more : List Line)
    (hqueue : s'.queuedForChild = [])
    (hcarried : s'.carried = s.carried ++ (s.queuedForChild ++ more).filterMap (fate.shows parse upgrade))
    (hstdin : s'.endedStdin = s.endedStdin) (hbuf : s'.buf = s.buf) :
    Ledger parse upgrade (received ++ more) rest s' where
  fates := by
    obtain ⟨fates, hlines, hshows⟩ := h.fates
    refine ⟨fates ++ (s.queuedForChild ++ more).map (·, fate), ?_, ?_⟩
    · have hfst : ((s.queuedForChild ++ more).map (·, fate)).map Prod.fst = s.queuedForChild ++ more := by
        rw [List.map_map]
        exact List.map_id _
      rw [List.map_append, hfst, hqueue, ← hlines]
      simp only [List.append_assoc, List.append_nil]
    · rw [List.filterMap_append, hshows, List.filterMap_map, hcarried]
      rfl
  queued hne := absurd hqueue hne
  stdin := hstdin.trans h.stdin
  buf := hbuf.trans h.buf

/-! ### Writes -/

theorem State.carried_write (s : State) (effects : List Effect) :
    (s.write effects).carried = s.carried ++ effects.filter Effect.carries := List.filter_append ..

theorem Ledger.writeChild (h : Ledger parse upgrade received rest s) (child : ℕ) (effects : List Effect) :
    s.writeChild child effects = s.write effects := by
  rw [State.writeChild, if_neg]
  simp [h.stdin]

/-- A write that tells nothing of the client's lines. -/
theorem Ledger.write (h : Ledger parse upgrade received rest s) {effects : List Effect}
    (hnone : effects.filter Effect.carries = []) : Ledger parse upgrade received rest (s.write effects) :=
  h.still rfl (by rw [State.carried_write, hnone, List.append_nil]) h.queued rfl rfl

theorem foldl_handle (ls : List Line) (s : State) :
    ls.foldl (State.handle parse upgrade) s = s.write (ls.filterMap (Fate.stub.shows parse upgrade)) := by
  induction ls generalizing s with
  | nil => simp [State.write]
  | cons line ls ih =>
    rw [List.foldl_cons, ih, List.filterMap_cons, State.handle, Fate.shows]
    cases reply parse upgrade line with
    | none => simp [State.write]
    | some value => simp [State.write]

/-! ### Callbacks -/

theorem Ledger.takeLine (h : Ledger parse upgrade received rest s) (line : Line) :
    Ledger parse upgrade (received ++ solidLines [line]) rest (s.takeLine parse upgrade line) := by
  rw [State.takeLine]
  by_cases hblank : trim jsSpace line = []
  · rw [if_pos hblank]
    simpa [solidLines, hblank] using h
  · rw [if_neg hblank]
    have hsolid : solidLines [line] = [trim jsSpace line] := by simp [solidLines, hblank]
    rw [hsolid]
    split
    case h_1 child hchild =>
      by_cases hready : s.childReady = true
      · have hnil := h.queued_nil (.inr hready)
        rw [if_pos hready, h.writeChild]
        refine h.dispatch (.child child) _ hnil ?_ rfl rfl
        rw [State.carried_write, hnil]
        rfl
      · rw [if_neg hready]
        obtain ⟨fates, hlines, hshows⟩ := h.fates
        refine ⟨⟨fates, ?_, hshows⟩, fun _ => ⟨by simp [hchild], by simpa using hready⟩, h.stdin, h.buf⟩
        rw [← hlines, List.append_assoc]
    case h_2 hchild =>
      have hnil := h.queued_nil (.inl hchild)
      refine h.dispatch .stub _ hnil ?_ rfl rfl
      rw [hnil, List.nil_append, ← filter_shows]
      have hhandle := State.carried_write s (((reply parse upgrade (trim jsSpace line))).toList.map .answer)
      refine hhandle.trans ?_
      cases hreply : reply parse upgrade (trim jsSpace line) <;> simp [Fate.shows, hreply]

theorem Ledger.takeLines (h : Ledger parse upgrade received rest s) (ls : List Line) :
    Ledger parse upgrade (received ++ solidLines ls) rest (ls.foldl (State.takeLine parse upgrade) s) := by
  induction ls generalizing s received with
  | nil => simpa [solidLines] using h
  | cons line ls ih =>
    have hcons : solidLines (line :: ls) = solidLines [line] ++ solidLines ls := by
      simp only [solidLines, ← List.filter_append, ← List.map_append, List.singleton_append]
    rw [List.foldl_cons, hcons, ← List.append_assoc]
    exact ih (h.takeLine line)

theorem Ledger.noteUpgradeFailure (h : Ledger parse upgrade received rest s) :
    Ledger parse upgrade received rest s.noteUpgradeFailure :=
  h.still rfl rfl h.queued rfl rfl

theorem Ledger.attemptUpgrade (h : Ledger parse upgrade received rest s) (probe : Probe) :
    Ledger parse upgrade received rest (s.attemptUpgrade upgrade probe) := by
  unfold State.attemptUpgrade
  split
  case h_1 upgrade hchild =>
    have hnil := h.queued_nil (.inl hchild)
    cases probe with
    | notYet =>
      dsimp only
      split_ifs
      · exact h.still rfl rfl h.queued rfl rfl
      · exact h
    | threw =>
      have hbackoff : Ledger parse (some upgrade) received rest { s with backoffTicks := 0, backoffNext := 1 } :=
        h.still rfl rfl h.queued rfl rfl
      exact hbackoff.noteUpgradeFailure
    | unresolved => exact h.noteUpgradeFailure
    | spawned =>
      have hspawned : Ledger parse (some upgrade) received rest
          { s with poller := false, child := some s.spawned, spawned := s.spawned + 1 } :=
        h.still rfl rfl (fun hne => absurd hnil hne) rfl rfl
      dsimp only
      rw [State.beginProxy, hspawned.writeChild]
      exact hspawned.write rfl
  case h_2 => exact h

theorem Ledger.pollTick (h : Ledger parse upgrade received rest s) (probe : Probe) :
    Ledger parse upgrade received rest (s.pollTick upgrade probe) := by
  rw [State.pollTick]
  split_ifs
  · exact h.still rfl rfl h.queued rfl rfl
  · exact h.attemptUpgrade probe

theorem Ledger.fallBackToStub (h : Ledger parse upgrade received rest s) :
    Ledger parse upgrade received rest (s.fallBackToStub parse upgrade) := by
  rw [State.fallBackToStub, foldl_handle]
  have hgone : Ledger parse upgrade (received ++ []) rest
      (State.write { s with queuedForChild := [], child := none, childReady := false }
        (s.queuedForChild.filterMap (Fate.stub.shows parse upgrade))) := by
    refine h.dispatch .stub [] rfl ?_ rfl rfl
    rw [State.carried_write, filter_shows, List.append_nil]
    rfl
  rw [List.append_nil] at hgone
  refine Ledger.noteUpgradeFailure ?_
  exact hgone.still rfl rfl hgone.queued rfl rfl

theorem Ledger.takeChildLine (h : Ledger parse upgrade received rest s) (child : ℕ) (line : Line) :
    Ledger parse upgrade received rest (s.takeChildLine parse child line) := by
  rw [State.takeChildLine]
  split_ifs with hblank hreply
  · exact h
  · have hshake : Ledger parse upgrade received rest (s.write [.handshake child initializedMessage]) := h.write rfl
    dsimp only
    rw [h.writeChild, hshake.writeChild]
    have hflush : Ledger parse upgrade (received ++ []) rest (State.write
        { State.write (State.write s [.handshake child initializedMessage])
            (s.queuedForChild.map (.send child)) with childReady := true, queuedForChild := [] }
        [.notify listChangedMessage]) := by
      refine hshake.dispatch (.child child) [] rfl ?_ rfl rfl
      have hmap : s.queuedForChild.map (Effect.send child) =
          s.queuedForChild.filterMap ((Fate.child child).shows parse upgrade) := by
        show _ = s.queuedForChild.filterMap fun line => some (Effect.send child line)
        rw [List.filterMap_eq_map']
      rw [hmap, State.carried_write, List.append_nil]
      refine (List.append_nil _).trans ((State.carried_write _ _).trans ?_)
      rw [filter_shows]
      rfl
    rwa [List.append_nil] at hflush
  · exact h.write rfl

theorem Ledger.takeChildLines (h : Ledger parse upgrade received rest s) (child : ℕ) (ls : List Line) :
    Ledger parse upgrade received rest (ls.foldl (State.takeChildLine parse child) s) :=
  List.foldlRecOn ls _ h fun _ h line _ => h.takeChildLine child line

theorem Ledger.childGone (h : Ledger parse upgrade received rest s) (child : ℕ) :
    Ledger parse upgrade received rest (s.childGone parse upgrade child) := by
  rw [State.childGone]
  split_ifs
  · exact h
  · exact h.still rfl rfl h.queued rfl rfl
  · exact h.fallBackToStub

/-! ### Runs -/

/-- What a callback does. -/
theorem step_cases {a : Action} (h : step parse upgrade s a = some s') :
    (∃ chunk, a = .data chunk ∧ s' = s.data parse upgrade chunk) ∨ (a = .endInput ∧ s' = s.endInput) ∨
      (∃ probe, a = .tick probe ∧ s.poller = true ∧ s' = s.pollTick upgrade probe) ∨
      (∃ probe, a = .nudge probe ∧ s' = s.attemptUpgrade upgrade probe) ∨
      (∃ child chunk, a = .childData child chunk ∧ child < s.spawned ∧ s' = s.childData parse child chunk) ∨
      ∃ child, (a = .childError child ∨ a = .childExit child) ∧ child < s.spawned ∧
        s' = s.childGone parse upgrade child := by
  unfold step at h
  by_cases hexited : s.exited = true
  · simp [hexited] at h
  · rw [if_neg hexited] at h
    cases a <;> simp only [Option.ite_none_left_eq_some, Option.ite_none_right_eq_some, Option.some_inj] at h <;> grind

/-- A callback keeps the ledger of what the client has sent. -/
theorem Ledger.step {as : List Action} {a : Action}
    (h : Ledger parse upgrade (clientLines as) (lines '\n' (as.flatMap Action.text)).2 s) (hopen : a ≠ .endInput)
    (hstep : step parse upgrade s a = some s') :
    Ledger parse upgrade (clientLines (as ++ [a])) (lines '\n' ((as ++ [a]).flatMap Action.text)).2 s' := by
  have htext : (as ++ [a]).flatMap Action.text = as.flatMap Action.text ++ a.text := by simp
  have hquiet (hnone : a.text = [])
      (hs : Ledger parse upgrade (clientLines as) (lines '\n' (as.flatMap Action.text)).2 s') :
      Ledger parse upgrade (clientLines (as ++ [a])) (lines '\n' ((as ++ [a]).flatMap Action.text)).2 s' := by
    rwa [clientLines, htext, hnone, List.append_nil]
  obtain ⟨chunk, rfl, rfl⟩ | ⟨rfl, -⟩ | ⟨probe, rfl, -, rfl⟩ | ⟨probe, rfl, rfl⟩ | ⟨child, chunk, rfl, -, rfl⟩ |
    ⟨child, ha, -, rfl⟩ := step_cases hstep
  · rw [clientLines, htext, Action.text, lines_append, ← h.buf]
    have hread : Ledger parse upgrade (clientLines as) (lines '\n' (s.buf ++ chunk)).2
        { s with buf := (lines '\n' (s.buf ++ chunk)).2 } := ⟨h.fates, h.queued, h.stdin, rfl⟩
    have htake := hread.takeLines (lines '\n' (s.buf ++ chunk)).1
    rwa [clientLines, solidLines, solidLines, ← List.filter_append, ← List.map_append] at htake
  · exact absurd rfl hopen
  · exact hquiet rfl (h.pollTick probe)
  · exact hquiet rfl (h.attemptUpgrade probe)
  · have hread : Ledger parse upgrade (clientLines as) (lines '\n' (as.flatMap Action.text)).2
        { s with childBuf := Function.update s.childBuf child (lines '\n' (s.childBuf child ++ chunk)).2 } :=
      h.still rfl rfl h.queued rfl rfl
    exact hquiet rfl (hread.takeChildLines child _)
  · exact hquiet (by rcases ha with rfl | rfl <;> rfl) (h.childGone child)

/-- Every line of the client goes one way, once and in its turn, and what is written for it is what its way writes.
Those that have none yet wait, in their order, for a child that is not ready. -/
theorem client_lines_once {as : List Action} (h : run (step parse upgrade) (.init upgrade) as = some s)
    (hopen : .endInput ∉ as) :
    (∃ fates : List (Line × Fate), fates.map Prod.fst ++ s.queuedForChild = clientLines as ∧
      fates.filterMap (fun f => f.2.shows parse upgrade f.1) = s.log.filter Effect.carries) ∧
    (s.queuedForChild ≠ [] → s.child.isSome = true ∧ s.childReady = false) := by
  have hinit : Ledger parse upgrade (clientLines []) (lines '\n' (([] : List Action).flatMap Action.text)).2
      (.init upgrade) := Ledger.init
  have hok : ∀ a ∈ as, (fun a : Action => a ≠ .endInput) a := by
    rintro a ha rfl
    exact hopen ha
  have hledger : Ledger parse upgrade (clientLines as) (lines '\n' (as.flatMap Action.text)).2 s := by
    refine run_invariant_trace
      (I := fun as s => Ledger parse upgrade (clientLines as) (lines '\n' (as.flatMap Action.text)).2 s) ?_ hinit hok h
    exact fun h hok hstep => h.step hok hstep
  exact ⟨hledger.fates, hledger.queued⟩

/-- A line that comes while the child starts waits for it. -/
theorem client_lines_once_waiting :
    ∃ s, run (step (fun _ => none) (some ⟨none, false, 0⟩)) (.init (some ⟨none, false, 0⟩))
        [.data ['a', '\n', 'b'], .tick .spawned, .data [' ', '\n']] = some s ∧ s.queuedForChild = [['b']] ∧
      ∃ fates : List (Line × Fate), fates.map Prod.fst ++ s.queuedForChild =
          clientLines [.data ['a', '\n', 'b'], .tick .spawned, .data [' ', '\n']] ∧
        fates.filterMap (fun f => f.2.shows (fun _ => none) (some ⟨none, false, 0⟩) f.1) =
          s.log.filter Effect.carries :=
  ⟨_, rfl, rfl, (client_lines_once rfl (by simp)).1⟩

/-! ### Handshakes -/

/-- The child to which it is written. -/
def Effect.receiver : Effect → Option ℕ
  | .handshake k _ | .send k _ => some k
  | _ => none

/-- What was written to a child. -/
def State.sentTo (s : State) (k : ℕ) : List Effect := s.log.filter fun effect => effect.receiver = some k

theorem State.sentTo_write (s : State) (effects : List Effect) (k : ℕ) :
    (s.write effects).sentTo k = s.sentTo k ++ effects.filter fun effect => effect.receiver = some k :=
  List.filter_append ..

/-- A child is told to initialise first, as the client asked for it when the child was spawned. -/
def Begun (saves : ℕ → Option JsonVal → Prop) (k : ℕ) (sent : List Effect) : Prop :=
  ∃ saved rest, saves k saved ∧ sent = .handshake k (initializeMessage saved) :: rest ∧
    (rest = [] ∨ rest.head? = some (.handshake k initializedMessage))

/-- A child's handshake has ended. -/
def Done (saves : ℕ → Option JsonVal → Prop) (k : ℕ) (sent : List Effect) : Prop :=
  ∃ saved rest, saves k saved ∧
    sent = .handshake k (initializeMessage saved) :: .handshake k initializedMessage :: rest

/-- Every child that was spawned is told to initialise, and ours, once it is ready, that it has. -/
structure Handshakes (saves : ℕ → Option JsonVal → Prop) (s : State) : Prop where
  none_yet : ∀ k, s.spawned ≤ k → s.sentTo k = []
  begun : ∀ k < s.spawned, Begun saves k (s.sentTo k)
  ready : ∀ k, s.child = some k → s.childReady = true → k ∈ s.endedStdin ∨ Done saves k (s.sentTo k)
  child : ∀ k, s.child = some k → k < s.spawned
  idle : s.child = none → s.childReady = false
  ended : ∀ k ∈ s.endedStdin, k < s.spawned

variable {saves : ℕ → Option JsonVal → Prop}

theorem Done.begun {k : ℕ} {sent : List Effect} (h : Done saves k sent) : Begun saves k sent := by
  obtain ⟨saved, rest, hsaved, rfl⟩ := h
  exact ⟨saved, _, hsaved, rfl, .inr rfl⟩

theorem Done.append {k : ℕ} {sent : List Effect} (h : Done saves k sent) (more : List Effect) :
    Done saves k (sent ++ more) := by
  obtain ⟨saved, rest, hsaved, rfl⟩ := h
  exact ⟨saved, rest ++ more, hsaved, rfl⟩

/-- The reply of a child ends its handshake, and a second one changes nothing. -/
theorem Begun.done {k : ℕ} {sent : List Effect} (h : Begun saves k sent) (more : List Effect) :
    Done saves k (sent ++ .handshake k initializedMessage :: more) := by
  obtain ⟨saved, rest, hsaved, rfl, hnil | hhead⟩ := h
  · exact ⟨saved, more, hsaved, by simp [hnil]⟩
  · obtain ⟨rest, rfl⟩ := List.head?_eq_some_iff.mp hhead
    exact ⟨saved, rest ++ .handshake k initializedMessage :: more, hsaved, by simp⟩

theorem Handshakes.init : Handshakes saves (.init upgrade) where
  none_yet _ _ := rfl
  begun k hk := absurd hk (Nat.not_lt_zero k)
  ready _ hchild := by cases hchild
  child _ hchild := by cases hchild
  idle _ := rfl
  ended k hk := absurd hk List.not_mem_nil

/-- Nothing is written to a child. -/
theorem Handshakes.still (h : Handshakes saves s) (hsent : ∀ k, s'.sentTo k = s.sentTo k) (hspawned : s'.spawned = s.spawned)
    (hchild : s'.child = s.child) (hready : s'.childReady = s.childReady) (hended : s'.endedStdin = s.endedStdin) :
    Handshakes saves s' := by
  obtain ⟨hnone, hbegun, hdone, hspawn, hidle, hend⟩ := h
  constructor
  all_goals simpa only [hsent, hspawned, hchild, hready, hended]

theorem Handshakes.write (h : Handshakes saves s) {effects : List Effect}
    (hnone : ∀ effect ∈ effects, effect.receiver = none) : Handshakes saves (s.write effects) := by
  refine h.still (fun k => ?_) rfl rfl rfl rfl
  have hfilter : (effects.filter fun effect => effect.receiver = some k) = [] := by
    rw [List.filter_eq_nil_iff]
    intro effect heffect
    simp [hnone effect heffect]
  rw [State.sentTo_write, hfilter, List.append_nil]

theorem receiver_of_shows_stub {ls : List Line} :
    ∀ effect ∈ ls.filterMap (Fate.stub.shows parse upgrade), effect.receiver = none := by
  intro effect heffect
  obtain ⟨line, -, hshows⟩ := List.mem_filterMap.mp heffect
  obtain ⟨value, -, rfl⟩ := Option.map_eq_some_iff.mp hshows
  rfl

/-- More is written to our child, whose handshake has ended. -/
theorem Handshakes.writeChild (h : Handshakes saves s) {k : ℕ} (hchild : s.child = some k) (hready : s.childReady = true)
    {effects : List Effect} (hto : ∀ effect ∈ effects, effect.receiver = some k) :
    Handshakes saves (s.writeChild k effects) := by
  rw [State.writeChild]
  split_ifs with hended
  · exact h
  · have hdone : Done saves k (s.sentTo k) := (h.ready k hchild hready).resolve_left hended
    have hother (j : ℕ) (hj : j ≠ k) : (s.write effects).sentTo j = s.sentTo j := by
      have hfilter : (effects.filter fun effect => effect.receiver = some j) = [] := by
        rw [List.filter_eq_nil_iff]
        intro effect heffect
        simp [hto effect heffect, hj.symm]
      rw [State.sentTo_write, hfilter, List.append_nil]
    have hdone' : Done saves k ((s.write effects).sentTo k) := by
      rw [State.sentTo_write]
      exact hdone.append _
    refine ⟨fun j hj => ?_, fun j hj => ?_, fun j hj hr => ?_, h.child, h.idle, h.ended⟩
    · have hlt := h.child k hchild
      have hle : s.spawned ≤ j := hj
      rw [hother j (by omega)]
      exact h.none_yet j hj
    · by_cases hjk : j = k
      · subst hjk
        exact hdone'.begun
      · rw [hother j hjk]
        exact h.begun j hj
    · have hjk : j = k := Option.some_inj.mp (Eq.trans hj.symm hchild)
      subst hjk
      exact .inr hdone'

theorem Handshakes.takeLine (h : Handshakes saves s) (line : Line) : Handshakes saves (s.takeLine parse upgrade line) := by
  rw [State.takeLine]
  by_cases hblank : trim jsSpace line = []
  · rw [if_pos hblank]
    exact h
  · rw [if_neg hblank]
    split
    case h_1 child hchild =>
      by_cases hready : s.childReady = true
      · rw [if_pos hready]
        exact h.writeChild hchild hready (by simp [Effect.receiver])
      · rw [if_neg hready]
        exact h.still (fun _ => rfl) rfl rfl rfl rfl
    case h_2 hchild =>
      have hsaved : Handshakes saves { s with
          savedInitialize := ((request parse (trim jsSpace line)).filter fun req =>
            methodOf req = some "initialize").or s.savedInitialize } := h.still (fun _ => rfl) rfl rfl rfl rfl
      exact hsaved.write (by simp [Effect.receiver])

theorem Handshakes.noteUpgradeFailure (h : Handshakes saves s) : Handshakes saves s.noteUpgradeFailure :=
  h.still (fun _ => rfl) rfl rfl rfl rfl

/-- A child that is spawned is told to initialise at once. -/
theorem Handshakes.spawn (h : Handshakes saves s) (hchild : s.child = none) (hsaved : saves s.spawned s.savedInitialize) :
    Handshakes saves ({ s with poller := false, child := some s.spawned, spawned := s.spawned + 1 }.beginProxy s.spawned) := by
  have hfresh : s.spawned ∉ s.endedStdin := fun hmem => absurd (h.ended _ hmem) (Nat.lt_irrefl _)
  rw [State.beginProxy, State.writeChild, if_neg hfresh]
  have hold (j : ℕ) (hj : j ≠ s.spawned) : State.sentTo (State.write
      { s with poller := false, child := some s.spawned, spawned := s.spawned + 1 }
      [.handshake s.spawned (initializeMessage s.savedInitialize)]) j = s.sentTo j := by
    rw [State.sentTo_write]
    simp [Effect.receiver, hj.symm, State.sentTo]
  refine ⟨fun j hj => ?_, fun j hj => ?_, fun j _ hr => ?_, fun j hj => ?_, fun hnone => ?_, fun j hj => ?_⟩
  · have hle : s.spawned + 1 ≤ j := hj
    rw [hold j (by omega)]
    exact h.none_yet j (by omega)
  · obtain rfl | hnew := eq_or_ne j s.spawned
    · have hnil : State.sentTo { s with poller := false, child := some s.spawned, spawned := s.spawned + 1 }
          s.spawned = [] := h.none_yet _ le_rfl
      rw [State.sentTo_write, hnil]
      exact ⟨s.savedInitialize, [], hsaved, by simp [Effect.receiver], .inl rfl⟩
    · have hlt : j < s.spawned + 1 := hj
      rw [hold j hnew]
      exact h.begun j (by omega)
  · have hidle := h.idle hchild
    rw [show s.childReady = true from hr] at hidle
    cases hidle
  · cases hj
    exact Nat.lt_succ_self _
  · cases hnone
  · exact Nat.lt_succ_of_lt (h.ended j hj)

theorem spawned_writeChild (s : State) (k : ℕ) (effects : List Effect) : (s.writeChild k effects).spawned = s.spawned := by
  rw [State.writeChild]
  split_ifs <;> rfl

theorem Handshakes.attemptUpgrade (h : Handshakes saves s) (probe : Probe)
    (hsaved : (s.attemptUpgrade upgrade probe).spawned = s.spawned + 1 → saves s.spawned s.savedInitialize) :
    Handshakes saves (s.attemptUpgrade upgrade probe) := by
  unfold State.attemptUpgrade
  split
  case h_1 upgrade hchild =>
    cases probe with
    | notYet =>
      dsimp only
      split_ifs
      · exact h.still (fun _ => rfl) rfl rfl rfl rfl
      · exact h
    | threw =>
      have hbackoff : Handshakes saves { s with backoffTicks := 0, backoffNext := 1 } :=
        h.still (fun _ => rfl) rfl rfl rfl rfl
      exact hbackoff.noteUpgradeFailure
    | unresolved => exact h.noteUpgradeFailure
    | spawned =>
      refine h.spawn hchild (hsaved ?_)
      rw [State.attemptUpgrade]
      · exact spawned_writeChild ..
      · exact hchild
  case h_2 => exact h

/-- Our child is given up. -/
theorem Handshakes.fallBackToStub (h : Handshakes saves s) : Handshakes saves (s.fallBackToStub parse upgrade) := by
  rw [State.fallBackToStub, foldl_handle]
  have hgone : Handshakes saves { s with queuedForChild := [], child := none, childReady := false } :=
    ⟨h.none_yet, h.begun, by simp, by simp, fun _ => rfl, h.ended⟩
  refine Handshakes.noteUpgradeFailure ?_
  exact (hgone.write receiver_of_shows_stub).still (fun _ => rfl) rfl rfl rfl rfl

/-- A line of our child. -/
theorem Handshakes.takeChildLine {k : ℕ} (h : Handshakes saves s ∧ s.child = some k) (line : Line) :
    Handshakes saves (s.takeChildLine parse k line) ∧ (s.takeChildLine parse k line).child = some k := by
  obtain ⟨h, hchild⟩ := h
  rw [State.takeChildLine]
  split_ifs with hblank hreply
  · exact ⟨h, hchild⟩
  · dsimp only
    -- to a child whose input has ended nothing is written
    by_cases hended : k ∈ s.endedStdin
    · have hsame (effects : List Effect) : s.writeChild k effects = s := if_pos hended
      rw [hsame, hsame]
      have hready : Handshakes saves { s with childReady := true, queuedForChild := [] } :=
        ⟨h.none_yet, h.begun, fun j hj _ => .inl (Option.some_inj.mp (Eq.trans hj.symm hchild) ▸ hended), h.child,
          fun hnone => by simp [hchild] at hnone, h.ended⟩
      exact ⟨hready.write (by simp [Effect.receiver]), hchild⟩
    · -- the two writes are one: the message, and the queue behind it
      have hwrites : (s.writeChild k [.handshake k initializedMessage]).writeChild k (s.queuedForChild.map (.send k)) =
          s.write (.handshake k initializedMessage :: s.queuedForChild.map (.send k)) := by
        simp [State.writeChild, State.write, hended]
      have hfilter (j : ℕ) : (Effect.handshake k initializedMessage :: s.queuedForChild.map (.send k)).filter
          (fun effect => effect.receiver = some j) =
          if k = j then .handshake k initializedMessage :: s.queuedForChild.map (.send k) else [] := by
        by_cases hkj : k = j <;> simp [Effect.receiver, List.filter_map, Function.comp_def, hkj]
      have hready : Handshakes saves
          { s.write (.handshake k initializedMessage :: s.queuedForChild.map (.send k)) with
            childReady := true, queuedForChild := [] } := by
        -- the child had the first message, so with the second the handshake is done
        have hdone : Done saves k
            ((s.write (.handshake k initializedMessage :: s.queuedForChild.map (.send k))).sentTo k) := by
          rw [State.sentTo_write, hfilter, if_pos rfl]
          exact (h.begun k (h.child k hchild)).done _
        have hother (j : ℕ) (hj : j ≠ k) :
            (s.write (.handshake k initializedMessage :: s.queuedForChild.map (.send k))).sentTo j = s.sentTo j := by
          rw [State.sentTo_write, hfilter, if_neg hj.symm, List.append_nil]
        refine ⟨fun j hj => ?_, fun j hj => ?_, fun j hj _ => ?_, h.child, fun hnone => ?_, h.ended⟩
        · have hlt := h.child k hchild
          have hle : s.spawned ≤ j := hj
          exact (hother j (by omega)).trans (h.none_yet j hj)
        · obtain rfl | hjk := eq_or_ne j k
          · exact hdone.begun
          · exact (hother j hjk).symm ▸ h.begun j hj
        · obtain rfl : j = k := Option.some_inj.mp (Eq.trans hj.symm hchild)
          exact .inr hdone
        · have hnone' : s.child = none := hnone
          simp [hchild] at hnone'
      have hqueue : (s.writeChild k [.handshake k initializedMessage]).queuedForChild = s.queuedForChild := by
        simp [State.writeChild, State.write, hended]
      rw [hqueue, hwrites]
      exact ⟨hready.write (by simp [Effect.receiver]), hchild⟩
  · exact ⟨h.write (by simp [Effect.receiver]), hchild⟩

theorem Handshakes.childGone (h : Handshakes saves s) (child : ℕ) : Handshakes saves (s.childGone parse upgrade child) := by
  rw [State.childGone]
  split_ifs
  · exact h
  · exact h.still (fun _ => rfl) rfl rfl rfl rfl
  · exact h.fallBackToStub

/-- A callback keeps the handshakes, where a child that is heard is ours. -/
theorem Handshakes.step {a : Action} (h : Handshakes saves s)
    (hours : ∀ child chunk, a = .childData child chunk → s.child = some child)
    (hsaved : s'.spawned = s.spawned + 1 → saves s.spawned s.savedInitialize)
    (hstep : step parse upgrade s a = some s') : Handshakes saves s' := by
  obtain ⟨chunk, rfl, rfl⟩ | ⟨rfl, rfl⟩ | ⟨probe, rfl, -, rfl⟩ | ⟨probe, rfl, rfl⟩ | ⟨child, chunk, rfl, -, rfl⟩ |
    ⟨child, -, -, rfl⟩ := step_cases hstep
  · have hread : Handshakes saves { s with buf := (lines '\n' (s.buf ++ chunk)).2 } := h.still (fun _ => rfl) rfl rfl rfl rfl
    exact List.foldlRecOn (lines '\n' (s.buf ++ chunk)).1 _ hread fun _ h line _ => h.takeLine line
  · unfold State.endInput
    split
    case h_1 child hchild =>
      refine ⟨h.none_yet, h.begun, fun k hk hr => ?_, h.child, h.idle, fun k hk => ?_⟩
      · exact (h.ready k hk hr).imp_left (List.mem_cons_of_mem child)
      · obtain rfl | hk := List.mem_cons.mp hk
        · exact h.child k hchild
        · exact h.ended k hk
    case h_2 => exact h.still (fun _ => rfl) rfl rfl rfl rfl
  · rw [State.pollTick] at hsaved ⊢
    split_ifs at hsaved ⊢
    · exact h.still (fun _ => rfl) rfl rfl rfl rfl
    · exact h.attemptUpgrade probe hsaved
  · exact h.attemptUpgrade probe hsaved
  · have hread : Handshakes saves { s with
        childBuf := Function.update s.childBuf child (lines '\n' (s.childBuf child ++ chunk)).2 } :=
      h.still (fun _ => rfl) rfl rfl rfl rfl
    exact (List.foldlRecOn (motive := fun s => Handshakes saves s ∧ s.child = some child)
      (lines '\n' (s.childBuf child ++ chunk)).1 _ ⟨hread, hours child chunk rfl⟩
      fun _ h line _ => Handshakes.takeChildLine h line).1
  · exact h.childGone child

/-- The client's `initialize` that was saved when the child was spawned. -/
def SavedAt (parse : Line → Option JsonVal) (upgrade : Option Upgrade) (as : List Action) (k : ℕ)
    (saved : Option JsonVal) : Prop :=
  ∃ before a after s₁ s₂, as = before ++ a :: after ∧ run (step parse upgrade) (.init upgrade) before = some s₁ ∧
    step parse upgrade s₁ a = some s₂ ∧ s₁.spawned = k ∧ s₂.spawned = k + 1 ∧ s₁.savedInitialize = saved

/-- Where no child is heard after it was given up, whatever is written to a child begins with the `initialize` that the
client had sent when the child was spawned, and it goes on with the end of the handshake before any line of the
client. -/
theorem child_handshake_first {as : List Action} (h : run (step parse upgrade) (.init upgrade) as = some s)
    (hours : AllSteps (step parse upgrade)
      (fun s a => ∀ child chunk, a = .childData child chunk → s.child = some child) (.init upgrade) as) (k : ℕ) :
    (s.log.filter fun effect => effect.receiver = some k) = [] ∨
      ∃ saved rest, SavedAt parse upgrade as k saved ∧
        (s.log.filter fun effect => effect.receiver = some k) = .handshake k (initializeMessage saved) :: rest ∧
        (rest = [] ∨ rest.head? = some (.handshake k initializedMessage)) := by
  have hsaves : AllSteps (step parse upgrade) (fun s a => ∀ s', step parse upgrade s a = some s' →
      s'.spawned = s.spawned + 1 → SavedAt parse upgrade as s.spawned s.savedInitialize) (.init upgrade) as := by
    refine .of_split fun before a after s₁ hsplit hrun s₂ hstep hspawned => ?_
    exact ⟨before, a, after, s₁, s₂, hsplit, hrun, hstep, rfl, hspawned, rfl⟩
  have hshakes : Handshakes (SavedAt parse upgrade as) s :=
    (hours.and hsaves).invariant (fun h hok hstep => h.step hok.1 (hok.2 _ hstep) hstep) Handshakes.init h
  by_cases hk : k < s.spawned
  · exact .inr (hshakes.begun k hk)
  · exact .inl (hshakes.none_yet k (Nat.le_of_not_lt hk))

/-- The client's `initialize` comes before the child; a line that waited is written behind the handshake. -/
theorem child_handshake_first_waiting :
    let asked : JsonVal := .obj [("method", .str "initialize"), ("params", .obj [("capabilities", .obj [])])]
    let parse : Line → Option JsonVal := fun line =>
      if line = ['i'] then some asked else if line = ['r'] then some (.obj [("id", sentinelId)]) else none
    let upgrade : Option Upgrade := some ⟨none, false, 0⟩
    let as : List Action := [.data ['i', '\n'], .tick .spawned, .data ['b', '\n'], .childData 0 ['r', '\n']]
    ∃ s, run (step parse upgrade) (.init upgrade) as = some s ∧
      (s.log.filter fun effect => effect.receiver = some 0) =
        [.handshake 0 (initializeMessage (some asked)), .handshake 0 initializedMessage, .send 0 ['b']] ∧
      ((s.log.filter fun effect => effect.receiver = some 0) = [] ∨
        ∃ saved rest, SavedAt parse upgrade as 0 saved ∧
          (s.log.filter fun effect => effect.receiver = some 0) = .handshake 0 (initializeMessage saved) :: rest ∧
          (rest = [] ∨ rest.head? = some (.handshake 0 initializedMessage))) := by
  intro asked parse upgrade as
  have hours : AllSteps (step parse upgrade)
      (fun s a => ∀ child chunk, a = .childData child chunk → s.child = some child) (.init upgrade) as := by
    refine .cons (by simp) rfl (.cons (by simp) rfl (.cons (by simp) rfl (.cons ?_ rfl trivial)))
    rintro child chunk ⟨⟩
    rfl
  have hrun : run (step parse upgrade) (.init upgrade) as = some _ := rfl
  exact ⟨_, hrun, rfl, child_handshake_first hrun hours 0⟩

/-! ### Retries -/

/-- How the upgrades of a stub stand that only its timer drives: a child that is ours or was given up cost one of the
failures that are allowed. -/
structure Bounded (upgrade : Upgrade) (s : State) : Prop where
  polling : s.poller = true → s.upgradeFailures < maxUpgradeFailures ∧ s.child = none
  trying : s.child ≠ none → s.upgradeFailures < maxUpgradeFailures ∧ s.spawned ≤ s.upgradeFailures + 1
  resting : s.child = none → s.spawned ≤ s.upgradeFailures
  failures : s.upgradeFailures ≤ maxUpgradeFailures
  ticks : s.backoffTicks ≤ upgrade.backoffCap
  next : s.backoffNext ≤ upgrade.backoffCap

variable {up : Upgrade}

theorem Bounded.init : Bounded up (.init (some up)) :=
  ⟨fun _ => ⟨Nat.succ_pos _, rfl⟩, fun h => absurd rfl h, fun _ => le_rfl, Nat.zero_le _, Nat.zero_le _, le_max_left _ _⟩

/-- What the bounds speak of is left alone. -/
structure SameTimer (s s' : State) : Prop where
  poller : s'.poller = s.poller
  upgradeFailures : s'.upgradeFailures = s.upgradeFailures
  child : s'.child = s.child
  spawned : s'.spawned = s.spawned
  backoffTicks : s'.backoffTicks = s.backoffTicks
  backoffNext : s'.backoffNext = s.backoffNext

theorem SameTimer.refl (s : State) : SameTimer s s := ⟨rfl, rfl, rfl, rfl, rfl, rfl⟩

theorem SameTimer.trans {s'' : State} (h : SameTimer s s') (h' : SameTimer s' s'') : SameTimer s s'' :=
  ⟨h'.poller.trans h.poller, h'.upgradeFailures.trans h.upgradeFailures, h'.child.trans h.child,
    h'.spawned.trans h.spawned, h'.backoffTicks.trans h.backoffTicks, h'.backoffNext.trans h.backoffNext⟩

theorem SameTimer.bounded (h : SameTimer s s') (hs : Bounded up s) : Bounded up s' := by
  obtain ⟨hpolling, htrying, hresting, hfailures, hticks, hnext⟩ := hs
  constructor
  all_goals simpa only [h.poller, h.upgradeFailures, h.child, h.spawned, h.backoffTicks, h.backoffNext]

theorem sameTimer_writeChild (k : ℕ) (effects : List Effect) : SameTimer s (s.writeChild k effects) := by
  rw [State.writeChild]
  split_ifs <;> exact ⟨rfl, rfl, rfl, rfl, rfl, rfl⟩

theorem sameTimer_takeLine (line : Line) : SameTimer s (s.takeLine parse upgrade line) := by
  rw [State.takeLine]
  by_cases hblank : trim jsSpace line = []
  · rw [if_pos hblank]
    exact SameTimer.refl s
  · rw [if_neg hblank]
    split
    case h_1 child _ =>
      by_cases hready : s.childReady = true
      · rw [if_pos hready]
        exact sameTimer_writeChild _ _
      · rw [if_neg hready]
        exact ⟨rfl, rfl, rfl, rfl, rfl, rfl⟩
    case h_2 => exact ⟨rfl, rfl, rfl, rfl, rfl, rfl⟩

theorem sameTimer_takeChildLine (k : ℕ) (line : Line) : SameTimer s (s.takeChildLine parse k line) := by
  rw [State.takeChildLine]
  split_ifs
  · exact SameTimer.refl s
  · have hwrites := (sameTimer_writeChild (s := s) k [.handshake k initializedMessage]).trans
      (sameTimer_writeChild k ((s.writeChild k [.handshake k initializedMessage]).queuedForChild.map (.send k)))
    exact hwrites.trans ⟨rfl, rfl, rfl, rfl, rfl, rfl⟩
  · exact ⟨rfl, rfl, rfl, rfl, rfl, rfl⟩

/-- A failed attempt of the timer. -/
theorem Bounded.failed (h : Bounded up s) (hpoller : s.poller = true) : Bounded up s.noteUpgradeFailure := by
  obtain ⟨hlt, hchild⟩ := h.polling hpoller
  have hspawned := h.resting hchild
  refine ⟨fun hpoll => ⟨?_, hchild⟩, fun hne => absurd hchild hne, fun _ => Nat.le_succ_of_le hspawned, hlt, h.ticks,
    h.next⟩
  simpa [State.noteUpgradeFailure, hpoller] using hpoll

theorem one_le_backoffCap : 1 ≤ up.backoffCap := le_max_left _ _

theorem Bounded.attemptUpgrade (h : Bounded up s) (hpoller : s.poller = true) (probe : Probe) :
    Bounded up (s.attemptUpgrade (some up) probe) := by
  obtain ⟨hlt, hchild⟩ := h.polling hpoller
  have hspawned := h.resting hchild
  unfold State.attemptUpgrade
  split
  case h_1 upgrade _ hup =>
    obtain rfl : up = upgrade := Option.some_inj.mp hup
    cases probe with
    | notYet =>
      dsimp only
      split_ifs
      · exact ⟨h.polling, h.trying, h.resting, h.failures, h.next, min_le_right _ _⟩
      · exact h
    | threw =>
      have hbackoff : Bounded up { s with backoffTicks := 0, backoffNext := 1 } :=
        ⟨h.polling, h.trying, h.resting, h.failures, Nat.zero_le _, one_le_backoffCap⟩
      exact hbackoff.failed hpoller
    | unresolved => exact h.failed hpoller
    | spawned =>
      have hspawn : Bounded up { s with poller := false, child := some s.spawned, spawned := s.spawned + 1 } :=
        ⟨by simp, fun _ => ⟨hlt, Nat.succ_le_succ hspawned⟩, by simp, h.failures, h.ticks, h.next⟩
      exact (sameTimer_writeChild _ _).bounded hspawn
  case h_2 => exact h

/-- Our child is given up: one more failure. -/
theorem Bounded.fallBackToStub (h : Bounded up s) (hchild : s.child ≠ none) :
    Bounded up (s.fallBackToStub parse (some up)) := by
  obtain ⟨hlt, hspawned⟩ := h.trying hchild
  rw [State.fallBackToStub, foldl_handle]
  refine ⟨fun hpoll => ⟨?_, rfl⟩, fun hne => absurd rfl hne, fun _ => hspawned, hlt, h.ticks, h.next⟩
  have hboth : ((s.poller || true) && decide (s.upgradeFailures + 1 < maxUpgradeFailures)) = true := hpoll
  exact of_decide_eq_true (Bool.and_eq_true_iff.mp hboth).2

theorem Bounded.childGone (h : Bounded up s) (k : ℕ) : Bounded up (s.childGone parse (some up) k) := by
  rw [State.childGone]
  split_ifs with hother
  · exact h
  · exact ⟨h.polling, h.trying, h.resting, h.failures, h.ticks, h.next⟩
  · rw [not_not] at hother
    exact h.fallBackToStub (by simp [hother])

theorem Bounded.step {a : Action} (h : Bounded up s) (htimer : ∀ probe, a ≠ .nudge probe)
    (hstep : step parse (some up) s a = some s') : Bounded up s' := by
  obtain ⟨chunk, rfl, rfl⟩ | ⟨rfl, rfl⟩ | ⟨probe, rfl, hpoller, rfl⟩ | ⟨probe, rfl, rfl⟩ | ⟨child, chunk, rfl, -, rfl⟩ |
    ⟨child, -, -, rfl⟩ := step_cases hstep
  · have hread : Bounded up { s with buf := (lines '\n' (s.buf ++ chunk)).2 } :=
      ⟨h.polling, h.trying, h.resting, h.failures, h.ticks, h.next⟩
    exact List.foldlRecOn (lines '\n' (s.buf ++ chunk)).1 _ hread
      fun _ h line _ => (sameTimer_takeLine line).bounded h
  · unfold State.endInput
    split <;> exact ⟨h.polling, h.trying, h.resting, h.failures, h.ticks, h.next⟩
  · rw [State.pollTick]
    split_ifs
    · exact ⟨h.polling, h.trying, h.resting, h.failures, (Nat.sub_le _ _).trans h.ticks, h.next⟩
    · exact h.attemptUpgrade hpoller probe
  · exact absurd rfl (htimer probe)
  · have hread : Bounded up { s with
        childBuf := Function.update s.childBuf child (lines '\n' (s.childBuf child ++ chunk)).2 } :=
      ⟨h.polling, h.trying, h.resting, h.failures, h.ticks, h.next⟩
    exact List.foldlRecOn (lines '\n' (s.childBuf child ++ chunk)).1 _ hread
      fun _ h line _ => (sameTimer_takeChildLine child line).bounded h
  · exact h.childGone child

def Action.isTick : Action → Bool
  | .tick _ => true
  | _ => false

/-- The action makes an attempt to upgrade. -/
def Probes (s : State) (a : Action) : Prop := a.isTick = true ∧ s.backoffTicks = 0

theorem backoffTicks_childGone (k : ℕ) : (s.childGone parse upgrade k).backoffTicks = s.backoffTicks := by
  rw [State.childGone]
  split_ifs
  · rfl
  · rfl
  · rw [State.fallBackToStub, foldl_handle]
    rfl

/-- A tick that is passed over is counted off, and nothing else of what the timer drives counts. -/
theorem backoffTicks_step {a : Action} (htimer : ∀ probe, a ≠ .nudge probe) (hquiet : ¬Probes s a)
    (hstep : step parse upgrade s a = some s') : a.isTick.toNat + s'.backoffTicks = s.backoffTicks := by
  obtain ⟨chunk, rfl, rfl⟩ | ⟨rfl, rfl⟩ | ⟨probe, rfl, -, rfl⟩ | ⟨probe, rfl, rfl⟩ | ⟨child, chunk, rfl, -, rfl⟩ |
    ⟨child, ha, -, rfl⟩ := step_cases hstep
  · have hsame : SameTimer s (s.data parse upgrade chunk) :=
      List.foldlRecOn (lines '\n' (s.buf ++ chunk)).1 _ ⟨rfl, rfl, rfl, rfl, rfl, rfl⟩
        fun _ h line _ => h.trans (sameTimer_takeLine line)
    rw [hsame.backoffTicks]
    exact Nat.zero_add _
  · unfold State.endInput
    split <;> exact Nat.zero_add _
  · have hticks : 0 < s.backoffTicks := Nat.pos_of_ne_zero fun hzero => hquiet ⟨rfl, hzero⟩
    rw [State.pollTick, if_pos hticks]
    exact Nat.add_sub_cancel' hticks
  · exact absurd rfl (htimer probe)
  · have hsame : SameTimer s (s.childData parse child chunk) :=
      List.foldlRecOn (lines '\n' (s.childBuf child ++ chunk)).1 _ ⟨rfl, rfl, rfl, rfl, rfl, rfl⟩
        fun _ h line _ => h.trans (sameTimer_takeChildLine child line)
    rw [hsame.backoffTicks]
    exact Nat.zero_add _
  · rw [backoffTicks_childGone]
    rcases ha with rfl | rfl <;> exact Nat.zero_add _

theorem backoffTicks_run {as : List Action} (htimer : ∀ probe, .nudge probe ∉ as)
    (hquiet : AllSteps (step parse upgrade) (fun s a => ¬Probes s a) s as)
    (h : run (step parse upgrade) s as = some s') : as.countP Action.isTick + s'.backoffTicks = s.backoffTicks := by
  induction as generalizing s with
  | nil =>
    rw [run_nil, Option.some_inj] at h
    rw [h]
    exact Nat.zero_add _
  | cons a as ih =>
    obtain ⟨t, ht, hrun⟩ := run_cons_eq_some.mp h
    have hstep := backoffTicks_step (fun probe heq => htimer probe (heq ▸ List.mem_cons_self)) hquiet.1 ht
    have hrest := ih (fun probe hmem => htimer probe (List.mem_cons_of_mem a hmem)) (hquiet.2 t ht) hrun
    rw [List.countP_cons]
    cases htick : a.isTick with
    | true =>
      rw [htick, Bool.toNat_true] at hstep
      rw [if_pos rfl]
      omega
    | false =>
      rw [htick, Bool.toNat_false] at hstep
      rw [if_neg Bool.false_ne_true]
      omega

/-- A stub that only its timer drives fails at most `maxUpgradeFailures` times and spawns no more children than that,
and of the ticks between two probes there are no more than the cap. -/
theorem timer_retries_bounded {as : List Action} (h : run (step parse (some up)) (.init (some up)) as = some s)
    (htimer : ∀ probe, .nudge probe ∉ as) :
    s.upgradeFailures ≤ maxUpgradeFailures ∧ s.spawned ≤ maxUpgradeFailures ∧ s.backoffTicks ≤ up.backoffCap ∧
      (s.upgradeFailures = maxUpgradeFailures → s.poller = false ∧ s.child = none) ∧
      ∀ before between after t, as = before ++ (between ++ after) →
        run (step parse (some up)) (.init (some up)) before = some t →
        AllSteps (step parse (some up)) (fun s a => ¬Probes s a) t between →
          between.countP Action.isTick ≤ up.backoffCap := by
  have hbounded {as : List Action} {s : State} (htimer : ∀ probe, .nudge probe ∉ as)
      (h : run (step parse (some up)) (.init (some up)) as = some s) : Bounded up s := by
    have hok : ∀ a ∈ as, (fun a : Action => ∀ probe, a ≠ .nudge probe) a := by
      rintro a ha probe rfl
      exact htimer probe ha
    refine run_invariant_of_forall ?_ Bounded.init hok h
    exact fun hs hok hstep => hs.step hok hstep
  have hs : Bounded up s := hbounded htimer h
  have hspawned : s.spawned ≤ maxUpgradeFailures := by
    by_cases hchild : s.child = none
    · exact (hs.resting hchild).trans hs.failures
    · obtain ⟨hlt, hle⟩ := hs.trying hchild
      omega
  refine ⟨hs.failures, hspawned, hs.ticks, fun hmax => ⟨?_, ?_⟩, ?_⟩
  · by_contra hpoller
    have hlt := (hs.polling (by simpa using hpoller)).1
    omega
  · by_contra hchild
    have hlt := (hs.trying hchild).1
    omega
  · rintro before between after t rfl hbefore hquiet
    obtain ⟨t', ht', hrest⟩ := run_append_eq_some.mp h
    obtain rfl : t = t' := Option.some_inj.mp (hbefore.symm.trans ht')
    obtain ⟨u, hu, -⟩ := run_append_eq_some.mp hrest
    -- the counter says how many ticks are still to be passed over
    have hticks := (hbounded (fun probe hmem => htimer probe (List.mem_append_left _ hmem)) hbefore).ticks
    have hcount := backoffTicks_run
      (fun probe hmem => htimer probe (List.mem_append_right _ (List.mem_append_left _ hmem))) hquiet hu
    omega

/-- A probe that finds nothing, a tick that is passed over, and a child that exits at once: a failure, and the timer
goes on. -/
theorem timer_retries_bounded_exit :
    let parse : Line → Option JsonVal := fun _ => none
    let up : Upgrade := ⟨none, true, 0⟩
    let as : List Action := [.tick .notYet, .tick .spawned, .tick .spawned, .childExit 0]
    ∃ s, run (step parse (some up)) (.init (some up)) as = some s ∧
      s.upgradeFailures = 1 ∧ s.spawned = 1 ∧ s.poller = true ∧
      (s.upgradeFailures ≤ maxUpgradeFailures ∧ s.spawned ≤ maxUpgradeFailures ∧ s.backoffTicks ≤ up.backoffCap ∧
        (s.upgradeFailures = maxUpgradeFailures → s.poller = false ∧ s.child = none)) ∧
      List.countP Action.isTick [.tick .spawned] ≤ up.backoffCap := by
  intro parse up as
  have hrun : run (step parse (some up)) (.init (some up)) as = some _ := rfl
  have hbounded := timer_retries_bounded hrun (by simp [as])
  obtain ⟨hfailures, hspawned, hticks, hmax, hbetween⟩ := hbounded
  refine ⟨_, hrun, rfl, rfl, rfl, ⟨hfailures, hspawned, hticks, hmax⟩, ?_⟩
  refine hbetween [.tick .notYet] [.tick .spawned] [.tick .spawned, .childExit 0] _ rfl rfl ⟨?_, fun _ _ => trivial⟩
  rintro ⟨-, hzero⟩
  exact absurd hzero (by decide)

end CodeGraph.Plugin.McpStub
