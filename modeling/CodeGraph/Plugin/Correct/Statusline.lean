import CodeGraph.Plugin.Statusline

/-!
# The displaced status line is kept

The registry in force (`Registry.current`) is what the primary file holds, or where it holds nothing what the backup
holds. Every call leaves the `_previous` entry in force as it was (`prev_register`, `prev_unregister`), except the two
that are made for this entry. So the displaced command is kept (`Safe`) from an install on, as long as no teardown drops
the entry and leaves the composite in the slot.
-/

namespace CodeGraph.Plugin.Statusline

open CodeGraph.Lib

variable {live : Command} {r : Registry} {l : List Provider} {c : Command} {id : String} {b : Bool}
  {f : RegistryFaults} {entry : Provider} {out : Outcome} {t t' : Traced}

/-! ### Entries -/

theorem previousOf_cons_of_ne {p : Provider} (h : p.id ≠ "_previous") : previousOf (p :: l) = previousOf l := by
  unfold previousOf
  rw [List.find?_cons_of_neg (by simpa using h)]

theorem previousOf_cons_of_eq {p : Provider} (h : p.id = "_previous") : previousOf (p :: l) = some p.command := by
  unfold previousOf
  rw [List.find?_cons_of_pos (by simpa using h)]
  rfl

/-- Taking out entries other than `_previous`. -/
theorem previousOf_filter {q : Provider → Bool} (h : ∀ p ∈ l, p.id = "_previous" → q p = true) :
    previousOf (l.filter q) = previousOf l := by
  induction l with
  | nil => rfl
  | cons p l ih =>
    have hrest := ih fun p' hp' => h p' (List.mem_cons_of_mem p hp')
    by_cases hp : p.id = "_previous"
    · rw [List.filter_cons_of_pos (h p List.mem_cons_self hp), previousOf_cons_of_eq hp, previousOf_cons_of_eq hp]
    · rw [previousOf_cons_of_ne hp, ← hrest, List.filter_cons]
      split_ifs
      · exact previousOf_cons_of_ne hp
      · rfl

theorem upsert_ne_nil {l' : List Provider} (h : upsert entry l = some l') : l' ≠ [] := by
  cases l with
  | nil =>
    rw [upsert, Option.some_inj] at h
    rw [← h]
    exact List.cons_ne_nil _ _
  | cons p l =>
    rw [upsert] at h
    split_ifs at h
    · rw [← Option.some_inj.mp h]
      exact List.cons_ne_nil _ _
    · obtain ⟨l₁, -, rfl⟩ := Option.map_eq_some_iff.mp h
      exact List.cons_ne_nil _ _

/-- Another entry does not touch `_previous`. -/
theorem previousOf_upsert_of_ne {l' : List Provider} (hid : entry.id ≠ "_previous") (h : upsert entry l = some l') :
    previousOf l' = previousOf l := by
  induction l generalizing l' with
  | nil =>
    rw [upsert, Option.some_inj] at h
    rw [← h, previousOf_cons_of_ne hid]
  | cons p l ih =>
    rw [upsert] at h
    split_ifs at h with hp
    · rw [← Option.some_inj.mp h, previousOf_cons_of_ne hid, previousOf_cons_of_ne (by rwa [hp])]
    · obtain ⟨l₁, hl₁, rfl⟩ := Option.map_eq_some_iff.mp h
      by_cases hprevious : p.id = "_previous"
      · rw [previousOf_cons_of_eq hprevious, previousOf_cons_of_eq hprevious]
      · rw [previousOf_cons_of_ne hprevious, previousOf_cons_of_ne hprevious, ih hl₁]

/-- After the call for `_previous` the command is there, whether it was written or found. -/
theorem previousOf_upsert (hid : entry.id = "_previous") :
    previousOf ((upsert entry l).getD l) = some entry.command := by
  induction l with
  | nil => exact previousOf_cons_of_eq hid
  | cons p l ih =>
    rw [upsert]
    split_ifs with hp hcommand
    · rw [Option.getD_none, previousOf_cons_of_eq (hp.trans hid), hcommand]
    · exact previousOf_cons_of_eq hid
    · have hne : p.id ≠ "_previous" := fun h => hp (h.trans hid.symm)
      cases hupsert : upsert entry l with
      | none =>
        rw [hupsert] at ih
        rw [Option.map_none, Option.getD_none, previousOf_cons_of_ne hne]
        exact ih
      | some l₁ =>
        rw [hupsert] at ih
        rw [Option.map_some, Option.getD_some, previousOf_cons_of_ne hne]
        exact ih

/-! ### The registry in force -/

/-- What the primary holds, or else the backup. -/
def Registry.current (r : Registry) : List Provider := if r.primary.held = [] then r.backup.held else r.primary.held

/-- The `_previous` command in force. -/
def Registry.prev (r : Registry) : Option Command := previousOf r.current

theorem RegistryFile.held_write (l : List Provider) (file : RegistryFile) : (file.write l).held = l := by
  cases file <;> rfl

theorem RegistryFile.held_of_usable {file : RegistryFile} (h : file.unusable = false) : file.held = file.value := by
  cases file with
  | missing => rfl
  | corrupt => rfl
  | unreadable => cases h
  | list => rfl

/-- A written primary is in force. -/
theorem current_write {file backup : RegistryFile} (h : l ≠ []) : (Registry.mk (file.write l) backup).current = l := by
  unfold Registry.current
  dsimp only
  rw [RegistryFile.held_write, if_neg h]

theorem holds_of_prev (h : r.prev = some c) : r.holds c = true := by
  unfold Registry.prev Registry.current at h
  unfold Registry.holds
  rw [Bool.or_eq_true, beq_iff_eq, beq_iff_eq]
  split_ifs at h
  · exact .inr h
  · exact .inl h

/-- The readings that refuse. -/
def Refuses (r : Registry) : Prop := r.primary.unusable = true ∨ r.primary.value = [] ∧ r.backup.unusable = true

/-- The four ways through a reading: the primary is used, it is unusable, the backup stands in, or there is nothing. -/
theorem reading_cases (live : Command) (b : Bool) (r : Registry) :
    (r.primary.value ≠ [] ∧ readRegistryForWrite live b r = ⟨r.primary.value, false, r⟩) ∨
    (r.primary.unusable = true ∧ readRegistryForWrite live b r = ⟨r.backup.value, true, r⟩) ∨
    (∃ healed, healed ≠ [] ∧ r.primary.value = [] ∧ r.primary.unusable = false ∧ r.backup.value ≠ [] ∧
      previousOf healed = previousOf r.backup.value ∧
      readRegistryForWrite live b r =
        ⟨healed, false, if b then r else { r with primary := r.primary.write healed }⟩) ∨
    (r.primary.value = [] ∧ r.primary.unusable = false ∧ previousOf r.backup.value = none ∧
      readRegistryForWrite live b r = ⟨[], r.backup.unusable, r⟩) := by
  unfold readRegistryForWrite
  by_cases hvalue : r.primary.value = []
  · rw [if_neg (not_not_intro hvalue)]
    by_cases hunusable : r.primary.unusable = true
    · rw [if_pos hunusable]
      exact .inr (.inl ⟨hunusable, rfl⟩)
    · rw [if_neg hunusable]
      rw [Bool.not_eq_true] at hunusable
      dsimp only
      have hfilter : previousOf (r.backup.value.filter fun p => p.id ≠ "code-graph" ∨ p.command = live) =
          previousOf r.backup.value := previousOf_filter fun p _ hp => by simp [hp]
      by_cases hhealed : r.backup.value.filter (fun p => p.id ≠ "code-graph" ∨ p.command = live) = []
      · rw [if_neg (not_not_intro hhealed)]
        rw [hhealed] at hfilter
        exact .inr (.inr (.inr ⟨hvalue, hunusable, hfilter.symm, rfl⟩))
      · rw [if_pos hhealed]
        have hbackup : r.backup.value ≠ [] := fun hnil => hhealed (by rw [hnil]; rfl)
        exact .inr (.inr (.inl ⟨_, hhealed, hvalue, hunusable, hbackup, hfilter, rfl⟩))
  · rw [if_pos hvalue]
    exact .inl ⟨hvalue, rfl⟩

theorem RegistryFile.usable_of_value {file : RegistryFile} (h : file.value ≠ []) : file.unusable = false := by
  cases file with
  | missing => rfl
  | corrupt => exact absurd rfl h
  | unreadable => exact absurd rfl h
  | list => rfl

theorem refuse_iff : (readRegistryForWrite live b r).refuse = true ↔ Refuses r := by
  unfold Refuses
  obtain ⟨hvalue, hread⟩ | ⟨hunusable, hread⟩ | ⟨_, -, hvalue, hunusable, hbackup, -, hread⟩ |
    ⟨hvalue, hunusable, -, hread⟩ := reading_cases live b r
  · simp [hread, hvalue, RegistryFile.usable_of_value hvalue]
  · simp [hread, hunusable]
  · simp [hread, hunusable, RegistryFile.usable_of_value hbackup]
  · simp [hread, hvalue, hunusable]

/-- A reading leaves what is in force. -/
theorem prev_files : (readRegistryForWrite live b r).files.prev = r.prev := by
  obtain ⟨-, hread⟩ | ⟨-, hread⟩ | ⟨healed, hne, hvalue, hunusable, hbackup, hprevious, hread⟩ | ⟨-, -, -, hread⟩ :=
    reading_cases live b r
  · rw [hread]
  · rw [hread]
  · rw [hread]
    cases b with
    | true => rfl
    | false =>
      have hempty : r.primary.held = [] := by rw [RegistryFile.held_of_usable hunusable, hvalue]
      have hheld : r.backup.held = r.backup.value := RegistryFile.held_of_usable (RegistryFile.usable_of_value hbackup)
      show previousOf (Registry.mk (r.primary.write healed) r.backup).current = previousOf r.current
      rw [current_write hne, hprevious, ← hheld]
      exact congrArg previousOf (if_pos hempty).symm
  · rw [hread]

/-- Where a reading does not refuse it gives what is in force. -/
theorem prev_registry (h : ¬Refuses r) : previousOf (readRegistryForWrite live b r).registry = r.prev := by
  have hcurrent : r.primary.held = [] → r.prev = previousOf r.backup.held := fun hempty =>
    congrArg previousOf (if_pos hempty)
  obtain ⟨hvalue, hread⟩ | ⟨hunusable, -⟩ | ⟨healed, hne, hvalue, hunusable, hbackup, hprevious, hread⟩ |
    ⟨hvalue, hunusable, hprevious, hread⟩ := reading_cases live b r
  · have hheld := RegistryFile.held_of_usable (RegistryFile.usable_of_value hvalue)
    rw [hread]
    show previousOf r.primary.value = previousOf r.current
    rw [Registry.current, hheld, if_neg hvalue]
  · exact absurd (.inl hunusable) h
  · have hempty : r.primary.held = [] := by rw [RegistryFile.held_of_usable hunusable, hvalue]
    rw [hread, hcurrent hempty, RegistryFile.held_of_usable (RegistryFile.usable_of_value hbackup)]
    exact hprevious
  · have hempty : r.primary.held = [] := by rw [RegistryFile.held_of_usable hunusable, hvalue]
    have husable : r.backup.unusable = false := Bool.eq_false_iff.mpr fun hbackup => h (.inr ⟨hvalue, hbackup⟩)
    rw [hread, hcurrent hempty, RegistryFile.held_of_usable husable]
    exact hprevious.symm

/-- Writing back what was read refuses only where the reading does, and reading again gives the same. -/
theorem refuses_files : Refuses (readRegistryForWrite live b r).files ↔ Refuses r := by
  obtain ⟨-, hread⟩ | ⟨-, hread⟩ | ⟨healed, hne, hvalue, hunusable, hbackup, -, hread⟩ | ⟨-, -, -, hread⟩ :=
    reading_cases live b r
  · rw [hread]
  · rw [hread]
  · rw [hread]
    cases b with
    | true => rfl
    | false =>
      have hbackup' := RegistryFile.usable_of_value hbackup
      refine iff_of_false ?_ ?_
      · unfold Refuses
        revert hvalue hunusable
        cases r.primary <;> simp [RegistryFile.write, RegistryFile.unusable, RegistryFile.value, hne]
      · unfold Refuses
        simp [hunusable, hbackup']
  · rw [hread]

/-- A list with entries is in force once it is written, and a failed write throws. -/
theorem writeRegistry_cases (h : l ≠ []) : (writeRegistry f l r b).1 = r ∧ (writeRegistry f l r b).2 = .threw ∨
    (writeRegistry f l r b).1.prev = previousOf l ∧ (writeRegistry f l r b).2 = .returned b := by
  unfold writeRegistry
  rw [if_neg h]
  cases f.primary with
  | true => exact .inl ⟨rfl, rfl⟩
  | false => exact .inr ⟨congrArg previousOf (current_write h), rfl⟩

/-! ### Calls -/

/-- A call for another entry leaves `_previous`. -/
theorem prev_register (hid : entry.id ≠ "_previous") :
    (registerStatuslineProvider live f entry r).1.prev = r.prev := by
  unfold registerStatuslineProvider
  dsimp only
  by_cases hrefuse : Refuses r
  · rw [if_pos (refuse_iff.mpr hrefuse)]
    exact prev_files
  · rw [if_neg (mt refuse_iff.mp hrefuse)]
    cases hupsert : upsert entry (readRegistryForWrite live f.heal r).registry with
    | none => exact prev_files
    | some l =>
      dsimp only
      rcases writeRegistry_cases (upsert_ne_nil hupsert) with ⟨hsame, -⟩ | ⟨hwritten, -⟩
      · rw [hsame]
        exact prev_files
      · rw [hwritten, previousOf_upsert_of_ne hid hupsert]
        exact prev_registry hrefuse

/-- The call for `_previous`, where it neither refuses nor throws, leaves the command in force. -/
theorem prev_register_previous (hid : entry.id = "_previous") (hrefuse : ¬Refuses r)
    (hout : (registerStatuslineProvider live f entry r).2 ≠ .threw) :
    (registerStatuslineProvider live f entry r).1.prev = some entry.command := by
  unfold registerStatuslineProvider at hout ⊢
  dsimp only at hout ⊢
  rw [if_neg (mt refuse_iff.mp hrefuse)] at hout ⊢
  have hprevious := previousOf_upsert (l := (readRegistryForWrite live f.heal r).registry) hid
  cases hupsert : upsert entry (readRegistryForWrite live f.heal r).registry with
  | none =>
    rw [hupsert, Option.getD_none, prev_registry hrefuse] at hprevious
    dsimp only
    rw [prev_files, hprevious]
  | some l =>
    rw [hupsert] at hprevious hout
    dsimp only at hout ⊢
    rcases writeRegistry_cases (upsert_ne_nil hupsert) with ⟨-, hthrew⟩ | ⟨hwritten, -⟩
    · exact absurd hthrew hout
    · rw [hwritten]
      exact hprevious

theorem register_of_refuses (h : Refuses r) :
    (registerStatuslineProvider live f entry r).1 = (readRegistryForWrite live f.heal r).files ∧
      (registerStatuslineProvider live f entry r).2 = .returned false := by
  unfold registerStatuslineProvider
  dsimp only
  rw [if_pos (refuse_iff.mpr h)]
  exact ⟨rfl, rfl⟩

/-- Taking out another entry leaves `_previous`, where there is one. -/
theorem prev_unregister (hid : id ≠ "_previous") (h : r.prev = some c) :
    (unregisterStatuslineProvider live f id r).1.prev = some c := by
  unfold unregisterStatuslineProvider
  dsimp only
  by_cases hrefuse : Refuses r
  · rw [if_pos (refuse_iff.mpr hrefuse), prev_files, h]
  · rw [if_neg (mt refuse_iff.mp hrefuse)]
    have hfilter : previousOf ((readRegistryForWrite live f.heal r).registry.filter fun p => p.id ≠ id) = some c := by
      rw [previousOf_filter fun p _ hp => by simpa [hp] using hid.symm, prev_registry hrefuse, h]
    split_ifs
    · rw [prev_files, h]
    · have hne : ((readRegistryForWrite live f.heal r).registry.filter fun p => p.id ≠ id) ≠ [] := by
        intro hnil
        rw [hnil] at hfilter
        cases hfilter
      rcases writeRegistry_cases hne with ⟨hsame, -⟩ | ⟨hwritten, -⟩
      · rw [hsame, prev_files, h]
      · rw [hwritten, hfilter]

/-- A call that throws has left everything. -/
theorem prev_unregister_threw (h : (unregisterStatuslineProvider live f id r).2 = .threw) :
    (unregisterStatuslineProvider live f id r).1.prev = r.prev := by
  unfold unregisterStatuslineProvider at h ⊢
  dsimp only at h ⊢
  -- only a write throws
  split_ifs at h ⊢ with hrefuse hsame
  by_cases hnil : ((readRegistryForWrite live f.heal r).registry.filter fun p => p.id ≠ id) = []
  · rw [hnil] at h
    cases h
  · rcases writeRegistry_cases hnil with ⟨heq, -⟩ | ⟨-, hout⟩
    · rw [heq]
      exact prev_files
    · rw [hout] at h
      cases h

/-! ### Detaching -/

section Detach

variable {df : DetachFaults} {doomed oneShot : Bool} {slot : Option Command}

/-- The entries that a reading gives. -/
def entries (live : Command) (r : Registry) : List Provider := (readRegistryForWrite live false r).registry

theorem registry_eq_entries : (readRegistryForWrite live b r).registry = entries live r := by
  unfold entries readRegistryForWrite
  dsimp only
  split_ifs <;> rfl

theorem prev_entries (h : ¬Refuses r) : previousOf (entries live r) = r.prev := prev_registry h

theorem find?_previous (h : previousOf l = some c) (hc : c ≠ "") :
    (l.find? fun p => p.id = "_previous" ∧ p.command ≠ "").map Provider.command = some c := by
  induction l with
  | nil => cases h
  | cons p l ih =>
    by_cases hp : p.id = "_previous"
    · rw [previousOf_cons_of_eq hp, Option.some_inj] at h
      rw [List.find?_cons_of_pos (by simp [hp, h, hc]), Option.map_some, h]
    · rw [previousOf_cons_of_ne hp] at h
      rw [List.find?_cons_of_neg (by simp [hp])]
      exact ih h

/-- What goes into the slot: the first third party where the composite is doomed, or else the previous command. -/
theorem detachedSlot_eq (doomed : Bool) (hours : isOurComposite slot = true) (h : previousOf l = some c) (hc : c ≠ "") :
    thirdParty l = [] ∧ detachedSlot doomed l slot = some c ∧ detachChanges doomed l slot = true ∨
      ∃ first ∈ thirdParty l, detachedSlot doomed l slot = (if doomed then some first.command else slot) ∧
        detachChanges doomed l slot = doomed := by
  unfold detachedSlot detachChanges
  rw [if_pos hours, hours]
  cases hthird : thirdParty l with
  | nil =>
    have hfind := find?_previous h hc
    obtain ⟨p, hp, rfl⟩ := Option.map_eq_some_iff.mp hfind
    rw [hp]
    exact .inl ⟨rfl, rfl, by simp⟩
  | cons first rest =>
    refine .inr ⟨first, List.mem_cons_self, rfl, ?_⟩
    simp

theorem detach_of_refuses (h : Refuses r) : detachStatuslineIntegration live df doomed oneShot slot r =
    if oneShot then
      ⟨(readRegistryForWrite live df.heal r).files, detachedSlot doomed (entries live r) slot,
        .returned (detachChanges doomed (entries live r) slot)⟩
    else ⟨(readRegistryForWrite live df.heal r).files, slot, .returned false⟩ := by
  unfold detachStatuslineIntegration
  dsimp only
  rw [if_pos (refuse_iff.mpr h), registry_eq_entries]

theorem detach_of_not_refuses (live : Command) (df : DetachFaults) (doomed oneShot : Bool) (slot : Option Command)
    (h : ¬Refuses r) : ∃ files out,
      unregisterStatuslineProvider live df.codeGraph "code-graph" (readRegistryForWrite live df.heal r).files =
        (files, out) ∧
      (out = .threw ∧ detachStatuslineIntegration live df doomed oneShot slot r = ⟨files, slot, .threw⟩ ∨
        out ≠ .threw ∧ thirdParty (entries live r) ≠ [] ∧
          detachStatuslineIntegration live df doomed oneShot slot r =
            ⟨files, detachedSlot doomed (entries live r) slot, .returned (detachChanges doomed (entries live r) slot)⟩ ∨
        out ≠ .threw ∧ thirdParty (entries live r) = [] ∧
          (detachStatuslineIntegration live df doomed oneShot slot r).files =
            (unregisterStatuslineProvider live df.previous "_previous" files).1 ∧
          (detachStatuslineIntegration live df doomed oneShot slot r).slot = detachedSlot doomed (entries live r) slot ∧
          (detachStatuslineIntegration live df doomed oneShot slot r).outcome =
            if (unregisterStatuslineProvider live df.previous "_previous" files).2 = .threw then .threw
            else .returned (detachChanges doomed (entries live r) slot)) := by
  unfold detachStatuslineIntegration
  dsimp only
  rw [if_neg (mt refuse_iff.mp h), registry_eq_entries]
  generalize unregisterStatuslineProvider live df.codeGraph "code-graph" _ = called
  obtain ⟨files, out⟩ := called
  refine ⟨files, out, rfl, ?_⟩
  cases out with
  | threw => exact .inl ⟨rfl, rfl⟩
  | returned changed =>
    dsimp only
    -- the previous command is let go only where no third party is left
    by_cases hthird : thirdParty (entries live r) = []
    · refine .inr (.inr ⟨(nomatch ·), hthird, ?_⟩)
      rw [if_pos hthird]
      generalize unregisterStatuslineProvider live df.previous "_previous" files = called
      obtain ⟨files', out'⟩ := called
      cases out' with
      | threw => exact ⟨rfl, rfl, rfl⟩
      | returned => exact ⟨rfl, rfl, rfl⟩
    · refine .inr (.inl ⟨(nomatch ·), hthird, ?_⟩)
      rw [if_neg hthird]

/-- A detach keeps the displaced command where it throws, refuses, or leaves the registry to third parties. -/
theorem prev_detach (h : r.prev = some c)
    (hkeeps : (detachStatuslineIntegration live df doomed oneShot slot r).outcome = .threw ∨ Refuses r ∨
      thirdParty (entries live r) ≠ []) :
    (detachStatuslineIntegration live df doomed oneShot slot r).files.prev = some c := by
  by_cases hrefuse : Refuses r
  · rw [detach_of_refuses hrefuse]
    cases oneShot <;> exact prev_files.trans h
  · obtain ⟨files, out, hcalled, hcases⟩ := detach_of_not_refuses live df doomed oneShot slot hrefuse
    have hfiles : files.prev = some c := by
      have hkept : (unregisterStatuslineProvider live df.codeGraph "code-graph"
          (readRegistryForWrite live df.heal r).files).1.prev = some c :=
        prev_unregister (by decide) (prev_files.trans h)
      rwa [hcalled] at hkept
    rcases hcases with ⟨-, hdetach⟩ | ⟨-, -, hdetach⟩ | ⟨-, hthird, hdetach, -, hout⟩
    · rw [hdetach]
      exact hfiles
    · rw [hdetach]
      exact hfiles
    · rw [hdetach]
      have hthrew : (unregisterStatuslineProvider live df.previous "_previous" files).2 = .threw := by
        rw [hout] at hkeeps
        by_contra hreturned
        rw [if_neg hreturned] at hkeeps
        simp [hrefuse, hthird] at hkeeps
      rw [prev_unregister_threw hthrew]
      exact hfiles

/-- The slot and the outcome of a detach that does not throw. -/
theorem detach_returned (hrefuse : ¬Refuses r ∨ oneShot = true)
    (hout : (detachStatuslineIntegration live df doomed oneShot slot r).outcome ≠ .threw) :
    (detachStatuslineIntegration live df doomed oneShot slot r).slot = detachedSlot doomed (entries live r) slot ∧
      (detachStatuslineIntegration live df doomed oneShot slot r).outcome =
        .returned (detachChanges doomed (entries live r) slot) := by
  by_cases hrefuse' : Refuses r
  · rw [detach_of_refuses hrefuse', if_pos (hrefuse.resolve_left (not_not_intro hrefuse'))]
    exact ⟨rfl, rfl⟩
  · obtain ⟨files, out, -, ⟨-, hdetach⟩ | ⟨-, -, hdetach⟩ | ⟨-, -, -, hslot, hreturned⟩⟩ :=
      detach_of_not_refuses live df doomed oneShot slot hrefuse'
    · rw [hdetach] at hout
      exact absurd rfl hout
    · rw [hdetach]
      exact ⟨rfl, rfl⟩
    · rw [hreturned] at hout ⊢
      split_ifs at hout ⊢
      · exact absurd rfl hout
      · exact ⟨hslot, rfl⟩

/-- No third party has a composite command. -/
def Foreign (l : List Provider) : Prop := ∀ p ∈ thirdParty l, isOurComposite (some p.command) = false

/-- A doomed composite is out of the slot: the displaced command or a third party takes it. -/
theorem detachedSlot_doomed (hours : isOurComposite slot = true) (hc : c ≠ "")
    (h : thirdParty l ≠ [] ∨ previousOf l = some c) :
    (∃ p ∈ thirdParty l, detachedSlot true l slot = some p.command) ∨
      thirdParty l = [] ∧ detachedSlot true l slot = some c := by
  cases hthird : thirdParty l with
  | nil =>
    have hprevious := h.resolve_left (not_not_intro hthird)
    obtain ⟨-, hslot, -⟩ | ⟨first, hfirst, -⟩ := detachedSlot_eq true hours hprevious hc
    · exact .inr ⟨rfl, hslot⟩
    · rw [hthird] at hfirst
      cases hfirst
  | cons first rest =>
    refine .inl ⟨first, List.mem_cons_self, ?_⟩
    unfold detachedSlot
    rw [if_pos hours, hthird]
    rfl

/-- The slot of a detach is the one that it was given, or the one made from the entries. -/
theorem slot_detach (live : Command) (df : DetachFaults) (doomed oneShot : Bool) (slot : Option Command)
    (r : Registry) : (detachStatuslineIntegration live df doomed oneShot slot r).slot = slot ∨
      (¬Refuses r ∨ oneShot = true) ∧
        (detachStatuslineIntegration live df doomed oneShot slot r).slot =
          detachedSlot doomed (entries live r) slot := by
  by_cases hrefuse : Refuses r
  · rw [detach_of_refuses hrefuse]
    cases oneShot with
    | true => exact .inr ⟨.inr rfl, rfl⟩
    | false => exact .inl rfl
  · obtain ⟨files, out, -, ⟨-, hdetach⟩ | ⟨-, -, hdetach⟩ | ⟨-, -, -, hslot, -⟩⟩ :=
      detach_of_not_refuses live df doomed oneShot slot hrefuse
    · rw [hdetach]
      exact .inl rfl
    · rw [hdetach]
      exact .inr ⟨.inl hrefuse, rfl⟩
    · exact .inr ⟨.inl hrefuse, hslot⟩

end Detach

/-- A reading does not change what the next one gives. -/
theorem entries_files : entries live (readRegistryForWrite live b r).files = entries live r := by
  obtain ⟨-, hread⟩ | ⟨-, hread⟩ | ⟨healed, hne, hvalue, hunusable, hbackup, -, hread⟩ | ⟨-, -, -, hread⟩ :=
    reading_cases live b r
  · rw [hread]
  · rw [hread]
  · cases b with
    | true => rw [hread]; rfl
    | false =>
      have hentries : entries live r = healed := by rw [← registry_eq_entries (b := false), hread]
      rw [hread, hentries]
      unfold entries readRegistryForWrite
      have hwritten : (r.primary.write healed).value = healed := by
        revert hunusable
        cases r.primary <;> simp [RegistryFile.unusable, RegistryFile.write, RegistryFile.value]
      dsimp only
      rw [if_neg Bool.false_ne_true, hwritten, if_pos hne]
  · rw [hread]

theorem backup_files : (readRegistryForWrite live b r).files.backup = r.backup := by
  obtain ⟨-, hread⟩ | ⟨-, hread⟩ | ⟨_, -, -, -, -, -, hread⟩ | ⟨-, -, -, hread⟩ := reading_cases live b r
  · rw [hread]
  · rw [hread]
  · rw [hread]
    cases b <;> rfl
  · rw [hread]

/-- Taking out another entry leaves `_previous` in the backup too. -/
theorem backup_unregister (hid : id ≠ "_previous") (h : r.prev = some c)
    (hbackup : previousOf r.backup.held = some c) :
    previousOf (unregisterStatuslineProvider live f id r).1.backup.held = some c := by
  unfold unregisterStatuslineProvider
  dsimp only
  by_cases hrefuse : Refuses r
  · rw [if_pos (refuse_iff.mpr hrefuse), backup_files, hbackup]
  · rw [if_neg (mt refuse_iff.mp hrefuse)]
    have hfilter : previousOf ((readRegistryForWrite live f.heal r).registry.filter fun p => p.id ≠ id) = some c := by
      rw [previousOf_filter fun p _ hp => by simpa [hp] using hid.symm, prev_registry hrefuse, h]
    split_ifs
    · rw [backup_files, hbackup]
    · have hne : ((readRegistryForWrite live f.heal r).registry.filter fun p => p.id ≠ id) ≠ [] := by
        intro hnil
        rw [hnil] at hfilter
        cases hfilter
      unfold writeRegistry
      rw [if_neg hne]
      split_ifs
      · rw [backup_files, hbackup]
      · dsimp only
        rw [backup_files, hbackup]
      · dsimp only
        rw [RegistryFile.held_write, hfilter]

/-- So does a detach that leaves the registry to third parties. -/
theorem backup_detach {df : DetachFaults} {doomed oneShot : Bool} {slot : Option Command} (h : r.prev = some c)
    (hbackup : previousOf r.backup.held = some c) (hkeeps : Refuses r ∨ thirdParty (entries live r) ≠ []) :
    previousOf (detachStatuslineIntegration live df doomed oneShot slot r).files.backup.held = some c := by
  by_cases hrefuse : Refuses r
  · rw [detach_of_refuses hrefuse]
    cases oneShot <;> exact (congrArg (previousOf ·.held) backup_files).trans hbackup
  · obtain ⟨files, out, hcalled, hcases⟩ := detach_of_not_refuses live df doomed oneShot slot hrefuse
    have hfiles : previousOf files.backup.held = some c := by
      have hkept : previousOf (unregisterStatuslineProvider live df.codeGraph "code-graph"
          (readRegistryForWrite live df.heal r).files).1.backup.held = some c :=
        backup_unregister (by decide) (prev_files.trans h) (by rw [backup_files, hbackup])
      rwa [hcalled] at hkept
    rcases hcases with ⟨-, hdetach⟩ | ⟨-, -, hdetach⟩ | ⟨-, hthird, -⟩
    · rw [hdetach]
      exact hfiles
    · rw [hdetach]
      exact hfiles
    · exact absurd hthird (hkeeps.resolve_left hrefuse)

/-! ### What a step keeps -/

/-- Where an install has displaced a command, and the composite is in the slot, the registry in force has it. -/
structure Safe (t : Traced) : Prop where
  prev : isOurComposite t.state.slot = true → t.lost = false → ∀ c, t.displaced = some c →
    t.state.registry.prev = some c
  foreign : ∀ c, t.displaced = some c → isOurComposite (some c) = false ∧ c ≠ ""

/-- What a step needs.

* An install that takes the slot from a command finds a usable registry, or the command in it.
* A teardown that finds the composite in the slot, and a displaced command, can write the settings and gives the slot to
  no composite. Otherwise the entry stays in the registry (it is not usable, or third parties are in it), and where the
  cache goes the backup has it.
* An uninstall that has to write the settings reads the command, or a third party. -/
def Careful (t : Traced) : Action → Prop
  | .install _ o f =>
    isOurComposite t.state.slot = false → countDisplaced o.reclaimStatusline t.state.slot t.state.manifest ≤ 2 →
      f.settings = false → ∀ c, currentCmd t.state.slot = some c → Refuses t.state.registry →
        t.state.registry.prev = some c
  | .cleanup surface td f =>
    isOurComposite t.state.slot = true → t.lost = false → ∀ c, t.displaced = some c →
      let r := t.state.registry
      let l := entries surface.segment r
      (td.disabled = true → f.written = true ∨ Refuses r ∨ thirdParty l ≠ []) ∧
      (td.disabled = false → td.installedRecord = some false →
        ¬Refuses r ∧ f.written = true ∧ Foreign l ∨
        (Refuses r ∨ thirdParty l ≠ []) ∧
          (f.cache = true ∨ ¬Refuses r ∧ f.preserve = true ∨ previousOf r.backup.held = some c))
  | .uninstall surface _ f =>
    isOurComposite t.state.slot = true → t.lost = false → ∀ c, t.displaced = some c →
      let r := t.state.registry
      let l := entries surface.segment r
      f.written = true ∧ Foreign l ∧ (thirdParty l ≠ [] ∨ previousOf l = some c) ∨
        (f.written = false ∧ Refuses r ∨ thirdParty l ≠ []) ∧ (f.cache = true ∨ previousOf r.backup.held = some c)
  | _ => True

theorem prev_of_primary_empty (h : r.primary.held = []) : r.prev = previousOf r.backup.held :=
  congrArg previousOf (if_pos h)

theorem prev_of_primary (h : previousOf r.primary.held = some c) : r.prev = some c := by
  have hne : r.primary.held ≠ [] := fun hnil => by
    rw [hnil] at h
    cases h
  exact (congrArg previousOf (if_neg hne)).trans h

theorem currentCmd_eq_some {slot : Option Command} : currentCmd slot = some c ↔ slot = some c ∧ c ≠ "" := by
  unfold currentCmd
  rw [Option.filter_eq_some_iff]
  simp

section Install

variable {surface : Surface} {o : InstallOptions} {inf : InstallFaults} {s : State}

theorem codeGraph_ne : "code-graph" ≠ "_previous" := by decide

theorem registry_finish (changed : Bool) (slot : Option Command) (m : Manifest) (files : Registry) :
    (finish inf changed slot m files s).registry = files := by
  unfold finish
  split_ifs <;> rfl

/-- Where the slot is ours, an install leaves `_previous`. -/
theorem prev_install_of_ours (h : isOurComposite s.slot = true) :
    (install surface o inf s).registry.prev = s.registry.prev := by
  have hclaim : (claimSlot surface o inf s).files = s.registry ∧
      (claimSlot surface o inf s).outcome = .returned true := by
    unfold claimSlot
    rw [if_pos h]
    exact ⟨rfl, rfl⟩
  have hkept : (registerStatuslineProvider surface.segment inf.codeGraph ⟨"code-graph", surface.segment, false⟩
      s.registry).1.prev = s.registry.prev := prev_register codeGraph_ne
  unfold install
  dsimp only
  rw [hclaim.1, hclaim.2, if_neg (nomatch ·)]
  split
  case h_1 files hcalled =>
    rw [hcalled] at hkept
    exact hkept
  case h_2 files _ hcalled =>
    rw [hcalled] at hkept
    rw [registry_finish]
    exact hkept

/-- What an install did that took the slot: it did not stand down, saved the command that was there, and wrote the
settings. -/
theorem install_takes (hbefore : isOurComposite s.slot = false)
    (hafter : isOurComposite (install surface o inf s).slot = true) :
    countDisplaced o.reclaimStatusline s.slot s.manifest ≤ 2 ∧ inf.settings = false ∧
      ∀ c, currentCmd s.slot = some c →
        (registerStatuslineProvider surface.segment inf.previous ⟨"_previous", c, true⟩ s.registry).2 ≠ .threw ∧
        (install surface o inf s).registry.prev =
          (registerStatuslineProvider surface.segment inf.previous ⟨"_previous", c, true⟩ s.registry).1.prev := by
  have hstays : ¬isOurComposite s.slot = true := Bool.eq_false_iff.mp hbefore
  unfold install at hafter ⊢
  dsimp only at hafter ⊢
  by_cases hstand : 2 < countDisplaced o.reclaimStatusline s.slot s.manifest
  · -- standing down leaves the slot, whatever becomes of the rest
    exfalso
    have hclaim : (claimSlot surface o inf s).slot = s.slot := by
      unfold claimSlot
      rw [if_neg (by rw [hbefore]; exact Bool.false_ne_true)]
      dsimp only
      rw [if_pos hstand]
    revert hafter
    rw [hclaim]
    split_ifs
    · exact hstays
    · split
      · exact hstays
      · unfold finish
        split_ifs <;> exact hstays
  · have hclaim : ∃ saved : Registry × Outcome, (∀ c, currentCmd s.slot = some c → saved =
        registerStatuslineProvider surface.segment inf.previous ⟨"_previous", c, true⟩ s.registry) ∧
        (claimSlot surface o inf s).files = saved.1 ∧ (claimSlot surface o inf s).outcome = saved.2 ∧
        (claimSlot surface o inf s).settingsChanged = true := by
      unfold claimSlot
      rw [if_neg hstays]
      dsimp only
      rw [if_neg hstand]
      refine ⟨_, fun c hc => ?_, rfl, rfl, rfl⟩
      rw [hc]
    obtain ⟨saved, hsaved, hfiles, hout, hchanged⟩ := hclaim
    rw [hfiles, hout, hchanged] at hafter ⊢
    by_cases hthrew : saved.2 = .threw
    · rw [if_pos hthrew] at hafter
      exact absurd hafter hstays
    · rw [if_neg hthrew] at hafter ⊢
      have hkept : (registerStatuslineProvider surface.segment inf.codeGraph ⟨"code-graph", surface.segment, false⟩
          saved.1).1.prev = saved.1.prev := prev_register codeGraph_ne
      generalize registerStatuslineProvider surface.segment inf.codeGraph _ saved.1 = called at hafter hkept ⊢
      obtain ⟨files, out⟩ := called
      cases out with
      | threw => exact absurd hafter hstays
      | returned changed =>
        dsimp only at hafter hkept ⊢
        have hsettings : inf.settings = false := by
          unfold finish at hafter
          cases hfails : inf.settings with
          | false => rfl
          | true =>
            rw [hfails, if_pos ⟨rfl, rfl⟩] at hafter
            exact absurd hafter hstays
        refine ⟨not_lt.mp hstand, hsettings, fun c hc => ?_⟩
        rw [← hsaved c hc, registry_finish]
        exact ⟨hthrew, hkept⟩

theorem Safe.install (h : Safe t) (hc : Careful t (.install surface o inf)) :
    Safe (t.installed (install surface o inf t.state)) := by
  unfold Traced.installed
  by_cases hours : isOurComposite t.state.slot = true
  · have hnot : ¬(isOurComposite t.state.slot = false ∧
        isOurComposite (Statusline.install surface o inf t.state).slot = true) :=
      fun hboth => Bool.false_ne_true (hboth.1 ▸ hours)
    rw [if_neg hnot]
    refine ⟨fun _ hlost c hcommand => ?_, h.foreign⟩
    exact (prev_install_of_ours hours).trans (h.prev hours hlost c hcommand)
  · rw [Bool.not_eq_true] at hours
    by_cases hafter : isOurComposite (Statusline.install surface o inf t.state).slot = true
    · -- the install takes the slot
      rw [if_pos ⟨hours, hafter⟩]
      obtain ⟨hstand, hsettings, hsaved⟩ := install_takes hours hafter
      refine ⟨fun _ _ c hcommand => ?_, fun c hcommand => ?_⟩
      · obtain ⟨hreturned, hregistry⟩ := hsaved c hcommand
        show (Statusline.install surface o inf t.state).registry.prev = some c
        rw [hregistry]
        by_cases hrefuse : Refuses t.state.registry
        · rw [(register_of_refuses hrefuse).1, prev_files]
          exact hc hours hstand hsettings c hcommand hrefuse
        · exact prev_register_previous rfl hrefuse hreturned
      · obtain ⟨hslot, hne⟩ := currentCmd_eq_some.mp hcommand
        exact ⟨hslot ▸ hours, hne⟩
    · rw [if_neg fun hboth => hafter hboth.2]
      exact ⟨fun hours' => absurd hours' hafter, h.foreign⟩

theorem Safe.update (h : Safe t) : Safe { t with state := update surface o inf t.state } := by
  have hkept : (registerStatuslineProvider surface.segment inf.codeGraph ⟨"code-graph", surface.segment, false⟩
      t.state.registry).1.prev = t.state.registry.prev := prev_register codeGraph_ne
  refine ⟨fun hours hlost c hcommand => ?_, h.foreign⟩
  have hbefore : isOurComposite t.state.slot = true ∧
      (Statusline.update surface o inf t.state).registry.prev = t.state.registry.prev := by
    revert hours
    dsimp only
    unfold Statusline.update
    dsimp only
    generalize registerStatuslineProvider surface.segment inf.codeGraph _ t.state.registry = called at hkept ⊢
    obtain ⟨files, out⟩ := called
    cases out with
    | threw => exact fun hours => ⟨hours, hkept⟩
    | returned changed =>
      dsimp only at hkept ⊢
      rw [registry_finish]
      intro hours
      refine ⟨?_, hkept⟩
      unfold finish at hours
      by_contra hnot
      rw [Bool.not_eq_true] at hnot
      simp only [hnot, Bool.false_eq_true, false_and, decide_false, if_false, Bool.false_or] at hours
      split_ifs at hours <;> exact Bool.false_ne_true (hnot.symm.trans hours)
  exact hbefore.2.trans (h.prev hbefore.1 hlost c hcommand)

end Install

/-! ### Teardowns -/

section Teardown

variable {surface : Surface} {td : Teardown} {tf : TeardownFaults} {s : State} {d : Detached}

theorem prev_isPluginInactive : (isPluginInactive live b td s.slot r).2.prev = r.prev := by
  unfold isPluginInactive
  split_ifs
  · rfl
  · exact prev_files

theorem registry_writeDetached : (writeDetached tf td d s).registry = d.files := by
  unfold writeDetached
  split <;> rfl

/-- The slot after the write: the one of the detach, where it returned and the settings could be written. -/
theorem slot_writeDetached_cases : (writeDetached tf td d s).slot = s.slot ∨
    (writeDetached tf td d s).slot = d.slot ∧ d.outcome ≠ .threw ∧ tf.written = true := by
  unfold writeDetached
  cases hout : d.outcome with
  | threw => exact .inl rfl
  | returned changed =>
    dsimp only
    split_ifs with hwrites
    · rw [Bool.and_eq_true] at hwrites
      exact .inr ⟨rfl, (nomatch ·), hwrites.2⟩
    · exact .inl rfl

/-- A slot that changes is written, where the settings can be. -/
theorem slot_writeDetached_of_changed (h : d.outcome = .returned true) (hwritten : tf.written = true) :
    (writeDetached tf td d s).slot = d.slot := by
  unfold writeDetached
  rw [h]
  dsimp only
  rw [hwritten, Bool.true_or, Bool.and_self, if_pos rfl]

theorem slot_writeDetached_of_same (h : d.slot = s.slot) : (writeDetached tf td d s).slot = s.slot := by
  unfold writeDetached
  split
  · rfl
  · dsimp only
    rw [h, ite_self]

theorem slot_removeCacheResidue : (removeCacheResidue b s).slot = s.slot := by
  unfold removeCacheResidue
  split_ifs <;> rfl

/-- Without the cache the backup is in force. -/
theorem prev_removeCacheResidue (h : s.registry.prev = some c)
    (hbackup : b = false → previousOf s.registry.backup.held = some c) :
    (removeCacheResidue b s).registry.prev = some c := by
  unfold removeCacheResidue
  split_ifs with hfails
  · exact h
  · exact (prev_of_primary_empty rfl).trans (hbackup (Bool.eq_false_iff.mpr hfails))

/-- Entries and refusal are the same where the plugin was asked whether it is active. -/
theorem isPluginInactive_files : Refuses (isPluginInactive live b td s.slot r).2 ↔ Refuses r := by
  unfold isPluginInactive
  split_ifs
  · rfl
  · exact refuses_files

theorem entries_isPluginInactive : entries live (isPluginInactive live b td s.slot r).2 = entries live r := by
  unfold isPluginInactive
  split_ifs
  · rfl
  · exact entries_files

theorem backup_isPluginInactive : (isPluginInactive live b td s.slot r).2.backup = r.backup := by
  unfold isPluginInactive
  split_ifs
  · rfl
  · exact backup_files

theorem isPluginInactive_of_ours (hours : isOurComposite s.slot = true) (hdisabled : td.disabled = false) :
    (isPluginInactive live b td s.slot r).1 = (td.installedRecord == some false) := by
  unfold isPluginInactive
  rw [hdisabled, if_neg Bool.false_ne_true]
  dsimp only
  rw [hours, Bool.true_or, Bool.true_and]

theorem detachChanges_doomed (hours : isOurComposite s.slot = true) : detachChanges true l s.slot = true := by
  unfold detachChanges
  rw [hours]
  rfl

theorem slot_detach_of_not_ours {df : DetachFaults} {doomed oneShot : Bool} (hours : isOurComposite s.slot = false) :
    (detachStatuslineIntegration live df doomed oneShot s.slot r).slot = s.slot := by
  obtain hslot | ⟨-, hslot⟩ := slot_detach live df doomed oneShot s.slot r
  · exact hslot
  · rw [hslot]
    exact if_neg (Bool.eq_false_iff.mp hours)

section Detached

variable {doomed oneShot : Bool}

/-- A teardown that does not doom the composite, up to the write of the settings: the command is in the registry where
the composite is in the slot. -/
theorem prev_writeDetached (hours : isOurComposite s.slot = true) (hprev : r.prev = some c)
    (hc : isOurComposite (some c) = false ∧ c ≠ "")
    (hcase : tf.written = true ∨ Refuses r ∨ thirdParty (entries live r) ≠ [])
    (hafter : isOurComposite (writeDetached tf td
      (detachStatuslineIntegration live tf.detach doomed oneShot s.slot r) s).slot = true) :
    (detachStatuslineIntegration live tf.detach doomed oneShot s.slot r).files.prev = some c := by
  by_cases hkeeps : (detachStatuslineIntegration live tf.detach doomed oneShot s.slot r).outcome = .threw ∨ Refuses r ∨
      thirdParty (entries live r) ≠ []
  · exact prev_detach hprev hkeeps
  · -- the entry goes, and the command goes into the slot
    exfalso
    push Not at hkeeps
    obtain ⟨hreturned, hrefuse, hthird⟩ := hkeeps
    obtain ⟨hslot, hout⟩ := detach_returned (.inl hrefuse) hreturned
    have hread : previousOf (entries live r) = some c := (prev_registry hrefuse).trans hprev
    obtain ⟨-, heq, hchanges⟩ | ⟨first, hfirst, -⟩ := detachedSlot_eq doomed hours hread hc.2
    · rw [hchanges] at hout
      have hwritten : tf.written = true := (hcase.resolve_right fun h => h.elim hrefuse fun hne => hne hthird)
      rw [slot_writeDetached_of_changed hout hwritten, hslot, heq, hc.1] at hafter
      cases hafter
    · rw [hthird] at hfirst
      cases hfirst

/-- A teardown that can write the settings leaves no composite in the slot, unless it throws. -/
theorem not_ours_of_doomed (hours : isOurComposite s.slot = true) (hc : isOurComposite (some c) = false ∧ c ≠ "")
    (hwritten : tf.written = true) (hforeign : Foreign (entries live r))
    (hread : thirdParty (entries live r) ≠ [] ∨ previousOf (entries live r) = some c)
    (hrefuse : ¬Refuses r ∨ oneShot = true)
    (hout : (detachStatuslineIntegration live tf.detach true oneShot s.slot r).outcome ≠ .threw) :
    isOurComposite (writeDetached tf td
      (detachStatuslineIntegration live tf.detach true oneShot s.slot r) s).slot = false := by
  obtain ⟨hslot, hreturned⟩ := detach_returned hrefuse hout
  rw [detachChanges_doomed hours] at hreturned
  rw [slot_writeDetached_of_changed hreturned hwritten, hslot]
  obtain ⟨p, hp, hgiven⟩ | ⟨-, hgiven⟩ := detachedSlot_doomed hours hc.2 hread
  · rw [hgiven]
    exact hforeign p hp
  · rw [hgiven]
    exact hc.1

/-- The composite gives the slot to the displaced command, or to a third party. -/
theorem given_back (hours : isOurComposite s.slot = true) (hc : c ≠ "")
    (hread : ¬Refuses r ∨ oneShot = true →
      thirdParty (entries live r) ≠ [] ∨ previousOf (entries live r) = some c)
    (hafter : isOurComposite (writeDetached tf td
      (detachStatuslineIntegration live tf.detach doomed oneShot s.slot r) s).slot = false) :
    (writeDetached tf td (detachStatuslineIntegration live tf.detach doomed oneShot s.slot r) s).slot = some c ∨
      ∃ p ∈ thirdParty (entries live r), (writeDetached tf td
        (detachStatuslineIntegration live tf.detach doomed oneShot s.slot r) s).slot = some p.command := by
  have hchanged : (writeDetached tf td (detachStatuslineIntegration live tf.detach doomed oneShot s.slot r) s).slot ≠
      s.slot := fun hsame => by
    rw [hsame, hours] at hafter
    cases hafter
  obtain ⟨hslot, -⟩ := slot_writeDetached_cases.resolve_left hchanged
  rw [hslot] at hchanged ⊢
  obtain ⟨hreads, hdetached⟩ := (slot_detach live tf.detach doomed oneShot s.slot r).resolve_left hchanged
  rw [hdetached] at hchanged ⊢
  cases doomed with
  | true =>
    obtain hgiven | ⟨-, hgiven⟩ := detachedSlot_doomed hours hc (hread hreads)
    · exact .inr hgiven
    · exact .inl hgiven
  | false =>
    rcases hread hreads with hthird | hprevious
    · -- third parties keep a composite that stays on disk
      refine absurd ?_ hchanged
      unfold detachedSlot
      rw [if_pos hours]
      cases hcases : thirdParty (entries live r) with
      | nil => exact absurd hcases hthird
      | cons => rfl
    · obtain ⟨-, hgiven, -⟩ | ⟨first, -, hgiven, -⟩ := detachedSlot_eq false hours hprevious hc
      · exact .inl hgiven
      · exact absurd hgiven hchanged

end Detached

/-- The slot that an uninstall leaves. -/
theorem slot_uninstall : (uninstall surface td tf s).slot = (writeDetached tf td
    (detachStatuslineIntegration surface.segment tf.detach true true s.slot s.registry) s).slot := by
  unfold uninstall
  dsimp only
  split_ifs
  · exact slot_removeCacheResidue
  · rfl

/-- The registry that a cleanup detaches from. -/
def cleanupRegistry (surface : Surface) (td : Teardown) (tf : TeardownFaults) (s : State) : Registry :=
  (isPluginUninstalled surface.segment tf.uninstalled td s.slot
    (isPluginInactive surface.segment tf.inactive td s.slot s.registry).2).2

/-- A cleanup with the composite in the slot: the plugin is off, or gone, or neither. -/
theorem cleanup_cases (hours : isOurComposite s.slot = true) :
    (td.disabled = true ∧ cleanupRegistry surface td tf s = s.registry ∧
      cleanupDisabledStatusline surface td tf s = writeDetached tf td
        (detachStatuslineIntegration surface.segment tf.detach false false s.slot s.registry) s) ∨
    (td.disabled = false ∧ td.installedRecord = some false ∧
      ∃ d, d = detachStatuslineIntegration surface.segment tf.detach true false s.slot
          (cleanupRegistry surface td tf s) ∧
        cleanupDisabledStatusline surface td tf s =
          if d.outcome ≠ .threw ∧ ¬(tf.preserve = true ∧ (d.outcome = .returned true ∨ td.otherChanges = true)) then
            removeCacheResidue tf.cache (writeDetached tf td d s)
          else writeDetached tf td d s) ∨
    (cleanupDisabledStatusline surface td tf s).slot = s.slot ∧
      (cleanupDisabledStatusline surface td tf s).registry.prev = s.registry.prev := by
  unfold cleanupDisabledStatusline cleanupRegistry
  cases hdisabled : td.disabled with
  | true =>
    -- a plugin that is disabled is inactive whatever its record says
    have hinactive : ∀ b, isPluginInactive surface.segment b td s.slot s.registry = (true, s.registry) := fun b => by
      unfold isPluginInactive
      rw [if_pos hdisabled]
    have huninstalled : ∀ b, isPluginUninstalled surface.segment b td s.slot s.registry = (false, s.registry) :=
      fun b => by
        unfold isPluginUninstalled
        rw [if_pos hdisabled]
    refine .inl ⟨rfl, ?_⟩
    dsimp only
    rw [hinactive]
    dsimp only
    rw [huninstalled]
    simp only [not_true_eq_false, if_false, Bool.false_eq_true, and_false, false_and, true_and]
  | false =>
    have huninstalled : ∀ b r, isPluginUninstalled surface.segment b td s.slot r =
        isPluginInactive surface.segment b td s.slot r := fun b r => by
      unfold isPluginUninstalled
      rw [hdisabled, if_neg Bool.false_ne_true]
    dsimp only
    rw [huninstalled]
    simp only [isPluginInactive_of_ours hours hdisabled]
    -- an enabled plugin is inactive just where its record is gone
    by_cases hrecord : td.installedRecord = some false
    · refine .inr (.inl ⟨trivial, hrecord, _, rfl, ?_⟩)
      simp only [hrecord, beq_self_eq_true, not_true_eq_false, if_false, true_and, decide_eq_true_eq]
    · refine .inr (.inr ?_)
      have hactive : (td.installedRecord == some false) = false := beq_eq_false_iff_ne.mpr hrecord
      simp only [hactive, Bool.false_eq_true, not_false_eq_true, if_true]
      exact ⟨trivial, prev_isPluginInactive⟩

theorem cleanup_of_not_ours (hours : isOurComposite s.slot = false) :
    (cleanupDisabledStatusline surface td tf s).slot = s.slot := by
  unfold cleanupDisabledStatusline
  dsimp only
  split_ifs
  · rw [slot_removeCacheResidue]
    exact slot_writeDetached_of_same (slot_detach_of_not_ours hours)
  · exact slot_writeDetached_of_same (slot_detach_of_not_ours hours)
  · rfl

/-- Asking whether the plugin is active leaves the entry, what a reading gives, whether it refuses, and the backup. -/
theorem cleanupRegistry_same : (cleanupRegistry surface td tf s).prev = s.registry.prev ∧
    entries surface.segment (cleanupRegistry surface td tf s) = entries surface.segment s.registry ∧
    (Refuses (cleanupRegistry surface td tf s) ↔ Refuses s.registry) ∧
    (cleanupRegistry surface td tf s).backup = s.registry.backup := by
  unfold cleanupRegistry isPluginUninstalled
  split_ifs
  · exact ⟨prev_isPluginInactive, entries_isPluginInactive, isPluginInactive_files, backup_isPluginInactive⟩
  · exact ⟨prev_isPluginInactive.trans prev_isPluginInactive, entries_isPluginInactive.trans entries_isPluginInactive,
      isPluginInactive_files.trans isPluginInactive_files, backup_isPluginInactive.trans backup_isPluginInactive⟩

theorem Safe.uninstall (h : Safe t) (hcareful : Careful t (.uninstall surface td tf)) :
    Safe { t with state := uninstall surface td tf t.state } := by
  refine ⟨fun hafter hlost c hcommand => ?_, h.foreign⟩
  have hc := h.foreign c hcommand
  dsimp only at hafter ⊢
  rw [slot_uninstall] at hafter
  have hours : isOurComposite t.state.slot = true := by
    by_contra hnot
    rw [Bool.not_eq_true] at hnot
    rw [slot_writeDetached_of_same (slot_detach_of_not_ours hnot), hnot] at hafter
    cases hafter
  have hprev := h.prev hours hlost c hcommand
  unfold Statusline.uninstall
  dsimp only
  by_cases hout : (detachStatuslineIntegration surface.segment tf.detach true true t.state.slot
      t.state.registry).outcome = .threw
  · rw [if_neg (not_not_intro hout), registry_writeDetached]
    exact prev_detach hprev (.inl hout)
  · rw [if_pos hout]
    rcases hcareful hours hlost c hcommand with ⟨hwritten, hforeign, hread⟩ | ⟨hstays, hcache⟩
    · rw [not_ours_of_doomed hours hc hwritten hforeign hread (.inr rfl) hout] at hafter
      cases hafter
    · have hkeeps : Refuses t.state.registry ∨ thirdParty (entries surface.segment t.state.registry) ≠ [] :=
        hstays.imp_left And.right
      refine prev_removeCacheResidue ?_ fun hgoes => ?_
      · rw [registry_writeDetached]
        exact prev_detach hprev (.inr hkeeps)
      · rw [registry_writeDetached]
        exact backup_detach hprev (hcache.resolve_left (Bool.eq_false_iff.mp hgoes)) hkeeps

theorem Safe.cleanup (h : Safe t) (hcareful : Careful t (.cleanup surface td tf)) :
    Safe { t with state := cleanupDisabledStatusline surface td tf t.state } := by
  refine ⟨fun hafter hlost c hcommand => ?_, h.foreign⟩
  have hc := h.foreign c hcommand
  dsimp only at hafter ⊢
  have hours : isOurComposite t.state.slot = true := by
    by_contra hnot
    rw [Bool.not_eq_true] at hnot
    rw [cleanup_of_not_ours hnot, hnot] at hafter
    cases hafter
  have hprev := h.prev hours hlost c hcommand
  obtain ⟨hoff, hgone⟩ := hcareful hours hlost c hcommand
  obtain ⟨hdisabled, -, hcleanup⟩ | ⟨hdisabled, hrecord, d, hd, hcleanup⟩ | ⟨-, hsame⟩ := cleanup_cases hours
  · rw [hcleanup] at hafter ⊢
    rw [registry_writeDetached]
    exact prev_writeDetached hours hprev hc (hoff hdisabled) hafter
  · obtain ⟨hprev', hentries, hrefuses, hbackup⟩ :=
      @cleanupRegistry_same surface td tf t.state
    generalize cleanupRegistry surface td tf t.state = r at *
    by_cases hout : d.outcome = .threw
    · rw [hcleanup, if_neg fun hboth => hboth.1 hout, registry_writeDetached, hd]
      exact prev_detach (hprev'.trans hprev) (.inl (hd ▸ hout))
    · rcases hgone hdisabled hrecord with ⟨hrefuse, hwritten, hforeign⟩ | ⟨hstays, hcache⟩
      · -- the slot goes to another command
        exfalso
        have hread : previousOf (entries surface.segment r) = some c := by
          rw [prev_entries (mt hrefuses.mp hrefuse), hprev', hprev]
        have hnot : isOurComposite (writeDetached tf td d t.state).slot = false := by
          rw [hd]
          exact not_ours_of_doomed hours hc hwritten (hentries ▸ hforeign) (.inr hread) (.inl (mt hrefuses.mp hrefuse))
            (hd ▸ hout)
        rw [hcleanup] at hafter
        split_ifs at hafter
        · rw [slot_removeCacheResidue, hnot] at hafter
          cases hafter
        · rw [hnot] at hafter
          cases hafter
      · rw [← hrefuses, ← hentries] at hstays
        have hprev₁ : (writeDetached tf td d t.state).registry.prev = some c := by
          rw [registry_writeDetached, hd]
          exact prev_detach (hprev'.trans hprev) (.inr hstays)
        rw [hcleanup]
        split_ifs with hgoes
        · refine prev_removeCacheResidue hprev₁ fun hremoved => ?_
          rw [registry_writeDetached, hd]
          refine backup_detach (hprev'.trans hprev) ?_ hstays
          rw [hbackup]
          refine (hcache.resolve_left (Bool.eq_false_iff.mp hremoved)).resolve_left fun hpreserved => ?_
          -- the copy fails where the slot changes, and the cleanup returns
          obtain ⟨-, hreturned⟩ := detach_returned (.inl (mt hrefuses.mp hpreserved.1)) (hd ▸ hout)
          rw [detachChanges_doomed hours, ← hd] at hreturned
          exact hgoes.2 ⟨hpreserved.2, .inl hreturned⟩
        · exact hprev₁
  · exact hsame.trans hprev

end Teardown

/-! ### Outside steps -/

/-- An outside step that leaves a copy of the command leaves it in force, where it leaves the primary or empties it. -/
theorem Safe.outside (h : Safe t) (r : Registry)
    (hr : ∀ c, t.state.registry.prev = some c → r.holds c = true → r.prev = some c) : Safe (t.outside r) := by
  refine ⟨fun hours hlost c hcommand => ?_, h.foreign⟩
  have hcommand' : t.displaced = some c := hcommand
  obtain ⟨hbefore, hkept⟩ := Bool.or_eq_false_iff.mp (show (t.lost || t.displaced.any fun command =>
    t.state.registry.holds command && !r.holds command) = false from hlost)
  have hprev := h.prev hours hbefore c hcommand'
  rw [hcommand', Option.any_some, holds_of_prev hprev, Bool.true_and, Bool.not_eq_false'] at hkept
  exact hr c hprev hkept

theorem prev_of_held {r r' : Registry} (hprimary : r'.primary.held = r.primary.held)
    (hbackup : r'.backup.held = r.backup.held) : r'.prev = r.prev := by
  unfold Registry.prev Registry.current
  rw [hprimary, hbackup]

theorem prev_of_holds_backup (h : r.primary.held = []) (hc : r.holds c = true) : r.prev = some c := by
  unfold Registry.holds at hc
  rw [h, Bool.or_eq_true, beq_iff_eq, beq_iff_eq] at hc
  rw [prev_of_primary_empty h]
  exact hc.resolve_left (nomatch ·)

theorem prev_of_holds_primary (h : r.backup.held = []) (hc : r.holds c = true) : r.prev = some c := by
  unfold Registry.holds at hc
  rw [h, Bool.or_eq_true, beq_iff_eq, beq_iff_eq] at hc
  exact prev_of_primary (hc.resolve_right (nomatch ·))

theorem held_set {file : RegistryFile} (w : Which) (h : file.held = (r.get w).held) : (r.set w file).prev = r.prev := by
  cases w with
  | primary => exact prev_of_held h rfl
  | backup => exact prev_of_held rfl h

/-! ### Runs -/

/-- The status line that an install displaced is in the registry, unless an outside step took it. -/
def Kept (t : Traced) : Prop :=
  isOurComposite t.state.slot = true → t.lost = false → ∀ c, t.displaced = some c → t.state.registry.holds c = true

/-- A step that takes the composite out of the slot gives the slot to the displaced command or to a third party. -/
def GivesBack (surface : Surface) (t t' : Traced) : Prop :=
  isOurComposite t.state.slot = true → isOurComposite t'.state.slot = false → t.lost = false →
    ∀ c, t.displaced = some c → t'.state.slot = some c ∨
      ∃ p ∈ thirdParty (entries surface.segment t.state.registry), t'.state.slot = some p.command

theorem Safe.kept (h : Safe t) : Kept t := fun hours hlost c hcommand => holds_of_prev (h.prev hours hlost c hcommand)

theorem Safe.start (s : State) : Safe (.start s) where
  prev _ _ _ hcommand := nomatch hcommand
  foreign _ hcommand := nomatch hcommand

theorem Safe.givesBack_uninstall {surface : Surface} {td : Teardown} {tf : TeardownFaults} (h : Safe t)
    (hcareful : Careful t (.uninstall surface td tf)) :
    GivesBack surface t { t with state := Statusline.uninstall surface td tf t.state } := by
  intro hours hafter hlost c hcommand
  have hprev := h.prev hours hlost c hcommand
  dsimp only at hafter ⊢
  rw [slot_uninstall] at hafter ⊢
  refine given_back hours (h.foreign c hcommand).2 (fun _ => ?_) hafter
  rcases hcareful hours hlost c hcommand with ⟨-, -, hread⟩ | ⟨hwritten | hthird, -⟩
  · exact hread
  · -- the settings were not written
    rcases slot_writeDetached_cases with hsame | ⟨-, -, hsettings⟩
    · rw [hsame, hours] at hafter
      cases hafter
    · rw [hwritten.1] at hsettings
      cases hsettings
  · exact .inl hthird

theorem Safe.givesBack_cleanup {surface : Surface} {td : Teardown} {tf : TeardownFaults} (h : Safe t) :
    GivesBack surface t { t with state := cleanupDisabledStatusline surface td tf t.state } := by
  intro hours hafter hlost c hcommand
  have hprev := h.prev hours hlost c hcommand
  have hne := (h.foreign c hcommand).2
  dsimp only at hafter ⊢
  obtain ⟨-, -, hcleanup⟩ | ⟨-, -, d, hd, hcleanup⟩ | ⟨hsame, -⟩ := cleanup_cases hours
  · rw [hcleanup] at hafter ⊢
    refine given_back hours hne (fun hreads => .inr ?_) hafter
    rw [prev_entries (hreads.resolve_right Bool.false_ne_true), hprev]
  · obtain ⟨hprev', hentries, -, -⟩ := @cleanupRegistry_same surface td tf t.state
    have hslot : (cleanupDisabledStatusline surface td tf t.state).slot = (writeDetached tf td d t.state).slot := by
      rw [hcleanup]
      split_ifs
      · exact slot_removeCacheResidue
      · rfl
    rw [hslot, hd] at hafter ⊢
    rw [← hentries]
    refine given_back hours hne (fun hreads => .inr ?_) hafter
    rw [prev_entries (hreads.resolve_right Bool.false_ne_true), hprev', hprev]
  · rw [hsame, hours] at hafter
    cases hafter

/-- A careful step keeps the displaced command. -/
theorem Safe.step {a : Action} (h : Safe t) (hc : Careful t a) (hstep : step t a = some t') : Safe t' := by
  -- our own calls keep what is saved by their lemmas; the other actions write beside it
  cases a with
  | install surface o f =>
    cases hstep
    exact h.install hc
  | update surface o f =>
    cases hstep
    exact h.update
  | cleanup surface td f =>
    cases hstep
    exact h.cleanup hc
  | uninstall surface td f =>
    cases hstep
    exact h.uninstall hc
  | register surface f entry =>
    unfold Statusline.step at hstep
    dsimp only at hstep
    split_ifs at hstep with hid
    cases hstep
    refine ⟨fun hours hlost c hcommand => ?_, h.foreign⟩
    exact (prev_register fun heq => hid (.inl heq)).trans (h.prev hours hlost c hcommand)
  | unregister surface f id =>
    unfold Statusline.step at hstep
    dsimp only at hstep
    split_ifs at hstep with hid
    cases hstep
    refine ⟨fun hours hlost c hcommand => ?_, h.foreign⟩
    exact prev_unregister (fun heq => hid (.inl heq)) (h.prev hours hlost c hcommand)
  | writeSlot slot =>
    unfold Statusline.step at hstep
    dsimp only at hstep
    split_ifs at hstep with hours
    cases hstep
    exact ⟨fun hours' => absurd hours' hours, h.foreign⟩
  | wipeCache =>
    cases hstep
    have hwiped := h.outside { t.state.registry with primary := .missing } fun c _ hc => prev_of_holds_backup rfl hc
    exact ⟨hwiped.prev, hwiped.foreign⟩
  | unreadable w =>
    unfold Statusline.step at hstep
    dsimp only at hstep
    split at hstep
    case h_1 providers hfile =>
      cases hstep
      exact h.outside _ fun c hprev _ => (held_set w (by rw [hfile]; rfl)).trans hprev
    case h_2 => cases hstep
  | readable w =>
    unfold Statusline.step at hstep
    dsimp only at hstep
    split at hstep
    case h_1 providers hfile =>
      cases hstep
      exact h.outside _ fun c hprev _ => (held_set w (by rw [hfile]; rfl)).trans hprev
    case h_2 => cases hstep
  | corrupt w =>
    cases hstep
    refine h.outside _ fun c _ hc => ?_
    cases w with
    | primary => exact prev_of_holds_backup rfl hc
    | backup => exact prev_of_holds_primary rfl hc

/-- In a run of careful steps the displaced command is kept. The next careful step, where it is a teardown that takes
the composite out of the slot, gives it back. -/
theorem statusline_kept {s : State} {as : List Action} (hcareful : AllSteps step Careful (.start s) as)
    (hrun : run step (.start s) as = some t) :
    Kept t ∧ ∀ surface td tf,
      (∀ t', Careful t (.cleanup surface td tf) → step t (.cleanup surface td tf) = some t' → GivesBack surface t t') ∧
      (∀ t', Careful t (.uninstall surface td tf) → step t (.uninstall surface td tf) = some t' →
        GivesBack surface t t') := by
  have hsafe : Safe t := hcareful.invariant Safe.step (Safe.start s) hrun
  refine ⟨hsafe.kept, fun surface td tf => ⟨fun t' _ hstep => ?_, fun t' hc hstep => ?_⟩⟩
  · cases hstep
    exact hsafe.givesBack_cleanup
  · cases hstep
    exact hsafe.givesBack_uninstall hc

def onlyCopy : Surface where
  composite := "statusline-composite.js"
  segment := "statusline.js"
  version := "1"
  isComposite := by decide

def fresh (primary : RegistryFile) : State := ⟨some "mine", ⟨primary, .missing⟩, .absent⟩

/-- An install over a command, with no registry so far. -/
theorem statusline_kept_install : ∃ t, run step (.start (fresh .missing)) [.install onlyCopy {} {}] = some t ∧
    t.state.slot = some "statusline-composite.js" ∧ t.displaced = some "mine" ∧
    t.state.registry.holds "mine" = true := by
  have hcareful : AllSteps step Careful (.start (fresh .missing)) [.install onlyCopy {} {}] := by
    refine ⟨fun _ _ _ c _ hrefuse => ?_, fun _ _ => trivial⟩
    rcases hrefuse with hunusable | ⟨-, hunusable⟩
    · cases hunusable
    · cases hunusable
  have hkept := (statusline_kept hcareful rfl).1
  exact ⟨_, rfl, by decide, by decide, hkept (by decide) (by decide) "mine" (by decide)⟩

/-- An install whose registry file is corrupt takes the slot, and saves the command nowhere. -/
theorem statusline_not_kept : ¬∀ s as t, run step (.start s) as = some t → Kept t := by
  intro h
  have hkept := h (fresh .corrupt) [.install onlyCopy {} {}] _ rfl (by decide) (by decide) "mine" (by decide)
  exact absurd hkept (by decide)

end CodeGraph.Plugin.Statusline
