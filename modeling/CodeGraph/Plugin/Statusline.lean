import CodeGraph.Lib.Run
import Mathlib.Data.List.Infix

/-!
# The status line slot and its registry

`lifecycle.js`: the two copies of the provider registry, and what `install`, `update`, `cleanupDisabledStatusline` and
`uninstall` do to them, to the status line slot of the settings and to the install manifest. What else stands in the
settings comes in as whether it was changed. Every write says whether it fails.
-/

namespace CodeGraph.Plugin.Statusline

open CodeGraph.Lib

abbrev Command := String

/-- `isOurComposite`. -/
def isOurComposite (slot : Option Command) : Bool :=
  slot.any fun command => "statusline-composite".toList <:+: command.toList

/-! ### The registry -/

structure Provider where
  id : String
  command : Command
  needsStdin : Bool
  deriving DecidableEq, Repr

/-- A copy of the registry. What an unreadable file holds is there again when it can be read again. -/
inductive RegistryFile
  | missing
  | corrupt
  | unreadable (held : List Provider)
  | list (providers : List Provider)
  deriving DecidableEq, Repr

namespace RegistryFile

/-- `value`, where it is a list with entries. -/
def value : RegistryFile → List Provider
  | list providers => providers
  | _ => []

/-- `corrupt` of `readJsonResult`: the file is there and gives no list. -/
def unusable : RegistryFile → Bool
  | corrupt | unreadable _ => true
  | _ => false

/-- `writeJsonAtomic` carries the permissions over, so a file that cannot be read stays so. -/
def write (providers : List Provider) : RegistryFile → RegistryFile
  | unreadable _ => unreadable providers
  | _ => list providers

end RegistryFile

structure Registry where
  primary : RegistryFile
  backup : RegistryFile
  deriving DecidableEq, Repr

/-- Which writes of one call fail. -/
structure RegistryFaults where
  heal : Bool := false
  primary : Bool := false
  backup : Bool := false
  unlinkPrimary : Bool := false
  unlinkBackup : Bool := false
  deriving DecidableEq, Repr

/-- A call returns whether it changed something, or throws. -/
inductive Outcome
  | threw
  | returned (changed : Bool)
  deriving DecidableEq, Repr

/-- What `readRegistryForWrite` gives: the entries, `refuse`, and the files after it. -/
structure Reading where
  registry : List Provider
  refuse : Bool
  files : Registry

/-- `readRegistryForWrite`, where `live` is `codeGraphStatuslineCommand()`. -/
def readRegistryForWrite (live : Command) (failHeal : Bool) (r : Registry) : Reading :=
  if r.primary.value ≠ [] then ⟨r.primary.value, false, r⟩
  else if r.primary.unusable then ⟨r.backup.value, true, r⟩
  else
    let healed := r.backup.value.filter fun p => p.id ≠ "code-graph" ∨ p.command = live
    if healed ≠ [] then ⟨healed, false, if failHeal then r else { r with primary := r.primary.write healed }⟩
    else ⟨[], r.backup.unusable, r⟩

/-- `writeRegistry`: without entries both copies go; only a write of the primary throws. -/
def writeRegistry (f : RegistryFaults) (registry : List Provider) (r : Registry) (changed : Bool) :
    Registry × Outcome :=
  if registry = [] then
    ({ primary := if f.unlinkPrimary then r.primary else .missing
       backup := if f.unlinkBackup then r.backup else .missing }, .returned changed)
  else if f.primary then (r, .threw)
  else
    ({ primary := r.primary.write registry
       backup := if f.backup then r.backup else r.backup.write registry }, .returned changed)

/-- The registry with the entry in the place of the first of its id, or behind all. It is `none` where the command is
the same. -/
def upsert (entry : Provider) : List Provider → Option (List Provider)
  | [] => some [entry]
  | p :: registry =>
    if p.id = entry.id then
      if p.command = entry.command then none else some (entry :: registry)
    else (upsert entry registry).map (p :: ·)

/-- `registerStatuslineProvider`. -/
def registerStatuslineProvider (live : Command) (f : RegistryFaults) (entry : Provider) (r : Registry) :
    Registry × Outcome :=
  let reading := readRegistryForWrite live f.heal r
  if reading.refuse then (reading.files, .returned false)
  else
    match upsert entry reading.registry with
    | none => (reading.files, .returned false)
    | some registry => writeRegistry f registry reading.files true

/-- `unregisterStatuslineProvider`. -/
def unregisterStatuslineProvider (live : Command) (f : RegistryFaults) (id : String) (r : Registry) :
    Registry × Outcome :=
  let reading := readRegistryForWrite live f.heal r
  if reading.refuse then (reading.files, .returned false)
  else
    let filtered := reading.registry.filter fun p => p.id ≠ id
    if filtered.length = reading.registry.length then (reading.files, .returned false)
    else writeRegistry f filtered reading.files true

/-! ### Detaching -/

/-- Entries that are neither the previous status line nor ours. -/
def thirdParty (registry : List Provider) : List Provider :=
  registry.filter fun p => p.id ≠ "_previous" ∧ p.id ≠ "code-graph" ∧ p.command ≠ ""

structure DetachFaults where
  heal : Bool := false
  codeGraph : RegistryFaults := {}
  previous : RegistryFaults := {}
  deriving DecidableEq, Repr

/-- What `detachStatuslineIntegration` makes of the slot. -/
def detachedSlot (compositeDoomed : Bool) (registry : List Provider) (slot : Option Command) : Option Command :=
  if isOurComposite slot then
    match thirdParty registry, registry.find? fun p => p.id = "_previous" ∧ p.command ≠ "" with
    | first :: _, _ => if compositeDoomed then some first.command else slot
    | [], some previous => some previous.command
    | [], none => none
  else slot

/-- `settingsChanged` of `detachStatuslineIntegration`. -/
def detachChanges (compositeDoomed : Bool) (registry : List Provider) (slot : Option Command) : Bool :=
  isOurComposite slot && (compositeDoomed || (thirdParty registry).isEmpty)

/-- The files, the slot of the settings in memory, and the outcome. -/
structure Detached where
  files : Registry
  slot : Option Command
  outcome : Outcome

/-- `detachStatuslineIntegration`. -/
def detachStatuslineIntegration (live : Command) (f : DetachFaults) (compositeDoomed oneShot : Bool)
    (slot : Option Command) (r : Registry) : Detached :=
  let reading := readRegistryForWrite live f.heal r
  let slot' := detachedSlot compositeDoomed reading.registry slot
  let changed := detachChanges compositeDoomed reading.registry slot
  if reading.refuse then
    if oneShot then ⟨reading.files, slot', .returned changed⟩ else ⟨reading.files, slot, .returned false⟩
  else
    match unregisterStatuslineProvider live f.codeGraph "code-graph" reading.files with
    | (files, .threw) => ⟨files, slot, .threw⟩
    | (files, .returned _) =>
      if thirdParty reading.registry = [] then
        match unregisterStatuslineProvider live f.previous "_previous" files with
        | (files, .threw) => ⟨files, slot', .threw⟩
        | (files, .returned _) => ⟨files, slot', .returned changed⟩
      else ⟨files, slot', .returned changed⟩

/-! ### The operations -/

/-- `config.statusLine`, `config.statuslineDisplaced` and `version` of the install manifest. -/
structure Manifest where
  statusLine : Bool
  statuslineDisplaced : ℕ
  version : Option String
  deriving DecidableEq, Repr

/-- `readManifest` where there is none. -/
def Manifest.absent : Manifest := ⟨false, 0, none⟩

structure State where
  slot : Option Command
  registry : Registry
  manifest : Manifest
  deriving DecidableEq, Repr

/-- A copy of the plugin: the commands it writes. -/
structure Surface where
  composite : Command
  segment : Command
  version : String
  isComposite : isOurComposite (some composite) = true

/-- `currentCmd`, where it is truthy. -/
def currentCmd (slot : Option Command) : Option Command := slot.filter (· ≠ "")

/-- `statuslineDisplaced` as `install` counts it, where the slot is not ours. -/
def countDisplaced (reclaimStatusline : Bool) (slot : Option Command) (m : Manifest) : ℕ :=
  if reclaimStatusline ∨ currentCmd slot = none then 0
  else if m.statusLine then m.statuslineDisplaced + 1
  else m.statuslineDisplaced

structure InstallFaults where
  previous : RegistryFaults := {}
  codeGraph : RegistryFaults := {}
  settings : Bool := false
  manifest : Bool := false
  deriving DecidableEq, Repr

/-- The options and the surroundings of `install` and `update`: whether the slot is to be claimed again, whether the
composite in it is stale, and whether anything else in the settings was changed. -/
structure InstallOptions where
  reclaimStatusline : Bool := false
  stale : Bool := false
  otherChanges : Bool := false
  deriving DecidableEq, Repr

/-- What the first part of `install` leaves: the files, the settings and the manifest in memory. -/
structure Claim where
  files : Registry
  slot : Option Command
  manifest : Manifest
  settingsChanged : Bool
  outcome : Outcome

/-- The status line part of `install`. -/
def claimSlot (surface : Surface) (o : InstallOptions) (f : InstallFaults) (s : State) : Claim :=
  if isOurComposite s.slot then
    let heal := s.slot ≠ some surface.composite ∧ o.stale
    ⟨s.registry, if heal then some surface.composite else s.slot,
      { s.manifest with statuslineDisplaced := 0, statusLine := true }, heal, .returned true⟩
  else
    let displaced := countDisplaced o.reclaimStatusline s.slot s.manifest
    if 2 < displaced then
      ⟨s.registry, s.slot, { s.manifest with statuslineDisplaced := displaced, statusLine := false }, false,
        .returned false⟩
    else
      let saved :=
        match currentCmd s.slot with
        | none => (s.registry, Outcome.returned false)
        | some command => registerStatuslineProvider surface.segment f.previous ⟨"_previous", command, true⟩ s.registry
      ⟨saved.1, some surface.composite, { s.manifest with statuslineDisplaced := displaced, statusLine := true }, true,
        saved.2⟩

/-- The write of the settings and the manifest at the end of `install` and `update`. -/
def finish (f : InstallFaults) (settingsChanged : Bool) (slot : Option Command) (m : Manifest) (files : Registry)
    (s : State) : State :=
  if settingsChanged ∧ f.settings then { s with registry := files }
  else { slot := slot, registry := files, manifest := if f.manifest then s.manifest else m }

/-- `install`. -/
def install (surface : Surface) (o : InstallOptions) (f : InstallFaults) (s : State) : State :=
  let claim := claimSlot surface o f s
  if claim.outcome = .threw then { s with registry := claim.files }
  else
    match registerStatuslineProvider surface.segment f.codeGraph ⟨"code-graph", surface.segment, false⟩ claim.files with
    | (files, .threw) => { s with registry := files }
    | (files, .returned _) =>
      finish f (claim.settingsChanged || o.otherChanges) claim.slot
        { claim.manifest with version := some surface.version } files s

/-- `update`. -/
def update (surface : Surface) (o : InstallOptions) (f : InstallFaults) (s : State) : State :=
  let heal : Bool := isOurComposite s.slot ∧ s.slot ≠ some surface.composite ∧ o.stale
  match registerStatuslineProvider surface.segment f.codeGraph ⟨"code-graph", surface.segment, false⟩ s.registry with
  | (files, .threw) => { s with registry := files }
  | (files, .returned _) =>
    finish f (heal || o.otherChanges) (if heal then some surface.composite else s.slot)
      { s.manifest with version := some surface.version } files s

/-- What a teardown finds: `enabledPlugins` has us off, `installed_plugins.json` has a record of us (`none` where it
gives no list of plugins), and something else of ours stands in the settings. -/
structure Teardown where
  disabled : Bool := false
  installedRecord : Option Bool := some false
  otherChanges : Bool := false
  deriving DecidableEq, Repr

/-- What fails of a teardown. Settings that are not UTF-8 are copied before they are written, and not written where the
copy fails (`preserve`). -/
structure TeardownFaults where
  inactive : Bool := false
  uninstalled : Bool := false
  detach : DetachFaults := {}
  preserve : Bool := false
  settings : Bool := false
  cache : Bool := false
  deriving DecidableEq, Repr

/-- The settings are written. -/
def TeardownFaults.written (f : TeardownFaults) : Bool := !f.preserve && !f.settings

/-- `isPluginInactive`, which reads the registry and so may heal it. -/
def isPluginInactive (live : Command) (failHeal : Bool) (t : Teardown) (slot : Option Command) (r : Registry) :
    Bool × Registry :=
  if t.disabled then (true, r)
  else
    let reading := readRegistryForWrite live failHeal r
    (((isOurComposite slot || reading.registry.any fun p => p.id = "code-graph") && t.installedRecord == some false),
      reading.files)

/-- `isPluginUninstalled`. -/
def isPluginUninstalled (live : Command) (failHeal : Bool) (t : Teardown) (slot : Option Command) (r : Registry) :
    Bool × Registry :=
  if t.disabled then (false, r) else isPluginInactive live failHeal t slot r

/-- `removeCacheResidue`: the primary registry and the manifest lie in the cache directory. -/
def removeCacheResidue (fails : Bool) (s : State) : State :=
  if fails then s else { s with registry := { s.registry with primary := .missing }, manifest := .absent }

/-- The write of the settings after a detach. -/
def writeDetached (f : TeardownFaults) (t : Teardown) (d : Detached) (s : State) : State :=
  match d.outcome with
  | .threw => { s with registry := d.files }
  | .returned changed =>
    { s with registry := d.files, slot := if (changed || t.otherChanges) && f.written then d.slot else s.slot }

/-- `cleanupDisabledStatusline`. -/
def cleanupDisabledStatusline (surface : Surface) (t : Teardown) (f : TeardownFaults) (s : State) : State :=
  let inactive := isPluginInactive surface.segment f.inactive t s.slot s.registry
  if ¬inactive.1 then { s with registry := inactive.2 }
  else
    let uninstalled := isPluginUninstalled surface.segment f.uninstalled t s.slot inactive.2
    let d := detachStatuslineIntegration surface.segment f.detach uninstalled.1 false s.slot uninstalled.2
    let s' := writeDetached f t d s
    -- a failed copy returns before the cache goes
    let stopped : Bool := f.preserve ∧ (d.outcome = .returned true ∨ t.otherChanges)
    if d.outcome ≠ .threw ∧ uninstalled.1 ∧ ¬stopped then removeCacheResidue f.cache s' else s'

/-- `uninstall`. -/
def uninstall (surface : Surface) (t : Teardown) (f : TeardownFaults) (s : State) : State :=
  let d := detachStatuslineIntegration surface.segment f.detach true true s.slot s.registry
  let s' := writeDetached f t d s
  if d.outcome ≠ .threw then removeCacheResidue f.cache s' else s'

/-! ### Runs -/

/-- The command of the first `_previous` entry. -/
def previousOf (registry : List Provider) : Option Command :=
  (registry.find? fun p => p.id = "_previous").map Provider.command

/-- What a file holds, readable or not. -/
def RegistryFile.held : RegistryFile → List Provider
  | list providers | unreadable providers => providers
  | _ => []

/-- One of the two files holds the command as its `_previous` entry. -/
def Registry.holds (r : Registry) (command : Command) : Bool :=
  previousOf r.primary.held == some command || previousOf r.backup.held == some command

inductive Which
  | primary | backup
  deriving DecidableEq, Repr

def Registry.get (r : Registry) : Which → RegistryFile
  | .primary => r.primary
  | .backup => r.backup

def Registry.set (r : Registry) : Which → RegistryFile → Registry
  | .primary, file => { r with primary := file }
  | .backup, file => { r with backup := file }

/-- The operations, the calls of third parties, and what happens from outside. -/
inductive Action
  | install (surface : Surface) (o : InstallOptions) (f : InstallFaults)
  | update (surface : Surface) (o : InstallOptions) (f : InstallFaults)
  | cleanup (surface : Surface) (t : Teardown) (f : TeardownFaults)
  | uninstall (surface : Surface) (t : Teardown) (f : TeardownFaults)
  | register (surface : Surface) (f : RegistryFaults) (entry : Provider)
  | unregister (surface : Surface) (f : RegistryFaults) (id : String)
  | writeSlot (slot : Option Command)
  | wipeCache
  | unreadable (file : Which)
  | readable (file : Which)
  | corrupt (file : Which)

/-- A state, the command that the last install displaced to take the slot, and whether an outside step has destroyed the
last copy of it since. -/
structure Traced where
  state : State
  displaced : Option Command
  lost : Bool

def Traced.start (s : State) : Traced := ⟨s, none, false⟩

/-- The state after an install. It displaces what was in the slot where it takes the slot. -/
def Traced.installed (t : Traced) (s : State) : Traced :=
  if isOurComposite t.state.slot = false ∧ isOurComposite s.slot then ⟨s, currentCmd t.state.slot, false⟩
  else { t with state := s }

/-- The registry after a step from outside. -/
def Traced.outside (t : Traced) (r : Registry) : Traced :=
  { t with
    state := { t.state with registry := r }
    lost := t.lost || t.displaced.any fun command => t.state.registry.holds command && !r.holds command }

def step (t : Traced) : Action → Option Traced
  | .install surface o f => some (t.installed (install surface o f t.state))
  | .update surface o f => some { t with state := update surface o f t.state }
  | .cleanup surface td f => some { t with state := cleanupDisabledStatusline surface td f t.state }
  | .uninstall surface td f => some { t with state := uninstall surface td f t.state }
  | .register surface f entry =>
    if entry.id = "_previous" ∨ entry.id = "code-graph" then none
    else
      some { t with
        state := { t.state with
          registry := (registerStatuslineProvider surface.segment f entry t.state.registry).1 } }
  | .unregister surface f id =>
    if id = "_previous" ∨ id = "code-graph" then none
    else
      some { t with
        state := { t.state with
          registry := (unregisterStatuslineProvider surface.segment f id t.state.registry).1 } }
  | .writeSlot slot => if isOurComposite slot then none else some { t with state := { t.state with slot := slot } }
  | .wipeCache =>
    let t := t.outside { t.state.registry with primary := .missing }
    some { t with state := { t.state with manifest := .absent } }
  | .unreadable file =>
    match t.state.registry.get file with
    | .list providers => some (t.outside (t.state.registry.set file (.unreadable providers)))
    | _ => none
  | .readable file =>
    match t.state.registry.get file with
    | .unreadable providers => some (t.outside (t.state.registry.set file (.list providers)))
    | _ => none
  | .corrupt file => some (t.outside (t.state.registry.set file .corrupt))

end CodeGraph.Plugin.Statusline
