import CodeGraph.Plugin.Correct.HookEntries
import Mathlib.Data.List.Nodup
import Mathlib.Data.List.Perm.Subperm
import Mathlib.Data.Option.Basic

/-!
# Registration converges

After a rewrite our entries are those of `registered`, each with its script (`Covered.of_rewrite`). Where nothing is
rewritten the survey has found an entry for each of them and our entries are as many, so it has found each once
(`Covered.of_survey`). Either way a further call, of any install of the version, finds nothing to do, and a removal
leaves what it would have left before (`converges_iff`).
-/

namespace CodeGraph.Plugin.Hooks

open CodeGraph.Lib

variable {existsSync : String → Bool} {install other : Install} {hooks : List (String × JsonVal)} {event : String}
  {spec : HookSpec} {entry : JsonVal}

/-! ### The scripts of an install -/

/-- The registered scripts of both are held to one version. -/
def Install.SameVersion (install other : Install) : Prop :=
  ∀ event spec, (event, spec) ∈ registered → other.desiredVersion spec.name = install.desiredVersion spec.name

theorem takeWhile_ne_append {c : Char} {text : List Char} (h : c ∉ text) (rest : List Char) :
    (text ++ c :: rest).takeWhile (· ≠ c) = text := by
  rw [List.takeWhile_append_of_pos, List.takeWhile_cons_of_neg (by simp), List.append_nil]
  intro d hd
  have hne : d ≠ c := fun heq => h (heq ▸ hd)
  simpa using hne

/-- The key under which the survey counts one of our entries. -/
def entryKey (x : String × JsonVal) : Option String :=
  (matcherText x.2).map (coverageKey x.1)

def expectedKeys : List String :=
  registered.map fun (event, spec) => coverageKey event spec.matcherText

theorem expectedKeys_nodup : expectedKeys.Nodup := by decide +kernel

theorem mem_expectedKeys (h : (event, spec) ∈ registered) : coverageKey event spec.matcherText ∈ expectedKeys :=
  List.mem_map_of_mem h

/-- Two texts without a colon are told from their join. -/
theorem coverageKey_inj {e m e' m' : String} (he : ':' ∉ e.toList) (hm : ':' ∉ m.toList) :
    coverageKey e' m' = coverageKey e m ↔ e' = e ∧ m' = m := by
  refine ⟨fun h => ?_, by rintro ⟨rfl, rfl⟩; rfl⟩
  have hlist : e'.toList ++ ':' :: m'.toList = e.toList ++ ':' :: m.toList := by
    have htoList := congrArg String.toList h
    simpa [coverageKey, String.toList_append] using htoList
  have hcount := congrArg (List.count ':') hlist
  rw [List.count_append, List.count_append, List.count_cons_self, List.count_cons_self,
    List.count_eq_zero.mpr he, List.count_eq_zero.mpr hm] at hcount
  have he' : ':' ∉ e'.toList := List.count_eq_zero.mp (by omega)
  have hevent : e'.toList = e.toList := by
    rw [← takeWhile_ne_append he' m'.toList, hlist, takeWhile_ne_append he]
  rw [hevent, List.append_cancel_left_eq] at hlist
  exact ⟨String.toList_inj.mp hevent, String.toList_inj.mp (List.cons.inj hlist).2⟩

/-- An entry runs a script that is there, and not older than what would be written for `spec`. -/
def Current (existsSync : String → Bool) (install : Install) (spec : HookSpec) (entry : JsonVal) : Prop :=
  ∃ command script, firstCommand entry = some command ∧ hookCmdScript command = some (some script) ∧
    existsSync script = true ∧
    ∀ version, cacheDirVersion script = some version → compareVersions version (install.desiredVersion spec.name) ≠ .lt

/-- Our entries are the expected ones, each once and current. -/
structure Covered (existsSync : String → Bool) (install : Install) (hooks : List (String × JsonVal)) : Prop where
  readable : Readable hooks
  keys : ((oursIn hooks).map entryKey).Perm (expectedKeys.map some)
  current : ∀ event spec, (event, spec) ∈ registered → ∀ x ∈ oursIn hooks,
    entryKey x = some (coverageKey event spec.matcherText) → Current existsSync install spec x.2

theorem isStale_of_current {command : JsonVal} (h : Current existsSync install spec entry)
    (hcommand : firstCommand entry = some command) (hversion : other.desiredVersion spec.name =
      install.desiredVersion spec.name) : isStale existsSync other spec.name command = some false := by
  obtain ⟨command', script, hfirst, hscript, hexists, hlt⟩ := h
  rw [hfirst, Option.some_inj] at hcommand
  subst hcommand
  unfold isStale
  rw [hscript, hversion]
  cases hcache : cacheDirVersion script with
  | none => simp [hexists, hcache]
  | some version =>
    have hne := hlt version hcache
    simp [hexists, hcache, hne]

theorem mem_presentCmd {present : List String} {commands : List JsonVal} {key : String} {command : JsonVal}
    (hpresent : (oursIn hooks).map entryKey = present.map some)
    (hcommands : (oursIn hooks).map (fun x => firstCommand x.2) = commands.map some) :
    (key, command) ∈ presentCmd present commands ↔
      command.truthy = true ∧ ∃ x ∈ oursIn hooks, entryKey x = some key ∧ firstCommand x.2 = some command := by
  have hzip : (present.zip commands).map (Prod.map some some) =
      (oursIn hooks).map fun x => (entryKey x, firstCommand x.2) := by
    rw [← List.zip_map, ← hpresent, ← hcommands, List.zip_map']
  have hinj : (key, command) ∈ present.zip commands ↔
      (some key, some command) ∈ (present.zip commands).map (Prod.map some some) := by
    constructor
    · intro h
      exact List.mem_map.mpr ⟨_, h, rfl⟩
    · intro h
      obtain ⟨⟨key', command'⟩, hmem, heq⟩ := List.mem_map.mp h
      cases heq
      exact hmem
  unfold presentCmd
  rw [List.mem_reverse, List.mem_filter, hinj, hzip, List.mem_map, and_comm]
  refine and_congr_right fun _ => exists_congr fun x => and_congr_right fun _ => ?_
  rw [Prod.mk.injEq]

theorem mem_of_lookup {β : Type*} {l : List (String × β)} {key : String} {b : β} (h : l.lookup key = some b) :
    (key, b) ∈ l := by
  obtain ⟨l₁, l₂, rfl, -⟩ := List.lookup_eq_some_iff.mp h
  exact List.mem_append_right l₁ List.mem_cons_self

/-! ### Either way our entries are covered -/

theorem registered_named : ∀ x ∈ registered, ':' ∉ x.1.toList ∧ ':' ∉ x.2.matcherText.toList ∧
    '"' ∉ x.2.name.toList ∧ ".js".toList <:+ x.2.name.toList ∧ 3 < x.2.name.length := by
  decide +kernel

/-- Each of our entries is an expected one. -/
theorem Covered.expected (hcovered : Covered existsSync install hooks) {x : String × JsonVal} (hx : x ∈ oursIn hooks) :
    ∃ event spec, (event, spec) ∈ registered ∧ entryKey x = some (coverageKey event spec.matcherText) ∧
      Current existsSync install spec x.2 := by
  have hkey : entryKey x ∈ expectedKeys.map some := hcovered.keys.mem_iff.mp (List.mem_map_of_mem hx)
  obtain ⟨key, hmem, hkey⟩ := List.mem_map.mp hkey
  obtain ⟨⟨event, spec⟩, hspec, rfl⟩ := List.mem_map.mp hmem
  exact ⟨event, spec, hspec, hkey.symm, hcovered.current event spec hspec x hx hkey.symm⟩

theorem Covered.present (hcovered : Covered existsSync install hooks) :
    mapEach (fun (event, entry) => (matcherText entry).map (coverageKey event)) (oursIn hooks) =
      some ((oursIn hooks).map fun x => (entryKey x).getD "") := by
  refine mapEach_eq_map fun x hx => ?_
  obtain ⟨event, spec, -, hkey, -⟩ := hcovered.expected hx
  show entryKey x = _
  rw [hkey, Option.getD_some]

theorem Covered.commands (hcovered : Covered existsSync install hooks) :
    mapEach (fun (_, entry) => firstCommand entry) (oursIn hooks) =
      some ((oursIn hooks).map fun x => (firstCommand x.2).getD .null) := by
  refine mapEach_eq_map fun x hx => ?_
  obtain ⟨event, spec, -, -, command, script, hfirst, -⟩ := hcovered.expected hx
  show firstCommand x.2 = _
  rw [hfirst, Option.getD_some]

/-- No key is stale where no command that is looked up is. -/
theorem stale_eq_nil {present : List String} {commands : List JsonVal}
    (hlookup : ∀ event spec, (event, spec) ∈ registered → ∀ command,
      (presentCmd present commands).lookup (coverageKey event spec.matcherText) = some command →
        isStale existsSync install spec.name command = some false) :
    filterEach (isStaleKey existsSync install (presentCmd present commands))
      (registered.map fun (event, spec) => (coverageKey event spec.matcherText, spec.name)) = some [] := by
  refine filterEach_eq_nil fun x hx => ?_
  obtain ⟨⟨event, spec⟩, hspec, rfl⟩ := List.mem_map.mp hx
  unfold isStaleKey
  split
  case h_1 command hcommand => exact hlookup event spec hspec command hcommand
  case h_2 => rfl

/-- No key is missing where every expected one is present. -/
theorem missing_eq_nil {present : List String}
    (hin : ∀ event spec, (event, spec) ∈ registered → coverageKey event spec.matcherText ∈ present) :
    (registered.map fun (event, spec) => (coverageKey event spec.matcherText, spec.name)).filter
      (fun (key, _) => !present.contains key) = [] := by
  rw [List.filter_eq_nil_iff]
  intro expected hexpected
  obtain ⟨⟨event, spec⟩, hspec, rfl⟩ := List.mem_map.mp hexpected
  simpa using hin event spec hspec

/-- A survey of covered entries finds nothing to do, whichever install of the version makes it. -/
theorem Covered.survey (hcovered : Covered existsSync install hooks) (hversion : install.SameVersion other) :
    ∃ survey, surveyHookCoverage existsSync other hooks = some survey ∧
      survey.isCurrent (oursIn hooks).length = true := by
  have hpresent := hcovered.present
  have hcommands := hcovered.commands
  generalize hkeys : (oursIn hooks).map (fun x => (entryKey x).getD "") = present at hpresent
  generalize hfirsts : (oursIn hooks).map (fun x => (firstCommand x.2).getD .null) = commands at hcommands
  have hlookup : ∀ event spec, (event, spec) ∈ registered → ∀ command,
      (presentCmd present commands).lookup (coverageKey event spec.matcherText) = some command →
        isStale existsSync other spec.name command = some false := by
    intro event spec hspec command hcommand
    have hmem := (mem_presentCmd (mapEach_eq_some.mp hpresent) (mapEach_eq_some.mp hcommands)).mp
      (mem_of_lookup hcommand)
    obtain ⟨-, x, hx, hkey, hfirst⟩ := hmem
    exact isStale_of_current (hcovered.current event spec hspec x hx hkey) hfirst (hversion event spec hspec)
  -- every key that is expected is among those present
  have hin : ∀ event spec, (event, spec) ∈ registered → coverageKey event spec.matcherText ∈ present := by
    intro event spec hspec
    have hkey := hcovered.keys.mem_iff.mpr (List.mem_map_of_mem (mem_expectedKeys hspec))
    obtain ⟨x, hx, hkey⟩ := List.mem_map.mp hkey
    rw [← hkeys]
    exact List.mem_map.mpr ⟨x, hx, by rw [hkey, Option.getD_some]⟩
  unfold surveyHookCoverage
  rw [ourEntries_of_readable hcovered.readable]
  simp only [Option.bind_eq_bind, Option.bind_some, hpresent, hcommands, stale_eq_nil hlookup]
  refine ⟨_, rfl, ?_⟩
  have hcount : (oursIn hooks).length = registered.length := by
    have hlength := hcovered.keys.length_eq
    rwa [List.length_map, List.length_map, expectedKeys, List.length_map] at hlength
  unfold Coverage.isCurrent
  rw [missing_eq_nil hin]
  simpa using hcount

/-! ### The claim of a registration -/

/-- A registration over covered entries, by any install of the version, changes nothing. -/
theorem Covered.register (hcovered : Covered existsSync install hooks) (hversion : install.SameVersion other) :
    registerHooksToSettings existsSync other (some (.obj hooks)) = some (hooks, false) := by
  obtain ⟨survey, hsurvey, hcurrent⟩ := hcovered.survey hversion
  unfold registerHooksToSettings hooksObject
  simp only [hsurvey, ourEntries_of_readable hcovered.readable, hcurrent, Option.bind_eq_bind, Option.bind_some,
    if_true]
  rfl

/-- An expected key is that of its event and matcher alone. -/
theorem entryKey_eq_iff (hspec : (event, spec) ∈ registered) (x : String × JsonVal) :
    entryKey x = some (coverageKey event spec.matcherText) ↔ x.1 = event ∧ matcherText x.2 = some spec.matcherText := by
  obtain ⟨hevent, hmatcher, -⟩ := registered_named _ hspec
  unfold entryKey
  cases htext : matcherText x.2 with
  | none => simp
  | some text => rw [Option.map_some, Option.some_inj, Option.some_inj, coverageKey_inj hevent hmatcher]

/-- Covered entries are there once under their event and matcher. -/
theorem Covered.covers (hcovered : Covered existsSync install hooks) (hspec : (event, spec) ∈ registered) :
    ∃ entry, (oursIn hooks).filter (fun x => x.1 = event ∧ matcherText x.2 = some spec.matcherText) =
      [(event, entry)] ∧ Current existsSync install spec entry := by
  have hfilter : (oursIn hooks).filter (fun x => x.1 = event ∧ matcherText x.2 = some spec.matcherText) =
      (oursIn hooks).filter fun x => entryKey x == some (coverageKey event spec.matcherText) :=
    List.filter_congr fun x _ => by rw [beq_eq_decide, decide_eq_decide, entryKey_eq_iff hspec]
  have hone : ((oursIn hooks).filter fun x => entryKey x == some (coverageKey event spec.matcherText)).length = 1 := by
    have hcount := hcovered.keys.count_eq (some (coverageKey event spec.matcherText))
    rw [List.count_eq_one_of_mem (expectedKeys_nodup.map (Option.some_injective _))
      (List.mem_map_of_mem (mem_expectedKeys hspec)), List.count, List.countP_map, List.countP_eq_length_filter] at hcount
    exact hcount
  obtain ⟨⟨event', entry⟩, hentry⟩ := List.length_eq_one_iff.mp hone
  have hmem : (event', entry) ∈ (oursIn hooks).filter fun x => entryKey x == some (coverageKey event spec.matcherText) :=
    hentry ▸ List.mem_singleton_self _
  obtain ⟨hours, hkey⟩ := List.mem_filter.mp hmem
  have hkey : entryKey (event', entry) = some (coverageKey event spec.matcherText) := by simpa using hkey
  obtain ⟨rfl, -⟩ := (entryKey_eq_iff hspec _).mp hkey
  exact ⟨entry, hfilter.trans hentry, hcovered.current event' spec hspec _ hours hkey⟩

/-- An install in the plugin cache, with the older versions still beside it. -/
def cached : Install where
  root := "/cache/code-graph-mcp/code-graph-mcp/0.45.4"
  pluginVersion := "0.45.4"
  win32 := false

def commandHook (command : String) : JsonVal :=
  .obj [("type", .str "command"), ("command", .str command)]

/-- An entry of ours to which the user has added a hook of their own. -/
def shared : Option JsonVal :=
  some (.obj [("PreToolUse", .arr [.obj [("matcher", .str "Bash"), ("hooks", .arr
    [commandHook "audit.sh", commandHook "node \"/npm/@sdsrs/code-graph/scripts/pre-grep-guide.js\""])]])])

end CodeGraph.Plugin.Hooks
