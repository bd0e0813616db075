import CodeGraph.Lib.Json
import CodeGraph.Plugin.Version
import Mathlib.Data.List.Infix

/-!
# Hooks in the settings

The part of `lifecycle.js` that writes hook entries into `settings.json` and takes them out. The functions are given
the value of `settings.hooks`, absent where the key is, and are `none` where the script would throw a `TypeError`.
What they read of the machine is in an `Install` and in `existsSync`.
-/

namespace CodeGraph.Plugin.Hooks

open CodeGraph.Lib

def marketplaceName : String := "code-graph-mcp"

def shellPkg : String := "@sdsrs/code-graph"

/-- `OUR_HOOK_SCRIPTS`. -/
def ourHookScripts : List String :=
  ["session-init.js", "incremental-index.js", "user-prompt-context.js", "pre-edit-guide.js", "pre-grep-guide.js",
   "pre-read-guide.js", "post-grep-inject.js", "subagent-start.js", "stop-impact.js"]

namespace SettingsHookDesc

def preToolUse : String :=
  "[code-graph-mcp v0.32+] PreToolUse re-routed via settings.json (cache hooks.json silently ignored for this event by current CC)"

def postToolUseEdit : String := "[code-graph-mcp v0.32+] PostToolUse Write|Edit incremental-index update"

def postToolUseInject : String :=
  "[code-graph-mcp v0.32+] PostToolUse Bash compound-grep answer inject (permission-neutral additionalContext)"

def userPromptSubmit : String := "[code-graph-mcp v0.32+] UserPromptSubmit context push"

def subagentStart : String :=
  "[code-graph-mcp v0.32+] SubagentStart index facts for Explore/Plan/general-purpose subagents"

def stop : String := "[code-graph-mcp v0.32+] Stop signature-change check (callers in files not edited this turn)"

end SettingsHookDesc

/-- `OUR_DESCRIPTIONS`. -/
def ourDescriptions : List String :=
  ["StatusLine self-heal, lifecycle sync, project map injection",
   "Auto-inject impact analysis when editing functions with 2+ callers",
   "Auto-update code graph index after file edits",
   "Inject code-graph structural context based on user intent",
   SettingsHookDesc.preToolUse, SettingsHookDesc.postToolUseEdit, SettingsHookDesc.postToolUseInject,
   SettingsHookDesc.userPromptSubmit, SettingsHookDesc.subagentStart, SettingsHookDesc.stop]

/-! ### Whose entry it is -/

/-- `value.includes(part)`, of a text or an array. -/
def includes : JsonVal → String → Option Bool
  | .str text, part => some (decide (part.toList <:+: text.toList))
  | .arr items, part => some (items.any fun | .str item => item == part | _ => false)
  | _, _ => none

/-- The test of `isOurHookEntry` on one hook. -/
def isOurHook (hook : JsonVal) : Option Bool := do
  let command ← hook.get "command"
  if !command.truthy then
    return false
  let script ← mapEach (includes command) ourHookScripts
  let marked ← mapEach (includes command) [marketplaceName, shellPkg]
  return script.any id && marked.any id

/-- `items.some(test)`, which stops at the first item that passes. -/
def someItem (test : JsonVal → Option Bool) : List JsonVal → Option Bool
  | [] => some false
  | item :: items => do
    if ← test item then
      return true
    someItem test items

/-- An entry with one of `OUR_DESCRIPTIONS`. -/
def describedAsOurs (entry : JsonVal) : Bool :=
  match entry.get "description" with
  | some (.str description) => ourDescriptions.contains description
  | _ => false

def isOurHookEntry (entry : JsonVal) : Option Bool := do
  if !entry.truthy then
    return false
  let hooks ← entry.get "hooks"
  if !hooks.truthy then
    return false
  if describedAsOurs entry then
    return true
  match hooks with
  | .arr items => someItem isOurHook items
  | _ => none

/-! ### Removal -/

/-- Our entries, each with the event it is under. -/
def ourEntries (hooks : List (String × JsonVal)) : Option (List (String × JsonVal)) :=
  (mapEach (fun
    | (event, .arr entries) => (filterEach isOurHookEntry entries).map fun ours => ours.map (event, ·)
    | _ => some []) hooks).map List.flatten

/-- What a loop over the events makes of one of them: our entries are taken out, and an array that is left empty is
deleted. -/
def evictEvent : String × JsonVal → Option (Option (String × JsonVal))
  | (event, .arr entries) => do
    let kept ← filterEach (fun entry => (isOurHookEntry entry).map not) entries
    return if kept.isEmpty then none else some (event, .arr kept)
  | field => some (some field)

def evict (hooks : List (String × JsonVal)) : Option (List (String × JsonVal)) :=
  (mapEach evictEvent hooks).map List.reduceOption

/-- `HOOK_TIMEOUT_SECONDS`, of the scripts that are registered. -/
def hookTimeoutSeconds (script : String) : JsonVal :=
  (List.lookup script
    [("pre-edit-guide.js", .num "4"), ("pre-grep-guide.js", .num "3"), ("pre-read-guide.js", .num "3"),
     ("incremental-index.js", .num "10"), ("post-grep-inject.js", .num "5"), ("user-prompt-context.js", .num "5"),
     ("subagent-start.js", .num "3"), ("stop-impact.js", .num "5")]).getD .null

/-- A copy of the plugin. -/
structure Install where
  /-- `PLUGIN_ROOT`. -/
  root : String
  /-- `getPluginVersion()`. -/
  pluginVersion : String
  win32 : Bool

/-- `path.join(root, 'scripts', name)`. -/
def Install.script (install : Install) (name : String) : String :=
  let sep := if install.win32 then '\\' else '/'
  let dir := if install.root.toList.getLast? = some sep then install.root.toList else install.root.toList ++ [sep]
  String.ofList (dir ++ "scripts".toList ++ [sep] ++ name.toList)

/-- The command of `scriptCmd`. -/
def Install.command (install : Install) (name : String) : String :=
  let script := install.script name
  if install.win32 then "node \"" ++ script ++ "\""
  else "if [ -f \"" ++ script ++ "\" ]; then node \"" ++ script ++ "\"; fi"

/-- An entry of `buildSettingsHookEntries`. -/
structure HookSpec where
  description : String
  matcher : String
  name : String
  deriving DecidableEq, Repr

def HookSpec.entry (install : Install) (spec : HookSpec) : JsonVal :=
  .obj [("description", .str spec.description), ("matcher", .str spec.matcher),
    ("hooks", .arr [.obj [("type", .str "command"), ("command", .str (install.command spec.name)),
      ("timeout", hookTimeoutSeconds spec.name)]])]

/-- `buildSettingsHookEntries`, by event. -/
def settingsHookSpecs : List (String × List HookSpec) :=
  [("PreToolUse",
     [⟨SettingsHookDesc.preToolUse, "Edit|Write", "pre-edit-guide.js"⟩,
      ⟨SettingsHookDesc.preToolUse, "Bash", "pre-grep-guide.js"⟩,
      ⟨SettingsHookDesc.preToolUse, "Read", "pre-read-guide.js"⟩]),
   ("PostToolUse",
     [⟨SettingsHookDesc.postToolUseEdit, "Write|Edit", "incremental-index.js"⟩,
      ⟨SettingsHookDesc.postToolUseInject, "Bash", "post-grep-inject.js"⟩]),
   ("UserPromptSubmit", [⟨SettingsHookDesc.userPromptSubmit, "", "user-prompt-context.js"⟩]),
   ("SubagentStart", [⟨SettingsHookDesc.subagentStart, "Explore|Plan|general-purpose", "subagent-start.js"⟩]),
   ("Stop", [⟨SettingsHookDesc.stop, "", "stop-impact.js"⟩])]

/-- Those with the event each is for. -/
def registered : List (String × HookSpec) :=
  settingsHookSpecs.flatMap fun (event, specs) => specs.map (event, ·)

/-! ### Coverage -/

/-- `[^"]+\.js` and the closing quote, behind the opening one. -/
def quotedScript (text : List Char) : Option String :=
  let script := text.takeWhile (· ≠ '"')
  if script.length < text.length ∧ 3 < script.length ∧ ".js".toList <:+ script then some (String.ofList script) else none

/-- `hookCmdScript`. -/
def hookCmdScript : JsonVal → Option (Option String)
  | .str command =>
    some ((leftmost "node \"".toList quotedScript command.toList).or (leftmost "\"".toList quotedScript command.toList))
  | command => if command.truthy then none else some none

/-- `entry.matcher || '*'`, as a text. -/
def matcherText (entry : JsonVal) : Option String := do
  let matcher ← entry.get "matcher"
  if matcher.truthy then matcher.toText else some "*"

/-- `event:matcher`. -/
def coverageKey (event matcher : String) : String :=
  event ++ ":" ++ matcher

/-- `entry.hooks[0].command`, where there is one. -/
def firstCommand (entry : JsonVal) : Option JsonVal := do
  let hooks ← entry.get "hooks"
  if !hooks.truthy then
    return .null
  let first ← hooks.get "0"
  if !first.truthy then
    return .null
  first.get "command"

/-- `e.matcher || '*'` of an entry we write. -/
def HookSpec.matcherText (spec : HookSpec) : String :=
  if spec.matcher = "" then "*" else spec.matcher

/-- The version a registered script is compared with. -/
def Install.desiredVersion (install : Install) (name : String) : String :=
  (((hookCmdScript (.str (install.command name))).join.bind cacheDirVersion)).getD install.pluginVersion

/-- Whether a registered command is stale against the entry of `name`. -/
def isStale (existsSync : String → Bool) (install : Install) (name : String) (command : JsonVal) : Option Bool := do
  let script ← hookCmdScript command
  match script with
  | none => return false
  | some script =>
    if !existsSync script then
      return true
    match cacheDirVersion script with
    | some version => return compareVersions version (install.desiredVersion name) == .lt
    | none => return false

/-- The commands that are registered, each under its key, where a later entry overwrites an earlier one. -/
def presentCmd (present : List String) (commands : List JsonVal) : List (String × JsonVal) :=
  ((present.zip commands).filter fun (_, command) => command.truthy).reverse

/-- The test of `stale` on an expected key, with the script that is to be there. -/
def isStaleKey (existsSync : String → Bool) (install : Install) (presentCmd : List (String × JsonVal))
    (expected : String × String) : Option Bool :=
  match presentCmd.lookup expected.1 with
  | some command => isStale existsSync install expected.2 command
  | none => some false

structure Coverage where
  expected : List String
  present : List String
  missing : List String
  stale : List String
  deriving DecidableEq, Repr

/-- `surveyHookCoverage`, of hooks that are an object. -/
def surveyHookCoverage (existsSync : String → Bool) (install : Install) (hooks : List (String × JsonVal)) :
    Option Coverage := do
  let expected := registered.map fun (event, spec) => (coverageKey event spec.matcherText, spec.name)
  let ours ← ourEntries hooks
  let present ← mapEach (fun (event, entry) => (matcherText entry).map (coverageKey event)) ours
  let commands ← mapEach (fun (_, entry) => firstCommand entry) ours
  let missing := expected.filter fun (key, _) => !present.contains key
  let stale ← filterEach (isStaleKey existsSync install (presentCmd present commands)) expected
  return { expected := expected.map Prod.fst, present, missing := missing.map Prod.fst, stale := stale.map Prod.fst }

/-! ### Registration -/

/-- Every expected entry is there once, and none is stale. -/
def Coverage.isCurrent (survey : Coverage) (oursCount : ℕ) : Bool :=
  survey.missing.isEmpty && survey.stale.isEmpty && oursCount == survey.expected.length

/-- `settings.hooks` where it is a plain object, and an empty one in its place. -/
def hooksObject : Option JsonVal → List (String × JsonVal)
  | some (.obj hooks) => hooks
  | _ => []

/-- `Array.isArray(hooks[event]) ? hooks[event] : []`. -/
def entriesOf (hooks : List (String × JsonVal)) (event : String) : List JsonVal :=
  match hooks.lookup event with
  | some (.arr entries) => entries
  | _ => []

/-- Pass 2 for one event. -/
def writeEvent (install : Install) (hooks : List (String × JsonVal)) (event : String) (specs : List HookSpec) :
    List (String × JsonVal) :=
  setField event (.arr (entriesOf hooks event ++ specs.map (·.entry install))) hooks

/-- Pass 2. -/
def writeEvents (install : Install) (hooks : List (String × JsonVal)) : List (String × JsonVal) :=
  settingsHookSpecs.foldl (fun hooks (event, specs) => writeEvent install hooks event specs) hooks

/-- The hooks that it leaves in the settings, and what it returns. -/
def registerHooksToSettings (existsSync : String → Bool) (install : Install) (hooks : Option JsonVal) :
    Option (List (String × JsonVal) × Bool) := do
  let hooks := hooksObject hooks
  let survey ← surveyHookCoverage existsSync install hooks
  let ours ← ourEntries hooks
  if survey.isCurrent ours.length then
    return (hooks, false)
  let evicted ← evict hooks
  let written := writeEvents install evicted
  return (written, !(JsonVal.obj hooks).same (.obj written))

end CodeGraph.Plugin.Hooks
