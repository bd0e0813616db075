import CodeGraph.Lib.Json
import CodeGraph.Lib.Lines
import CodeGraph.Lib.Run
import CodeGraph.Lib.Words
import CodeGraph.Plugin.Adopt

/-!
# The stub that stands in for the server

`serveEmptyMcpStub` of `mcp-stub.js`: it answers the client itself, and where it may upgrade it polls until the real
binary can be spawned, replays the client's `initialize` to the child under an id of its own, and from then on passes
the lines of the two through.

A step is one callback: a chunk of the client or of a child, the end of the client's input, a tick of the poll timer,
a nudge through the exported `attemptUpgrade`, an `error` or an `exit` of a child. Children are numbered in the order in
which they are spawned, and a child that was given up can still be heard of. What `shouldUpgrade` and `spawnReal` answer
is part of the action. What is written to `stderr` is left out.

`parse` stands for `JSON.parse`; a value that is written stands for its `JSON.stringify`.
-/

namespace CodeGraph.Plugin.McpStub

open CodeGraph.Lib
open CodeGraph.Plugin.Adopt (jsSpace)

/-- `DEFAULT_POLL_MS`. -/
def defaultPollMs : ℕ := 4000

/-- `MAX_UPGRADE_FAILURES`. -/
def maxUpgradeFailures : ℕ := 15

/-- `SENTINEL_ID`. -/
def sentinelId : JsonVal := .num "2147483646"

abbrev Line := List Char

/-- `opts.upgrade`, less its two callbacks. -/
structure Upgrade where
  hint : Option String
  backoff : Bool
  pollMs : ℕ

/-- `upgrade.pollMs || DEFAULT_POLL_MS` -/
def Upgrade.interval (upgrade : Upgrade) : ℕ := if upgrade.pollMs = 0 then defaultPollMs else upgrade.pollMs

/-- The most ticks that are passed over between two probes. -/
def Upgrade.backoffCap (upgrade : Upgrade) : ℕ := max 1 (60000 / upgrade.interval - 1)

/-! ### Messages -/

/-- `req.method`, where `req` is truthy and it is a string. -/
def methodOf : JsonVal → Option String
  | .obj fields =>
    match fields.lookup "method" with
    | some (.str name) => some name
    | _ => none
  | _ => none

/-- `value[key]`, where it is there. -/
def field (key : String) : JsonVal → Option JsonVal
  | .obj fields => fields.lookup key
  | _ => none

def stubInitializeResult (upgrade : Option Upgrade) : JsonVal :=
  .obj [("protocolVersion", .str "2024-11-05"),
    ("capabilities", .obj [("tools", .obj [("listChanged", .bool upgrade.isSome)])]),
    ("serverInfo", .obj [
      ("name", .str (if upgrade.isSome then "code-graph-mcp (plugin stub, upgrading)"
        else "code-graph-mcp (plugin stub, dedup)")),
      ("version", .str "0.31.1")])]

/-- The message of the error for any other method. -/
def notFound : Option Upgrade → String
  | some upgrade =>
    "method not found (plugin MCP stub; " ++
      (match upgrade.hint with
        | none | some "" => "upgrades when cwd becomes a project"
        | some hint => hint) ++ ")"
  | none => "method not found (plugin MCP is in dedup stub mode)"

/-- What `answerAsStub` writes: nothing for a notification. -/
def answerAsStub (upgrade : Option Upgrade) (req : JsonVal) : Option JsonVal :=
  (field "id" req).map fun id =>
    let success (result : JsonVal) : JsonVal := .obj [("jsonrpc", .str "2.0"), ("id", id), ("result", result)]
    match methodOf req with
    | some "initialize" => success (stubInitializeResult upgrade)
    | some "tools/list" => success (.obj [("tools", .arr [])])
    | some "resources/list" => success (.obj [("resources", .arr [])])
    | some "prompts/list" => success (.obj [("prompts", .arr [])])
    | _ => .obj [("jsonrpc", .str "2.0"), ("id", id),
        ("error", .obj [("code", .num "-32601"), ("message", .str (notFound upgrade))])]

/-- A request is a value with a method. -/
def request (parse : Line → Option JsonVal) (line : Line) : Option JsonVal :=
  (parse line).filter fun req => (methodOf req).isSome

/-- What the stub writes for a line that it handles itself. -/
def reply (parse : Line → Option JsonVal) (upgrade : Option Upgrade) (line : Line) : Option JsonVal :=
  (request parse line).bind (answerAsStub upgrade)

/-- `(savedInitialize && savedInitialize.params) || …` -/
def initializeParams (savedInitialize : Option JsonVal) : JsonVal :=
  match (savedInitialize.bind (field "params")).filter JsonVal.truthy with
  | some params => params
  | none => .obj [("protocolVersion", .str "2024-11-05"), ("capabilities", .obj []),
      ("clientInfo", .obj [("name", .str "code-graph-plugin-launcher"), ("version", .str "0")])]

def initializeMessage (savedInitialize : Option JsonVal) : JsonVal :=
  .obj [("jsonrpc", .str "2.0"), ("id", sentinelId), ("method", .str "initialize"),
    ("params", initializeParams savedInitialize)]

def initializedMessage : JsonVal :=
  .obj [("jsonrpc", .str "2.0"), ("method", .str "notifications/initialized")]

def listChangedMessage : JsonVal :=
  .obj [("jsonrpc", .str "2.0"), ("method", .str "notifications/tools/list_changed")]

/-- `msg && msg.id === SENTINEL_ID` -/
def isSentinelReply (msg : Option JsonVal) : Bool :=
  match msg.bind (field "id") with
  | some (.num id) => id = "2147483646"
  | _ => false

/-! ### State -/

/-- What is written, in the order in which it is. -/
inductive Effect
  /-- The stub answers the client. -/
  | answer (value : JsonVal)
  /-- The stub tells the client that the tools changed. -/
  | notify (value : JsonVal)
  /-- A line of a child for the client. -/
  | forward (line : Line)
  /-- A message of the stub's own to a child. -/
  | handshake (child : ℕ) (value : JsonVal)
  /-- A line of the client for a child. -/
  | send (child : ℕ) (line : Line)

structure State where
  buf : List Char
  savedInitialize : Option JsonVal
  child : Option ℕ
  childReady : Bool
  queuedForChild : List Line
  /-- Whether the poll timer is set. -/
  poller : Bool
  upgradeFailures : ℕ
  backoffTicks : ℕ
  backoffNext : ℕ
  /-- How many children have been spawned. -/
  spawned : ℕ
  /-- The `cbuf` of every child. -/
  childBuf : ℕ → List Char
  /-- The children whose `stdin` was ended. -/
  endedStdin : List ℕ
  /-- The client closed its end. -/
  ended : Bool
  exited : Bool
  log : List Effect

/-- What `upgrade` answers an attempt. -/
inductive Probe
  /-- `shouldUpgrade` is false. -/
  | notYet
  /-- `spawnReal` throws. -/
  | threw
  /-- `spawnReal` returns null. -/
  | unresolved
  | spawned

inductive Action
  | data (chunk : List Char)
  | endInput
  | tick (probe : Probe)
  | nudge (probe : Probe)
  | childData (child : ℕ) (chunk : List Char)
  | childError (child : ℕ)
  | childExit (child : ℕ)

namespace State

def init (upgrade : Option Upgrade) : State where
  buf := []
  savedInitialize := none
  child := none
  childReady := false
  queuedForChild := []
  poller := upgrade.isSome
  upgradeFailures := 0
  backoffTicks := 0
  backoffNext := 1
  spawned := 0
  childBuf := fun _ => []
  endedStdin := []
  ended := false
  exited := false
  log := []

def write (s : State) (effects : List Effect) : State := { s with log := s.log ++ effects }

/-- A write to a child; one behind `stdin.end()` is lost. -/
def writeChild (s : State) (child : ℕ) (effects : List Effect) : State :=
  if child ∈ s.endedStdin then s else s.write effects

/-! ### Client -/

section Client

variable (parse : Line → Option JsonVal) (upgrade : Option Upgrade)

def handle (s : State) (line : Line) : State :=
  s.write ((reply parse upgrade line).toList.map .answer)

/-- A line of the client. -/
def takeLine (s : State) (line : Line) : State :=
  let line := trim jsSpace line
  if line = [] then s
  else match s.child with
    | some child =>
      if s.childReady then s.writeChild child [.send child line]
      else { s with queuedForChild := s.queuedForChild ++ [line] }
    | none =>
      let saved := (request parse line).filter fun req => methodOf req = some "initialize"
      { s with savedInitialize := saved.or s.savedInitialize }.handle parse upgrade line

def data (s : State) (chunk : List Char) : State :=
  let (ls, rest) := lines '\n' (s.buf ++ chunk)
  ls.foldl (takeLine parse upgrade) { s with buf := rest }

def endInput (s : State) : State :=
  match s.child with
  | some child => { s with ended := true, endedStdin := child :: s.endedStdin }
  | none => { s with ended := true, exited := true }

/-! ### Upgrade -/

/-- From the cap on the timer is cleared. -/
def noteUpgradeFailure (s : State) : State :=
  { s with
    upgradeFailures := s.upgradeFailures + 1
    poller := s.poller && decide (s.upgradeFailures + 1 < maxUpgradeFailures) }

def beginProxy (s : State) (child : ℕ) : State :=
  s.writeChild child [.handshake child (initializeMessage s.savedInitialize)]

def attemptUpgrade (s : State) (probe : Probe) : State :=
  match s.child, upgrade with
  | none, some upgrade =>
    match probe with
    | .notYet =>
      if upgrade.backoff then
        { s with backoffTicks := s.backoffNext, backoffNext := min (s.backoffNext * 2) upgrade.backoffCap }
      else s
    | .threw => { s with backoffTicks := 0, backoffNext := 1 }.noteUpgradeFailure
    | .unresolved => s.noteUpgradeFailure
    | .spawned => { s with poller := false, child := some s.spawned, spawned := s.spawned + 1 }.beginProxy s.spawned
  | _, _ => s

def pollTick (s : State) (probe : Probe) : State :=
  if 0 < s.backoffTicks then { s with backoffTicks := s.backoffTicks - 1 } else s.attemptUpgrade upgrade probe

/-- The child is given up before it was ready; the stub handles what waits for it. -/
def fallBackToStub (s : State) : State :=
  let s := s.queuedForChild.foldl (handle parse upgrade)
    { s with queuedForChild := [], child := none, childReady := false }
  { s with poller := s.poller || upgrade.isSome }.noteUpgradeFailure

/-! ### Child -/

/-- A line of a child; the reply to the replayed `initialize` ends the handshake. -/
def takeChildLine (child : ℕ) (s : State) (line : Line) : State :=
  if trim jsSpace line = [] then s
  else if isSentinelReply (parse line) then
    let s := s.writeChild child [.handshake child initializedMessage]
    let s := s.writeChild child (s.queuedForChild.map (.send child))
    { s with childReady := true, queuedForChild := [] }.write [.notify listChangedMessage]
  else s.write [.forward line]

def childData (s : State) (child : ℕ) (chunk : List Char) : State :=
  let (ls, rest) := lines '\n' (s.childBuf child ++ chunk)
  ls.foldl (takeChildLine parse child) { s with childBuf := Function.update s.childBuf child rest }

/-- An `error` or an `exit`: one of a child that is no longer ours is ignored. -/
def childGone (s : State) (child : ℕ) : State :=
  if s.child ≠ some child then s
  else if s.childReady then { s with exited := true }
  else s.fallBackToStub parse upgrade

end Client

end State

/-- A callback; none comes once the process has exited. -/
def step (parse : Line → Option JsonVal) (upgrade : Option Upgrade) (s : State) (a : Action) : Option State :=
  if s.exited then none
  else match a with
    | .data chunk => if s.ended then none else some (s.data parse upgrade chunk)
    | .endInput => if s.ended then none else some s.endInput
    | .tick probe => if s.poller then some (s.pollTick upgrade probe) else none
    | .nudge probe => some (s.attemptUpgrade upgrade probe)
    | .childData child chunk => if child < s.spawned then some (s.childData parse child chunk) else none
    | .childError child | .childExit child =>
      if child < s.spawned then some (s.childGone parse upgrade child) else none

end CodeGraph.Plugin.McpStub
