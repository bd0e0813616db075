import CodeGraph.Lib.Run
import CodeGraph.Lib.Texts
import CodeGraph.Lib.Words
import Mathlib.Data.Finset.Insert
import Mathlib.Data.Nat.Digits.Lemmas

/-!
# The index-run in-flight marker

`pipeline/in_flight.rs`. A run adds its token to the value of the meta row `index_run_in_flight` and
holds `index-run.lock` shared from before that until after the token is removed again. A probe takes
the lock exclusive, and then reads every token of the marker as that of a dead run.

The marker is a text edited by single SQL statements, modelled as functions on `Option Text` (the row
is there or not): `appendToken` is the upsert of `begin`, `retireToken` the `UPDATE` of `retire` and
`dropEmpty` its `DELETE`.

Processes interleave at the granularity of one lock operation or one statement. A process is a thread
of control with a program counter `Op`; the runs it has in flight are its `marks`. Each run opens the
lock file for itself, so the shared holds are told apart by the tokens of the runs.
-/

namespace CodeGraph.Pipeline.InFlight

open CodeGraph.Lib

/-- A text as SQLite and Rust see it: a sequence of characters. -/
abbrev Text := List Char

/-- Rust's `char::is_whitespace`: the characters with the Unicode property `White_Space`. -/
def isWhitespace (c : Char) : Bool :=
  let n := c.toNat
  (9 ≤ n && n ≤ 13) || n == 32 || n == 0x85 || n == 0xA0 || n == 0x1680 ||
    (0x2000 ≤ n && n ≤ 0x200A) || n == 0x2028 || n == 0x2029 || n == 0x202F || n == 0x205F ||
    n == 0x3000

/-- A token of the marker: what `split_whitespace` yields, so non-empty and free of whitespace. -/
structure Token where
  text : Text
  ne_nil : text ≠ []
  solid : ∀ c ∈ text, isWhitespace c = false
  deriving DecidableEq

/-- `str::split_whitespace`. -/
def splitWhitespace (s : Text) : List Token :=
  (words isWhitespace s).attach.map fun w =>
    ⟨w.1, ne_nil_of_mem_words w.2, fun _ hc => sep_eq_false_of_mem_words w.2 hc⟩

/-- SQLite's `TRIM`, which takes spaces only. -/
def sqlTrim (s : Text) : Text := trim (· == ' ') s

/-! ### The statements on the marker -/

/-- `INSERT … ON CONFLICT(key) DO UPDATE SET value = value || ' ' || excluded.value`. -/
def appendToken (t : Token) : Option Text → Option Text
  | none => some t.text
  | some v => some (v ++ ' ' :: t.text)

/-- `UPDATE … SET value = TRIM(REPLACE(' ' || value || ' ', ' ' || ?2 || ' ', ' '))`. -/
def retireToken (t : Token) (marker : Option Text) : Option Text :=
  marker.map fun v => sqlTrim (replace (' ' :: (t.text ++ [' '])) [' '] (' ' :: (v ++ [' '])))

/-- `DELETE … WHERE TRIM(value) = ''`. -/
def dropEmpty (marker : Option Text) : Option Text :=
  marker.filter fun v => sqlTrim v ≠ []

/-- What `dead_runs` makes of the value it read. -/
def tokens (marker : Option Text) : List Token := splitWhitespace (marker.getD [])

/-! ### Processes -/

/-- Where a process is inside the operation it is running. -/
inductive Op
  | idle
  /-- `begin` has the shared hold; the token is not in the marker yet. -/
  | beginning (t : Token)
  /-- `retire` has these tokens left to remove. `finishing` is the run's own mark when the call is
  that of `finish`, whose hold goes when it returns. -/
  | retiring (todo : List Token) (finishing : Option Token)
  /-- `finish` is past its statements; the mark is about to be dropped. -/
  | releasing (t : Token)
  /-- `dead_runs` has the exclusive lock and has not read the marker. -/
  | probing
  /-- `dead_runs` has read the marker and still has the lock. -/
  | probed (found : List Token)
  deriving DecidableEq

/-- A process: its program counter, the `RunMark`s it owns and the answers `dead_runs` gave it. -/
structure Proc where
  op : Op
  marks : Finset Token
  dead : List (List Token)

/-- A process that has done nothing. -/
def Proc.start : Proc := ⟨.idle, ∅, []⟩

variable {Pid : Type*} [DecidableEq Pid]

/-- The marker, the lock and the processes. -/
structure State (Pid : Type*) where
  marker : Option Text
  /-- The runs whose shared hold on the lock file is open. -/
  shared : Finset Token
  /-- The process whose probe has the lock exclusive. -/
  exclusive : Option Pid
  procs : Pid → Proc
  /-- The tokens that were ever in use: a new run's is none of them. -/
  used : Finset Token

/-- The state before any process of the run: a marker that older runs may have left. -/
def State.init (marker : Option Text) : State Pid where
  marker := marker
  shared := ∅
  exclusive := none
  procs := fun _ => .start
  used := (tokens marker).toFinset

/-- One lock operation, one statement, or a way a run can die. -/
inductive Action (Pid : Type*)
  /-- `begin`: `hold_shared`, and the choice of the token. -/
  | takeShared (p : Pid) (t : Token)
  /-- `begin`: the upsert. -/
  | insert (p : Pid)
  /-- `finish` is called on the mark of `t`. -/
  | finish (p : Pid) (t : Token)
  /-- `retire` is called on an answer of `dead_runs`. -/
  | retire (p : Pid) (ts : List Token)
  /-- `retire`: the `UPDATE` for the next token. -/
  | update (p : Pid)
  /-- `retire`: the `DELETE`. -/
  | delete (p : Pid)
  /-- `finish`: the hold goes with the mark. -/
  | release (p : Pid)
  /-- `dead_runs`: `probe_exclusive`. -/
  | probe (p : Pid)
  /-- `dead_runs`: `get_meta`. -/
  | read (p : Pid)
  /-- `dead_runs`: the lock is dropped and the answer returned. -/
  | answer (p : Pid)
  /-- A `RunMark` is dropped without `finish`. -/
  | drop (p : Pid) (t : Token)
  /-- The statement `begin`, `finish`, `retire` or `dead_runs` is at fails and the call returns an
  error, dropping the mark or the lock it holds. -/
  | fail (p : Pid)
  /-- The process is killed. -/
  | kill (p : Pid)
  deriving DecidableEq

/-- The mark an operation owns while it runs, besides the finished ones in `Proc.marks`. -/
def Op.mark : Op → Option Token
  | .beginning t => some t
  | .retiring _ f => f
  | .releasing t => some t
  | .idle | .probing | .probed _ => none

/-- The runs of a process whose `RunMark`, and so whose hold, exists. -/
def Proc.live (c : Proc) : Finset Token := c.marks ∪ c.op.mark.toFinset

/-- The state with process `p` at `c`. -/
def State.setProc (s : State Pid) (p : Pid) (c : Proc) : State Pid :=
  { s with procs := Function.update s.procs p c }

/-- `exclusive` once `p` has let go of every lock. -/
def State.exclusiveWithout (s : State Pid) (p : Pid) : Option Pid :=
  if s.exclusive = some p then none else s.exclusive

/-- One step, or `none` where the action is not enabled. -/
def step (s : State Pid) : Action Pid → Option (State Pid)
  | .takeShared p t =>
    let c := s.procs p
    -- A shared try conflicts with an exclusive holder only: `hold_shared` waits it out.
    if c.op = .idle ∧ s.exclusive = none ∧ t ∉ s.used then
      some { s.setProc p { c with op := .beginning t } with
        shared := insert t s.shared
        used := insert t s.used }
    else none
  | .insert p =>
    let c := s.procs p
    match c.op with
    | .beginning t =>
      some { s.setProc p { c with op := .idle, marks := insert t c.marks } with
        marker := appendToken t s.marker }
    | _ => none
  | .finish p t =>
    let c := s.procs p
    if c.op = .idle ∧ t ∈ c.marks then
      some (s.setProc p { c with op := .retiring [t] (some t), marks := c.marks.erase t })
    else none
  | .retire p ts =>
    let c := s.procs p
    if c.op = .idle ∧ ts ∈ c.dead then
      some (s.setProc p { c with op := .retiring ts none })
    else none
  | .update p =>
    let c := s.procs p
    match c.op with
    | .retiring (t :: ts) f =>
      some { s.setProc p { c with op := .retiring ts f } with marker := retireToken t s.marker }
    | _ => none
  | .delete p =>
    let c := s.procs p
    match c.op with
    | .retiring [] (some t) =>
      some { s.setProc p { c with op := .releasing t } with marker := dropEmpty s.marker }
    | .retiring [] none =>
      some { s.setProc p { c with op := .idle } with marker := dropEmpty s.marker }
    | _ => none
  | .release p =>
    let c := s.procs p
    match c.op with
    | .releasing t =>
      some { s.setProc p { c with op := .idle } with shared := s.shared.erase t }
    | _ => none
  | .probe p =>
    let c := s.procs p
    if c.op = .idle then
      -- An exclusive try conflicts with every holder, the process's own runs included.
      if s.shared = ∅ ∧ s.exclusive = none then
        some { s.setProc p { c with op := .probing } with exclusive := some p }
      else some s
    else none
  | .read p =>
    let c := s.procs p
    match c.op with
    | .probing => some (s.setProc p { c with op := .probed (tokens s.marker) })
    | _ => none
  | .answer p =>
    let c := s.procs p
    match c.op with
    | .probed found =>
      let dead := if found = [] then c.dead else found :: c.dead
      some { s.setProc p { c with op := .idle, dead := dead } with
        exclusive := s.exclusiveWithout p }
    | _ => none
  | .drop p t =>
    let c := s.procs p
    if c.op = .idle ∧ t ∈ c.marks then
      some { s.setProc p { c with marks := c.marks.erase t } with shared := s.shared.erase t }
    else none
  | .fail p =>
    let c := s.procs p
    some { s.setProc p { c with op := .idle } with
      shared := s.shared \ c.op.mark.toFinset
      exclusive := s.exclusiveWithout p }
  | .kill p =>
    let c := s.procs p
    some { s.setProc p .start with
      shared := s.shared \ c.live
      exclusive := s.exclusiveWithout p }

/-! ### Tokens a run is named by -/

/-- The token of the run that is the `seq`-th of process `pid`, begun `nanos` after the epoch:
`format!("{}-{nanos}-{}", …)`. -/
def runToken (pid nanos seq : ℕ) : Token where
  text := Nat.toDigits 10 pid ++ '-' :: (Nat.toDigits 10 nanos ++ '-' :: Nat.toDigits 10 seq)
  ne_nil := by simp
  solid := by
    have hdig : ∀ {n : ℕ} {c : Char}, c ∈ Nat.toDigits 10 n → isWhitespace c = false := by
      intro n c hc
      have h := Nat.isDigit_of_mem_toDigits (by decide) (by decide) hc
      rw [Char.isDigit, Bool.and_eq_true, decide_eq_true_eq, decide_eq_true_eq] at h
      have h1 : 48 ≤ c.toNat := h.1
      have h2 : c.toNat ≤ 57 := h.2
      simp only [isWhitespace, Bool.or_eq_false_iff, Bool.and_eq_false_iff, beq_eq_false_iff_ne,
        decide_eq_false_iff_not]
      omega
    intro c hc
    rcases List.mem_append.mp hc with hc | hc
    · exact hdig hc
    rcases List.mem_cons.mp hc with rfl | hc
    · decide
    rcases List.mem_append.mp hc with hc | hc
    · exact hdig hc
    rcases List.mem_cons.mp hc with rfl | hc
    · decide
    · exact hdig hc

end CodeGraph.Pipeline.InFlight
