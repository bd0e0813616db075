import CodeGraph.Lib.Sort
import Mathlib.Data.Finset.Card
import Mathlib.Data.Fintype.Basic
import Mathlib.Data.List.FinRange
import Mathlib.Data.List.MinMax
import Mathlib.Data.Prod.Lex
import Mathlib.Data.String.Basic
import Mathlib.Logic.Function.Basic

/-!
# The reading order

`graph/reading_order.rs`: a topological sort of the modules by Kahn's algorithm, which lists a module all the same
when none is free of prerequisites. Modules are told by their position in the order of paths.

The `while` loop runs on fuel. It is a fault to run out of it, and so is the `expect` of the cut.
-/

namespace CodeGraph.Graph.ReadingOrder

open CodeGraph.Lib

structure ModuleStats where
  path : String
  keySymbols : List String

/-- An import: the one module imports the other. -/
structure ModuleDep where
  fromPath : String
  toPath : String

structure EntryPoint where
  file : String

inductive Role
  | entry | foundational | core | mid
  deriving DecidableEq, Repr

/-- `CORE_THRESHOLD`. -/
def coreThreshold : ℕ := 3

structure ReadingOrderEntry where
  path : String
  role : Role
  dependedOnBy : ℕ
  dependsOn : List String
  keySymbols : List String
  inCycle : Bool
  deriving DecidableEq, Repr

inductive Fault
  | noModuleLeft | outOfFuel
  deriving DecidableEq, Repr

/-- `dir_of`. -/
def dirOf (path : String) : String :=
  let back := path.toList.reverse
  if '/' ∈ back then String.ofList (back.dropWhile (· ≠ '/')).tail.reverse else "<root>"

/-! ### The graph -/

/-- The modules in the order of their paths. -/
def sorted (modules : List ModuleStats) : List ModuleStats := sortByKey ModuleStats.path modules

/-- `prereqs` and `dependents`. -/
structure ImportGraph (n : ℕ) where
  prereqs : Fin n → Finset (Fin n)
  dependents : Fin n → List (Fin n)

section Index

variable (mods : List ModuleStats)

/-- `idx.get(path)`: of modules with one path the last has it. -/
def idx (path : String) : Option (Fin mods.length) :=
  (List.finRange mods.length).foldl (fun found i => if (mods.get i).path = path then some i else found) none

/-- The loop over the imports. -/
def addDep (g : ImportGraph mods.length) (d : ModuleDep) : ImportGraph mods.length :=
  match idx mods d.fromPath, idx mods d.toPath with
  | some fi, some ti =>
    if fi = ti ∨ ti ∈ g.prereqs fi then g
    else
      { prereqs := Function.update g.prereqs fi (insert ti (g.prereqs fi))
        dependents := Function.update g.dependents ti (g.dependents ti ++ [fi]) }
  | _, _ => g

def importGraph (deps : List ModuleDep) : ImportGraph mods.length :=
  deps.foldl (addDep mods) ⟨fun _ => ∅, fun _ => []⟩

/-- `is_entry[i]`. -/
def isEntry (entryPoints : List EntryPoint) (i : Fin mods.length) : Bool :=
  entryPoints.any fun ep => idx mods (dirOf ep.file) == some i

end Index

/-! ### The sort -/

variable {n : ℕ}

structure SortState (n : ℕ) where
  indeg : Fin n → ℕ
  emitted : Fin n → Bool
  inCycle : Fin n → Bool
  heap : List (Fin n)
  emitOrder : List (Fin n)

/-- The loop over the dependents of a module that was just listed. -/
def release (s : SortState n) (d : Fin n) : SortState n :=
  if s.emitted d = false ∧ 0 < s.indeg d then
    { s with
      indeg := Function.update s.indeg d (s.indeg d - 1)
      heap := if s.indeg d - 1 = 0 then d :: s.heap else s.heap }
  else s

/-- The module that a cycle is cut at: the smallest remaining indegree, ties by position. -/
def cut (s : SortState n) : Option (Fin n) :=
  ((List.finRange n).filter fun i => !s.emitted i).argmin fun i => toLex (s.indeg i, i)

/-- The module of the next turn: from the heap the smallest, or where that is empty the cut, which is flagged. -/
def pick (s : SortState n) : Option (Fin n × SortState n) :=
  match s.heap.min? with
  | some i => some (i, { s with heap := s.heap.erase i })
  | none => (cut s).map fun i => (i, { s with inCycle := Function.update s.inCycle i true })

/-- List a module. -/
def emit (g : ImportGraph n) (s : SortState n) (i : Fin n) : SortState n :=
  if s.emitted i then s
  else
    (g.dependents i).foldl release
      { s with
        emitted := Function.update s.emitted i true
        emitOrder := s.emitOrder ++ [i] }

/-- One turn of the `while` loop. -/
def step (g : ImportGraph n) (s : SortState n) : Option (SortState n) :=
  (pick s).map fun x => emit g x.2 x.1

def sortLoop (g : ImportGraph n) : ℕ → SortState n → Except Fault (SortState n)
  | fuel, s =>
    if s.emitOrder.length < n then
      match fuel, step g s with
      | 0, _ => .error .outOfFuel
      | _, none => .error .noModuleLeft
      | fuel + 1, some s => sortLoop g fuel s
    else .ok s

def sortStart (g : ImportGraph n) : SortState n where
  indeg i := (g.prereqs i).card
  emitted _ := false
  inCycle _ := false
  heap := (List.finRange n).filter fun i => (g.prereqs i).card = 0
  emitOrder := []

/-- The entry of a module in the result. -/
def entryOf (mods : List ModuleStats) (g : ImportGraph mods.length) (entryPoints : List EntryPoint)
    (s : SortState mods.length) (i : Fin mods.length) : ReadingOrderEntry :=
  let dependsOn := (inOrder (g.prereqs i)).map fun p => (mods.get p).path
  let dependedOnBy := (g.dependents i).length
  { path := (mods.get i).path
    role :=
      if isEntry mods entryPoints i then .entry
      else if dependsOn.isEmpty then .foundational
      else if coreThreshold ≤ dependedOnBy then .core
      else .mid
    dependedOnBy := dependedOnBy
    dependsOn := dependsOn
    keySymbols := (mods.get i).keySymbols
    inCycle := s.inCycle i }

/-- `compute_reading_order`. -/
def computeReadingOrder (fuel : ℕ) (modules : List ModuleStats) (deps : List ModuleDep)
    (entryPoints : List EntryPoint) : Except Fault (List ReadingOrderEntry) :=
  if modules = [] then .ok []
  else
    let mods := sorted modules
    let g := importGraph mods deps
    (sortLoop g fuel (sortStart g)).map fun s => s.emitOrder.map (entryOf mods g entryPoints s)

end CodeGraph.Graph.ReadingOrder
