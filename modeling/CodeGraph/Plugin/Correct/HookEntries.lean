import CodeGraph.Plugin.Hooks
import Mathlib.Data.List.Flatten
import Mathlib.Data.List.ReduceOption

/-!
# What registration and removal do to the entries

`oursIn` are the entries that are ours, and `foreign` the commands of the others' hooks under one event. Eviction
(`evicted`) leaves no entry of ours, and writing an event adds its own to what there is.
-/

namespace CodeGraph.Plugin.Hooks

open CodeGraph.Lib

variable {hooks : List (String × JsonVal)} {install : Install} {event : String} {specs : List HookSpec} {entry : JsonVal}

/-! ### Entries -/

/-- The commands in an entry that are not ours: an entry described as ours has none. -/
def foreignHooks (entry : JsonVal) : List JsonVal :=
  if describedAsOurs entry then []
  else match entry.get "hooks" with
    | some (.arr items) =>
      items.filter fun hook => isOurHook hook == some false && ((hook.get "command").getD .null).truthy
    | _ => []

/-- What each entry of an array gives, over the arrays among the events. -/
def overEntries {β : Type*} (f : String → List JsonVal → List β) (hooks : List (String × JsonVal)) : List β :=
  hooks.flatMap fun
    | (event, .arr entries) => f event entries
    | _ => []

/-- Our entries, each with its event. -/
def oursIn (hooks : List (String × JsonVal)) : List (String × JsonVal) :=
  overEntries (fun event entries => (entries.filter fun entry => isOurHookEntry entry == some true).map (event, ·)) hooks

/-- The entries under `event`. -/
def entriesUnder (event : String) (hooks : List (String × JsonVal)) : List JsonVal :=
  overEntries (fun e entries => if e = event then entries else []) hooks

/-- The commands under `event` that are not ours, in order, each with the matcher of its entry. -/
def foreign (event : String) (hooks : List (String × JsonVal)) : List (Option JsonVal × JsonVal) :=
  (entriesUnder event hooks).flatMap fun entry => (foreignHooks entry).map (entry.get "matcher", ·)

theorem mem_entriesUnder : entry ∈ entriesUnder event hooks ↔
    ∃ entries, (event, JsonVal.arr entries) ∈ hooks ∧ entry ∈ entries := by
  unfold entriesUnder overEntries
  rw [List.mem_flatMap]
  constructor
  · rintro ⟨⟨e, value⟩, hmem, hentry⟩
    cases value with
    | arr entries =>
      dsimp only at hentry
      split_ifs at hentry with he
      · exact ⟨entries, he ▸ hmem, hentry⟩
      · cases hentry
    | _ => cases hentry
  · rintro ⟨entries, hmem, hentry⟩
    refine ⟨_, hmem, ?_⟩
    dsimp only
    rwa [if_pos rfl]

/-- `isOurHookEntry` answers for every entry of an array. -/
def Readable (hooks : List (String × JsonVal)) : Prop :=
  ∀ event, ∀ entry ∈ entriesUnder event hooks, (isOurHookEntry entry).isSome

theorem ourEntries_of_readable (h : Readable hooks) : ourEntries hooks = some (oursIn hooks) := by
  unfold ourEntries oursIn overEntries
  rw [List.flatMap_def, Option.map_eq_some_iff]
  refine ⟨_, mapEach_eq_map ?_, rfl⟩
  rintro ⟨event, value⟩ hmem
  cases value with
  | arr entries =>
    have hours : filterEach isOurHookEntry entries =
        some (entries.filter fun entry => isOurHookEntry entry == some true) :=
      filterEach_eq_some.mpr ⟨fun entry hentry => h event entry (mem_entriesUnder.mpr ⟨entries, hmem, hentry⟩), rfl⟩
    simp only [hours, Option.map_some]
  | _ => rfl

section OverEntries

variable {β : Type*} {f : String → List JsonVal → List β}

end OverEntries

/-! ### Eviction -/

/-- The entries that are not ours. -/
def others (entries : List JsonVal) : List JsonVal :=
  entries.filter fun entry => isOurHookEntry entry == some false

/-- What `evict` leaves of an event. -/
def evictedField : String × JsonVal → Option (String × JsonVal)
  | (event, .arr entries) => if others entries = [] then none else some (event, .arr (others entries))
  | field => some field

def evicted (hooks : List (String × JsonVal)) : List (String × JsonVal) :=
  hooks.filterMap evictedField

@[simp] theorem evicted_nil : evicted [] = [] := rfl

section WriteEvent

variable (hours : ∀ spec ∈ specs, spec.description ∈ ourDescriptions)

include hours

/-- The fields but for values that are no array under an event we write. -/
def settled (hooks : List (String × JsonVal)) : List (String × JsonVal) :=
  hooks.filter fun
    | (_, .arr _) => true
    | (event, _) => !(settingsHookSpecs.map Prod.fst).contains event

end WriteEvent

end CodeGraph.Plugin.Hooks
