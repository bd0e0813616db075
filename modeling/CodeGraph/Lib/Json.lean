import Mathlib.Data.List.Basic

/-!
# JSON values as a script reads them

A value of `JSON.parse`, with the reads a script makes of it. An absent property reads as `null` does, and a read
that would throw a `TypeError` is `none`. `filterEach` is `Array.prototype.filter` with a test that may throw.

An object keeps its fields in the order in which they are enumerated; a number keeps its text.
-/

namespace CodeGraph.Lib

inductive JsonVal
  | null
  | bool (b : Bool)
  | num (text : String)
  | str (text : String)
  | arr (items : List JsonVal)
  | obj (fields : List (String × JsonVal))
  deriving Repr

namespace JsonVal

/-- What a value counts as in a condition. -/
def truthy : JsonVal → Bool
  | null => false
  | bool b => b
  | num text => text != "0"
  | str text => text != ""
  | arr _ | obj _ => true

/-- `value[key]`, for the keys that no prototype has. -/
def get : JsonVal → String → Option JsonVal
  | null, _ => none
  | obj fields, key => some ((fields.lookup key).getD null)
  | arr items, "0" => some (items.head?.getD null)
  | str text, "0" => some ((text.toList.head?.map fun c => str (String.singleton c)).getD null)
  | _, _ => some null

mutual

/-- The text of a value in a template. An object with a `toString` of its own has none. -/
def toText : JsonVal → Option String
  | null => some "null"
  | bool b => some (if b then "true" else "false")
  | num text | str text => some text
  | arr items => (itemTexts items).map (",".intercalate ·)
  | obj fields => if (fields.lookup "toString").isSome then none else some "[object Object]"

/-- Those of the items of an array; `null` has an empty one there. -/
def itemTexts : List JsonVal → Option (List String)
  | [] => some []
  | null :: items => (itemTexts items).map ("" :: ·)
  | item :: items => do
    let text ← toText item
    let texts ← itemTexts items
    return text :: texts

end

mutual

/-- Whether two values have the same `JSON.stringify`. -/
def same : JsonVal → JsonVal → Bool
  | null, null => true
  | bool a, bool b => a == b
  | num a, num b | str a, str b => a == b
  | arr as, arr bs => sameItems as bs
  | obj as, obj bs => sameFields as bs
  | _, _ => false

def sameItems : List JsonVal → List JsonVal → Bool
  | [], [] => true
  | a :: as, b :: bs => same a b && sameItems as bs
  | _, _ => false

def sameFields : List (String × JsonVal) → List (String × JsonVal) → Bool
  | [], [] => true
  | (j, a) :: as, (k, b) :: bs => j == k && same a b && sameFields as bs
  | _, _ => false

end

mutual

theorem same_self : ∀ a : JsonVal, same a a = true
  | null => by simp [same]
  | bool _ => by simp [same]
  | num _ => by simp [same]
  | str _ => by simp [same]
  | arr items => by simpa [same] using sameItems_self items
  | obj fields => by simpa [same] using sameFields_self fields

theorem sameItems_self : ∀ items : List JsonVal, sameItems items items = true
  | [] => by simp [sameItems]
  | a :: as => by simp [sameItems, same_self a, sameItems_self as]

theorem sameFields_self : ∀ fields : List (String × JsonVal), sameFields fields fields = true
  | [] => by simp [sameFields]
  | (k, a) :: as => by simp [sameFields, same_self a, sameFields_self as]

end

mutual

theorem eq_of_same : ∀ a b : JsonVal, same a b = true → a = b
  | arr as, b, h => by
    cases b <;> simp [same] at h
    rw [eq_of_sameItems as _ h]
  | obj as, b, h => by
    cases b <;> simp [same] at h
    rw [eq_of_sameFields as _ h]
  | null, b, h => by cases b <;> simp [same] at h ⊢
  | bool _, b, h => by cases b <;> simp [same] at h ⊢; exact h
  | num _, b, h => by cases b <;> simp [same] at h ⊢; exact h
  | str _, b, h => by cases b <;> simp [same] at h ⊢; exact h

theorem eq_of_sameItems : ∀ as bs : List JsonVal, sameItems as bs = true → as = bs
  | [], bs, h => by cases bs <;> simp [sameItems] at h ⊢
  | a :: as, bs, h => by
    cases bs <;> simp [sameItems] at h
    rw [eq_of_same a _ h.1, eq_of_sameItems as _ h.2]

theorem eq_of_sameFields : ∀ as bs : List (String × JsonVal), sameFields as bs = true → as = bs
  | [], bs, h => by cases bs <;> simp [sameFields] at h ⊢
  | (k, a) :: as, bs, h => by
    match bs with
    | [] => simp [sameFields] at h
    | (k', b) :: bs =>
      simp [sameFields] at h
      rw [h.1.1, eq_of_same a _ h.1.2, eq_of_sameFields as _ h.2]

end

theorem same_iff {a b : JsonVal} : same a b = true ↔ a = b :=
  ⟨eq_of_same a b, fun h => h ▸ same_self a⟩

end JsonVal

/-- `fields[key] = value`. -/
def setField {β : Type*} (key : String) (value : β) : List (String × β) → List (String × β)
  | [] => [(key, value)]
  | (k, v) :: fields => if k = key then (k, value) :: fields else (k, v) :: setField key value fields

section Each

variable {α β : Type*}

/-- The items that pass the test, unless it throws at one of them. -/
def filterEach (test : α → Option Bool) : List α → Option (List α)
  | [] => some []
  | a :: as =>
    (test a).bind fun passes => (filterEach test as).map fun kept => if passes then a :: kept else kept

/-- What `f` makes of each item, unless it throws at one of them. -/
def mapEach (f : α → Option β) : List α → Option (List β)
  | [] => some []
  | a :: as => (f a).bind fun b => (mapEach f as).map fun bs => b :: bs

variable {test : α → Option Bool} {f : α → Option β} {items kept : List α} {out : List β}

theorem filterEach_eq_some :
    filterEach test items = some kept ↔
      (∀ a ∈ items, (test a).isSome) ∧ kept = items.filter fun a => test a == some true := by
  induction items generalizing kept with
  | nil =>
    constructor
    · intro h
      cases h
      exact ⟨nofun, rfl⟩
    · rintro ⟨-, rfl⟩
      rfl
  | cons a as ih =>
    cases htest : test a with
    | none => simp [filterEach, htest]
    | some passes =>
      simp only [filterEach, htest, Option.bind_some, Option.map_eq_some_iff, ih,
        List.forall_mem_cons, Option.isSome_some, true_and, List.filter_cons]
      constructor
      · rintro ⟨rest, ⟨hall, rfl⟩, h⟩
        cases h
        refine ⟨hall, ?_⟩
        cases passes <;> simp
      · rintro ⟨hall, rfl⟩
        refine ⟨_, ⟨hall, rfl⟩, ?_⟩
        cases passes <;> simp

theorem filterEach_eq_nil (h : ∀ a ∈ items, test a = some false) : filterEach test items = some [] := by
  rw [filterEach_eq_some]
  constructor
  · intro a ha
    rw [h a ha]
    rfl
  · rw [eq_comm, List.filter_eq_nil_iff]
    intro a ha
    rw [h a ha]
    decide

theorem mapEach_eq_some : mapEach f items = some out ↔ items.map f = out.map some := by
  induction items generalizing out with
  | nil => cases out <;> simp [mapEach]
  | cons a as ih =>
    cases hf : f a with
    | none => cases out <;> simp [mapEach, hf]
    | some b =>
      simp only [mapEach, hf, Option.bind_some, Option.map_eq_some_iff, ih, List.map_cons]
      constructor
      · rintro ⟨rest, hrest, h⟩
        cases h
        rw [hrest, List.map_cons]
      · intro h
        cases out with
        | nil => cases h
        | cons c rest =>
          obtain ⟨hc, hrest⟩ := List.cons.inj h
          exact ⟨rest, hrest, by rw [Option.some.inj hc]⟩

theorem mapEach_eq_map {g : α → β} (h : ∀ a ∈ items, f a = some (g a)) : mapEach f items = some (items.map g) := by
  rw [mapEach_eq_some, List.map_map]
  exact List.map_congr_left h

end Each

end CodeGraph.Lib
