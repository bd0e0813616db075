import Mathlib.Algebra.BigOperators.Group.List.Basic
import Mathlib.Data.Int.Cast.Lemmas
import Mathlib.Data.List.Infix

/-!
# Segments of a path

A segment goes down to a name, stays, or goes up to where the last name began. `arrive` follows a path and keeps the
names of the way down. What it arrives at is what is left when every segment that stays is dropped and every one that
goes up cancels the name before it (`collapses_iff`), in whatever order that is done. It fails just when the path goes
above its beginning on the way (`arrive_eq_none_iff`).
-/

namespace CodeGraph.Lib

inductive Segment (α : Type*)
  | name (a : α)
  | here
  | up

variable {α : Type*} {a : α} {s t : List (Segment α)} {way way' : List α}

/-- Follow a path. The names of the way come with the last one first, and there is no way up without one. -/
def arrive : List (Segment α) → List α → Option (List α)
  | [], way => some way
  | .name a :: rest, way => arrive rest (a :: way)
  | .here :: rest, way => arrive rest way
  | .up :: rest, _ :: way => arrive rest way
  | .up :: _, [] => none

/-- A path without its `here`s and with every `up` cancelled against the name before it. -/
inductive Collapses : List (Segment α) → List α → Prop
  | names (way : List α) : Collapses (way.map .name) way
  | here {s t : List (Segment α)} {way : List α} : Collapses (s ++ t) way → Collapses (s ++ .here :: t) way
  | up {s t : List (Segment α)} {a : α} {way : List α} :
      Collapses (s ++ t) way → Collapses (s ++ .name a :: .up :: t) way

/-- How far down a segment goes. -/
def Segment.descent : Segment α → ℤ
  | .name _ => 1
  | .here => 0
  | .up => -1

/-- At some point the path is above its beginning. -/
def Climbs (s : List (Segment α)) : Prop := ∃ t, t <+: s ∧ (t.map Segment.descent).sum < 0

theorem arrive_append (s t : List (Segment α)) (way : List α) : arrive (s ++ t) way = (arrive s way).bind (arrive t) := by
  induction s generalizing way with
  | nil => rfl
  | cons x s ih =>
    rw [List.cons_append]
    cases x with
    | name a => exact ih (a :: way)
    | here => exact ih way
    | up =>
      cases way with
      | nil => rfl
      | cons a way => exact ih way

theorem arrive_names (names way : List α) : arrive (names.map .name) way = some (names.reverse ++ way) := by
  induction names generalizing way with
  | nil => rfl
  | cons a names ih =>
    rw [List.map_cons, arrive, ih, List.reverse_cons, List.append_assoc]
    rfl

theorem arrive_here (s t : List (Segment α)) (way : List α) : arrive (s ++ .here :: t) way = arrive (s ++ t) way := by
  rw [arrive_append, arrive_append]
  rfl

theorem arrive_cancel (s t : List (Segment α)) (a : α) (way : List α) :
    arrive (s ++ .name a :: .up :: t) way = arrive (s ++ t) way := by
  rw [arrive_append, arrive_append]
  rfl

theorem arrive_of_collapses (h : Collapses s way) : arrive s [] = some way.reverse := by
  induction h with
  | names way => rw [arrive_names, List.append_nil]
  | here _ ih => rw [arrive_here, ih]
  | up _ ih => rw [arrive_cancel, ih]

/-- The names of the way so far stand before what is still to follow. -/
theorem collapses_of_arrive (s : List (Segment α)) (way : List α) (h : arrive s way = some way') : Collapses (way.reverse.map .name ++ s) way'.reverse := by
  induction s generalizing way with
  | nil =>
    rw [arrive, Option.some.injEq] at h
    rw [h, List.append_nil]
    exact .names _
  | cons x s ih =>
    cases x with
    | name a =>
      have hrest := ih (a :: way) h
      rw [List.reverse_cons, List.map_append, List.append_assoc] at hrest
      exact hrest
    | here => exact .here (ih way h)
    | up =>
      cases way with
      | nil => cases h
      | cons a way =>
        have hrest := Collapses.up (a := a) (ih way h)
        rw [List.reverse_cons, List.map_append, List.append_assoc]
        exact hrest

theorem collapses_iff : Collapses s way ↔ arrive s [] = some way.reverse := by
  constructor
  · exact arrive_of_collapses
  · intro h
    have hcollapses := collapses_of_arrive s [] h
    rwa [List.reverse_reverse] at hcollapses

/-- However a path is collapsed, the same is left. -/
theorem Collapses.unique (h : Collapses s way) (h' : Collapses s way') : way = way' := by
  have heq := (arrive_of_collapses h).symm.trans (arrive_of_collapses h')
  exact List.reverse_injective (Option.some.inj heq)

/-- The names that are left were names of the path. -/
theorem Collapses.name_mem (h : Collapses s way) (ha : a ∈ way) : .name a ∈ s := by
  induction h with
  | names way => exact List.mem_map_of_mem ha
  | here _ ih =>
    rcases List.mem_append.mp (ih ha) with hs | ht
    · exact List.mem_append_left _ hs
    · exact List.mem_append_right _ (List.mem_cons_of_mem _ ht)
  | up _ ih =>
    rcases List.mem_append.mp (ih ha) with hs | ht
    · exact List.mem_append_left _ hs
    · exact List.mem_append_right _ (List.mem_cons_of_mem _ (List.mem_cons_of_mem _ ht))

theorem arrive_eq_none_iff (s : List (Segment α)) (way : List α) :
    arrive s way = none ↔ ∃ t, t <+: s ∧ (way.length : ℤ) + (t.map Segment.descent).sum < 0 := by
  -- the prefixes of `x :: s` are the empty one, which descends from `way` by nothing, and `x` before those of `s`
  have hcons : ∀ (x : Segment α) (s : List (Segment α)) (n : ℕ),
      (∃ t, t <+: x :: s ∧ (n : ℤ) + (t.map Segment.descent).sum < 0) ↔
        ∃ t, t <+: s ∧ (n : ℤ) + x.descent + (t.map Segment.descent).sum < 0 := by
    intro x s n
    constructor
    · rintro ⟨t, ht, hsum⟩
      cases t with
      | nil =>
        rw [List.map_nil, List.sum_nil] at hsum
        omega
      | cons y t =>
        obtain ⟨rfl, hrest⟩ := List.cons_prefix_cons.mp ht
        rw [List.map_cons, List.sum_cons, ← add_assoc] at hsum
        exact ⟨t, hrest, hsum⟩
    · rintro ⟨t, ht, hsum⟩
      refine ⟨x :: t, List.cons_prefix_cons.mpr ⟨rfl, ht⟩, ?_⟩
      rwa [List.map_cons, List.sum_cons, ← add_assoc]
  induction s generalizing way with
  | nil =>
    refine iff_of_false (by simp [arrive]) ?_
    rintro ⟨t, ht, hsum⟩
    rw [List.prefix_nil.mp ht, List.map_nil, List.sum_nil] at hsum
    omega
  | cons x s ih =>
    rw [hcons]
    cases x with
    | name a =>
      refine (ih (a :: way)).trans ?_
      rw [List.length_cons, Nat.cast_succ]
      exact Iff.rfl
    | here =>
      refine (ih way).trans ?_
      simp only [Segment.descent, add_zero]
    | up =>
      cases way with
      | nil =>
        refine iff_of_true rfl ⟨[], List.nil_prefix, ?_⟩
        simp [Segment.descent]
      | cons a way =>
        refine (ih way).trans ?_
        simp only [List.length_cons, Nat.cast_succ, Segment.descent, add_neg_cancel_right]

/-- A path that does not climb arrives. -/
theorem climbs_iff : Climbs s ↔ arrive s [] = none := by
  rw [arrive_eq_none_iff, Climbs]
  simp only [List.length_nil, Nat.cast_zero, zero_add]

end CodeGraph.Lib
