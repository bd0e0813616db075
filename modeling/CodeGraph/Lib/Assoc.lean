import Mathlib.Data.List.AList

/-!
# Batches of writes to a keyed table

A table with a primary key is an `AList`. A batch of `INSERT OR REPLACE`s is `insertAll`, a batch of
deletes `eraseAll`. What a batch leaves at a key is one of its own values or what was there before.
-/

namespace CodeGraph.Lib

variable {α β : Type*} [DecidableEq α]

/-- Write the entries in turn, a later one over an earlier one. -/
def insertAll (es : List (α × β)) (s : AList fun _ : α => β) : AList fun _ : α => β :=
  es.foldl (fun s e => s.insert e.1 e.2) s

/-- Delete the keys in turn. -/
def eraseAll (ks : List α) (s : AList fun _ : α => β) : AList fun _ : α => β :=
  ks.foldl (fun s k => s.erase k) s

variable {es : List (α × β)} {ks : List α} {s : AList fun _ : α => β} {a : α} {b : β}

theorem mem_of_lookup_insertAll (h : (insertAll es s).lookup a = some b) :
    (a, b) ∈ es ∨ s.lookup a = some b := by
  induction es generalizing s with
  | nil => exact .inr h
  | cons e es ih =>
    rcases ih h with hmem | hs
    · exact .inl (List.mem_cons_of_mem e hmem)
    · by_cases hae : a = e.1
      · left
        subst hae
        rw [AList.lookup_insert] at hs
        rw [← Option.some_inj.mp hs]
        exact List.mem_cons_self
      · right
        rwa [AList.lookup_insert_ne hae] at hs

theorem isSome_lookup_insertAll (h : (a, b) ∈ es ∨ s.lookup a = some b) :
    ((insertAll es s).lookup a).isSome := by
  induction es generalizing s b with
  | nil =>
    rcases h with h | h
    · cases h
    · rw [insertAll, List.foldl_nil, h]
      rfl
  | cons e es ih =>
    by_cases hae : a = e.1
    · apply ih (b := e.2)
      right
      rw [hae, AList.lookup_insert]
    · apply ih (b := b)
      rcases h with h | h
      · rcases List.mem_cons.mp h with h | h
        · exact absurd (congrArg Prod.fst h) hae
        · exact .inl h
      · right
        rw [AList.lookup_insert_ne hae]
        exact h

/-- With no key written twice, collecting a list into a table loses nothing. -/
theorem lookup_insertAll_empty_iff (hn : (es.map Prod.fst).Nodup) :
    (insertAll es (∅ : AList fun _ : α => β)).lookup a = some b ↔ (a, b) ∈ es := by
  constructor
  · intro h
    rcases mem_of_lookup_insertAll h with h | h
    · exact h
    · cases h
  · intro h
    obtain ⟨b', hb'⟩ := Option.isSome_iff_exists.mp (isSome_lookup_insertAll (s := ∅) (.inl h))
    rcases mem_of_lookup_insertAll hb' with h' | h'
    · have hbb : (a, b) = (a, b') := List.inj_on_of_nodup_map hn h h' rfl
      rw [hb', (Prod.mk.inj hbb).2]
    · cases h'

theorem lookup_eraseAll : (eraseAll ks s).lookup a = if a ∈ ks then none else s.lookup a := by
  induction ks generalizing s with
  | nil => simp [eraseAll]
  | cons k ks ih =>
    have hrec : (eraseAll (k :: ks) s).lookup a = (eraseAll ks (s.erase k)).lookup a := rfl
    rw [hrec, ih]
    by_cases hak : a = k
    · subst hak
      simp
    · simp [hak, AList.lookup_erase_ne hak]

/-! ### Lists of entries -/

section Entries

variable {κ ν ν' : Type*} [BEq κ] [LawfulBEq κ] {l l' : List (κ × ν)} {k : κ} {v : ν}

theorem mem_of_lookup_eq_some (h : l.lookup k = some v) : (k, v) ∈ l := by
  obtain ⟨front, back, rfl, -⟩ := List.lookup_eq_some_iff.mp h
  simp

theorem lookup_of_mem (hn : (l.map Prod.fst).Nodup) (h : (k, v) ∈ l) : l.lookup k = some v := by
  cases hlookup : l.lookup k with
  | none =>
    have hnot := List.lookup_eq_none_iff.mp hlookup (k, v) h
    simp at hnot
  | some v' =>
    have hsame : (k, v') = (k, v) := List.inj_on_of_nodup_map hn (mem_of_lookup_eq_some hlookup) h rfl
    rw [(Prod.mk.inj hsame).2]

theorem lookup_perm (h : l.Perm l') (hn : (l.map Prod.fst).Nodup) : l.lookup k = l'.lookup k := by
  have hn' : (l'.map Prod.fst).Nodup := (h.map Prod.fst).nodup_iff.mp hn
  ext v
  constructor
  · exact fun hv => lookup_of_mem hn' (h.mem_iff.mp (mem_of_lookup_eq_some hv))
  · exact fun hv => lookup_of_mem hn (h.mem_iff.mpr (mem_of_lookup_eq_some hv))

/-- The values that `g` has none for are dropped, the others replaced. -/
theorem lookup_filterMap (g : ν → Option ν') (hn : (l.map Prod.fst).Nodup) :
    (l.filterMap fun x => (g x.2).map (x.1, ·)).lookup k = (l.lookup k).bind g := by
  induction l with
  | nil => rfl
  | cons x l ih =>
    rw [List.map_cons, List.nodup_cons] at hn
    by_cases hk : k = x.1
    · subst hk
      rw [List.lookup_cons_self, Option.bind_some]
      cases hg : g x.2 with
      | none =>
        have hnone : l.lookup x.1 = none := by
          rw [List.lookup_eq_none_iff]
          intro y hy
          rw [bne_iff_ne]
          exact fun heq => hn.1 (List.mem_map.mpr ⟨y, hy, heq.symm⟩)
        rw [List.filterMap_cons_none (by rw [hg]; rfl), ih hn.2, hnone]
        rfl
      | some v' =>
        rw [List.filterMap_cons_some (by rw [hg]; rfl), List.lookup_cons_self]
    · have hbeq : (k == x.1) = false := beq_eq_false_iff_ne.mpr hk
      have hrest : (x :: l).lookup k = l.lookup k := by
        rw [List.lookup_cons, hbeq]
      rw [hrest, ← ih hn.2]
      cases hg : g x.2 with
      | none => rw [List.filterMap_cons_none (by rw [hg]; rfl)]
      | some v' => rw [List.filterMap_cons_some (by rw [hg]; rfl), List.lookup_cons, hbeq]

end Entries

end CodeGraph.Lib
