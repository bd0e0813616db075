import Mathlib.Data.List.Count
import Mathlib.Data.List.Nodup
import Mathlib.Data.List.Perm.Basic

/-!
# Lists matched by a relation

Two lists are `Twins` when every element of each has a partner in the other. Where partners are unique, what is
read off the lists without looking at their order is the same up to partners: whether they are empty, what a
filter leaves, the only element of a singleton. For lists without partners, `perm_filter` compares what two
filters leave by counting.
-/

namespace CodeGraph.Lib

variable {α β : Type*} {ρ : α → β → Prop} {l : List α} {l' : List β}

def Twins (ρ : α → β → Prop) (l : List α) (l' : List β) : Prop :=
  (∀ a ∈ l, ∃ b ∈ l', ρ a b) ∧ ∀ b ∈ l', ∃ a ∈ l, ρ a b

theorem Twins.eq_nil_iff (h : Twins ρ l l') : l = [] ↔ l' = [] := by
  simp only [List.eq_nil_iff_forall_not_mem]
  constructor
  · intro hl b hb
    obtain ⟨a, ha, -⟩ := h.2 b hb
    exact hl a ha
  · intro hl' a ha
    obtain ⟨b, hb, -⟩ := h.1 a ha
    exact hl' b hb

theorem Twins.filter (h : Twins ρ l l') {p : α → Bool} {q : β → Bool} (hpq : ∀ a b, ρ a b → p a = q b) :
    Twins ρ (l.filter p) (l'.filter q) := by
  constructor
  · intro a ha
    obtain ⟨ha, hp⟩ := List.mem_filter.mp ha
    obtain ⟨b, hb, hab⟩ := h.1 a ha
    exact ⟨b, List.mem_filter.mpr ⟨hb, hpq a b hab ▸ hp⟩, hab⟩
  · intro b hb
    obtain ⟨hb, hq⟩ := List.mem_filter.mp hb
    obtain ⟨a, ha, hab⟩ := h.2 b hb
    exact ⟨a, List.mem_filter.mpr ⟨ha, (hpq a b hab).symm ▸ hq⟩, hab⟩

theorem Twins.any_eq (h : Twins ρ l l') {p : α → Bool} {q : β → Bool} (hpq : ∀ a b, ρ a b → p a = q b) :
    l.any p = l'.any q := by
  rw [Bool.eq_iff_iff, List.any_eq_true, List.any_eq_true]
  constructor
  · rintro ⟨a, ha, hp⟩
    obtain ⟨b, hb, hab⟩ := h.1 a ha
    exact ⟨b, hb, hpq a b hab ▸ hp⟩
  · rintro ⟨b, hb, hq⟩
    obtain ⟨a, ha, hab⟩ := h.2 b hb
    exact ⟨a, ha, (hpq a b hab).symm ▸ hq⟩

theorem Twins.mono {ρ' : α → β → Prop} (h : Twins ρ l l') (hρ : ∀ a b, ρ a b → ρ' a b) : Twins ρ' l l' :=
  ⟨fun a ha => (h.1 a ha).imp fun b hb => ⟨hb.1, hρ a b hb.2⟩,
    fun b hb => (h.2 b hb).imp fun a ha => ⟨ha.1, hρ a b ha.2⟩⟩

/-! ### The only element -/

/-- The element of a list of one. -/
def single? : List α → Option α
  | [a] => some a
  | _ => none

theorem single?_eq_some {a : α} : single? l = some a ↔ l = [a] := by
  unfold single?
  split
  · simp
  · next hne =>
    constructor
    · intro h
      cases h
    · rintro rfl
      exact absurd rfl (hne a)

theorem single?_of_nodup {a : α} (hl : l.Nodup) (ha : a ∈ l) (hall : ∀ b ∈ l, b = a) : single? l = some a := by
  rw [single?_eq_some]
  cases l with
  | nil => cases ha
  | cons b l =>
    obtain rfl := hall b List.mem_cons_self
    cases l with
    | nil => rfl
    | cons c l =>
      have hc := hall c (List.mem_cons_of_mem _ List.mem_cons_self)
      rw [hc] at hl
      exact absurd List.mem_cons_self (List.nodup_cons.mp hl).1

theorem one_lt_length_iff (hl : l.Nodup) : 1 < l.length ↔ ∃ a b, a ≠ b ∧ a ∈ l ∧ b ∈ l := by
  constructor
  · intro hlen
    match l, hl, hlen with
    | a :: b :: l, hl, _ =>
      have hab : a ≠ b := fun hab => (List.nodup_cons.mp hl).1 (hab ▸ List.mem_cons_self)
      exact ⟨a, b, hab, List.mem_cons_self, List.mem_cons_of_mem a List.mem_cons_self⟩
  · rintro ⟨a, b, hab, ha, hb⟩
    by_contra hlen
    match l, ha, hb with
    | [c], ha, hb => exact hab ((List.mem_singleton.mp ha).trans (List.mem_singleton.mp hb).symm)
    | c :: c' :: l, _, _ =>
      rw [List.length_cons, List.length_cons] at hlen
      omega

/-- Twins have one element at the same time, and then these are partners. -/
theorem Twins.single (h : Twins ρ l l') (hl : l.Nodup) (hl' : l'.Nodup)
    (hinj : ∀ a a' b, ρ a b → ρ a' b → a = a') (hfun : ∀ a b b', ρ a b → ρ a b' → b = b') :
    single? l = none ∧ single? l' = none ∨
      ∃ a b, a ∈ l ∧ b ∈ l' ∧ single? l = some a ∧ single? l' = some b ∧ ρ a b := by
  cases hs : single? l with
  | some a =>
    have hla := single?_eq_some.mp hs
    have ha : a ∈ l := by simp [hla]
    obtain ⟨b, hb, hab⟩ := h.1 a ha
    refine .inr ⟨a, b, ha, hb, rfl, ?_, hab⟩
    apply single?_of_nodup hl' hb
    intro c hc
    obtain ⟨a', ha', hac⟩ := h.2 c hc
    rw [hla, List.mem_singleton] at ha'
    exact hfun a c b (ha' ▸ hac) hab
  | none =>
    refine .inl ⟨rfl, ?_⟩
    cases hs' : single? l' with
    | none => rfl
    | some b =>
      have hlb := single?_eq_some.mp hs'
      obtain ⟨a, ha, hab⟩ := h.2 b (by simp [hlb])
      have hsome : single? l = some a := by
        apply single?_of_nodup hl ha
        intro c hc
        obtain ⟨b', hb', hcb⟩ := h.1 c hc
        rw [hlb, List.mem_singleton] at hb'
        exact hinj c a b (hb' ▸ hcb) hab
      rw [hs] at hsome
      cases hsome

/-! ### Counting -/

/-- Two filters leave the same elements as often where each element that either leaves is left by the other and
occurs as often in both lists. -/
theorem perm_filter {κ : Type*} [BEq κ] [LawfulBEq κ] {p q : κ → Bool} {l l' : List κ}
    (h : ∀ k ∈ l, p k → q k ∧ l.count k = l'.count k) (h' : ∀ k ∈ l', q k → p k ∧ l.count k = l'.count k) :
    (l.filter p).Perm (l'.filter q) := by
  rw [List.perm_iff_count]
  intro k
  by_cases hk : k ∈ l ∧ p k
  · obtain ⟨hq, hcount⟩ := h k hk.1 hk.2
    rw [List.count_filter hk.2, List.count_filter hq, hcount]
  · by_cases hk' : k ∈ l' ∧ q k
    · obtain ⟨hp, hcount⟩ := h' k hk'.1 hk'.2
      rw [List.count_filter hp, List.count_filter hk'.2, hcount]
    · rw [List.count_eq_zero_of_not_mem, List.count_eq_zero_of_not_mem]
      · exact fun hm => hk' (List.mem_filter.mp hm)
      · exact fun hm => hk (List.mem_filter.mp hm)

end CodeGraph.Lib
