import CodeGraph.Lib.Sort
import Mathlib.Algebra.Order.Field.Rat
import Mathlib.Data.Prod.Lex
import Mathlib.Data.Rat.Cast.Defs
import Mathlib.Tactic.FieldSimp
import Mathlib.Tactic.Linarith
import Mathlib.Tactic.Positivity
import Mathlib.Tactic.Ring

/-!
# Interleaving sections

`interleave` of `budget.rs` merges the orders of several sections: a unit stands at its rank within its section, as a
fraction of the section's length. A section of up to a million units keeps its order, since no two of its ranks share a
fraction (`position_strict`), and the units taken of two sections are in proportion to their lengths
(`interleave_proportional`).
-/

namespace CodeGraph.Budget

open CodeGraph.Lib

/-- The scale of the fractions. -/
def scale : ℕ := 1000000

/-- `i as u64 * 1_000_000 / len`. -/
def position (i len : ℕ) : ℕ := i * scale % 2 ^ 64 / len

/-- A unit with its position and the number of its section. -/
structure Placed where
  position : ℕ
  part : ℕ
  unit : ℕ
  deriving DecidableEq

/-- The order of the tuples. -/
def Placed.key (p : Placed) : ℕ ×ₗ ℕ ×ₗ ℕ := toLex (p.position, toLex (p.part, p.unit))

/-- The units of one section. -/
def place (s : ℕ) (order : List ℕ) : List Placed :=
  order.zipIdx.map fun e => ⟨position e.2 (max order.length 1), s, e.1⟩

def placeAll (sections : List (List ℕ)) : List Placed := sections.zipIdx.flatMap fun e => place e.2 e.1

/-- `interleave` -/
def interleave (sections : List (List ℕ)) : List ℕ :=
  (sortByKey Placed.key (placeAll sections)).map Placed.unit

variable {sections : List (List ℕ)} {s : ℕ} {order : List ℕ} {p : Placed}

/-! ### Positions -/

theorem position_eq {i len : ℕ} (hi : i < len) (hlen : len ≤ scale) : position i (max len 1) = i * scale / len := by
  have hlt : i * scale < 2 ^ 64 := by
    have hle : i * scale ≤ scale * scale := Nat.mul_le_mul_right scale (by omega)
    have hscale : scale * scale < 2 ^ 64 := by decide
    omega
  rw [position, Nat.mod_eq_of_lt hlt, Nat.max_eq_left (by omega)]

/-- No two ranks of a section of at most a million units share a fraction. -/
theorem position_strict {i j len : ℕ} (hij : i < j) (hj : j < len) (hlen : len ≤ scale) :
    i * scale / len < j * scale / len := by
  have hpos : 0 < len := by omega
  have hstep : i * scale + len ≤ j * scale := by
    have hle : (i + 1) * scale ≤ j * scale := Nat.mul_le_mul_right scale hij
    rw [Nat.succ_mul] at hle
    omega
  have hnext : i * scale / len + 1 = (i * scale + len) / len := (Nat.add_div_right _ hpos).symm
  have hle := Nat.div_le_div_right (c := len) hstep
  omega

/-! ### Placed units -/

theorem mem_place : p ∈ place s order ↔
    ∃ i u, order[i]? = some u ∧ p = ⟨position i (max order.length 1), s, u⟩ := by
  rw [place, List.mem_map]
  constructor
  · rintro ⟨⟨u, i⟩, hmem, rfl⟩
    exact ⟨i, u, List.mem_zipIdx_iff_getElem?.mp hmem, rfl⟩
  · rintro ⟨i, u, hget, rfl⟩
    exact ⟨(u, i), List.mem_zipIdx_iff_getElem?.mpr hget, rfl⟩

theorem mem_placeAll : p ∈ placeAll sections ↔ ∃ s order, sections[s]? = some order ∧ p ∈ place s order := by
  rw [placeAll, List.mem_flatMap]
  constructor
  · rintro ⟨⟨order, s⟩, hmem, hp⟩
    exact ⟨s, order, List.mem_zipIdx_iff_getElem?.mp hmem, hp⟩
  · rintro ⟨s, order, hget, hp⟩
    exact ⟨(order, s), List.mem_zipIdx_iff_getElem?.mpr hget, hp⟩

theorem unit_place : (place s order).map Placed.unit = order := by
  rw [place, List.map_map]
  exact List.zipIdx_map_fst 0 order

theorem part_of_mem_place (h : p ∈ place s order) : p.part = s := by
  obtain ⟨i, u, -, rfl⟩ := mem_place.mp h
  rfl

theorem unit_placeAll : (placeAll sections).map Placed.unit = sections.flatten := by
  rw [placeAll, List.map_flatMap]
  have hsame : (fun e : List ℕ × ℕ => (place e.2 e.1).map Placed.unit) = Prod.fst := funext fun e => unit_place
  rw [hsame, ← List.flatMap_id, List.flatMap_def, List.flatMap_def, List.zipIdx_map_fst, List.map_id]

theorem key_nodup (h : sections.flatten.Nodup) : ((placeAll sections).map Placed.key).Nodup := by
  rw [← unit_placeAll] at h
  refine List.Nodup.of_map (fun k : ℕ ×ₗ ℕ ×ₗ ℕ => (ofLex (ofLex k).2).2) ?_
  rw [List.map_map]
  exact h

theorem place_strict (hlen : order.length ≤ scale) : (place s order).Pairwise fun a b => a.key < b.key := by
  rw [place, List.pairwise_map, List.pairwise_iff_getElem]
  intro i j hi hj hij
  rw [List.length_zipIdx] at hi hj
  rw [List.getElem_zipIdx, List.getElem_zipIdx]
  dsimp only
  rw [Nat.zero_add, Nat.zero_add, position_eq hi hlen, position_eq hj hlen]
  exact Prod.Lex.toLex_lt_toLex.mpr (.inl (position_strict hij hj hlen))

/-- The placed units of a section stand in the sorted list in the section's order. -/
theorem filter_sorted (hnodup : sections.flatten.Nodup) (hget : sections[s]? = some order)
    (hlen : order.length ≤ scale) :
    (sortByKey Placed.key (placeAll sections)).filter (fun p => p.part = s) = place s order := by
  refine eq_of_strict ((sortByKey_strict (key_nodup hnodup)).sublist List.filter_sublist) (place_strict hlen)
    fun p => ?_
  rw [List.mem_filter, mem_sortByKey, mem_placeAll, decide_eq_true_eq]
  constructor
  · rintro ⟨⟨t, other, hother, hp⟩, hpart⟩
    obtain rfl : t = s := (part_of_mem_place hp).symm.trans hpart
    rw [hget, Option.some_inj] at hother
    rw [hother]
    exact hp
  · intro hp
    exact ⟨⟨s, order, hget, hp⟩, part_of_mem_place hp⟩

/-- A unit of a section is placed in it. -/
theorem part_eq_iff (hnodup : sections.flatten.Nodup) (hget : sections[s]? = some order) (hp : p ∈ placeAll sections) :
    p.unit ∈ order ↔ p.part = s := by
  constructor
  · intro hunit
    rw [← @unit_place s order, List.mem_map] at hunit
    obtain ⟨q, hq, hsame⟩ := hunit
    rw [← unit_placeAll] at hnodup
    have heq : q = p := List.inj_on_of_nodup_map hnodup (mem_placeAll.mpr ⟨s, order, hget, hq⟩) hp hsame
    rw [← heq]
    exact part_of_mem_place hq
  · rintro rfl
    obtain ⟨t, other, hother, hin⟩ := mem_placeAll.mp hp
    rw [part_of_mem_place hin, hother, Option.some_inj] at hget
    rw [← hget, ← @unit_place t other]
    exact List.mem_map_of_mem hin

/-- The unit of a rank. -/
theorem getElem?_place (i : ℕ) :
    (place s order)[i]? = order[i]?.map fun u => ⟨position i (max order.length 1), s, u⟩ := by
  rw [place, List.getElem?_map, List.getElem?_zipIdx, Option.map_map, Nat.zero_add]
  rfl

theorem length_place : (place s order).length = order.length := by
  rw [place, List.length_map, List.length_zipIdx]

/-- Where a section's units are cut in two, the first of the second part and the last of the first are its units of
those ranks. -/
theorem mem_of_split {taken left : List Placed} (h : taken ++ left = place s order) :
    (taken.length < order.length → ∃ p ∈ left, p.position = position taken.length (max order.length 1)) ∧
    (1 ≤ taken.length → ∃ p ∈ taken, p.position = position (taken.length - 1) (max order.length 1)) := by
  have hlength : taken.length + left.length = order.length := by
    rw [← @length_place s order, ← h, List.length_append]
  constructor
  · intro hlt
    have hget := @getElem?_place s order taken.length
    rw [← h, List.getElem?_append_right le_rfl, Nat.sub_self, List.getElem?_eq_getElem hlt] at hget
    exact ⟨_, List.mem_of_getElem? hget, rfl⟩
  · intro hpos
    have hget := @getElem?_place s order (taken.length - 1)
    have hlast : taken.length - 1 < order.length := by omega
    rw [← h, List.getElem?_append_left (by omega), List.getElem?_eq_getElem hlast] at hget
    exact ⟨_, List.mem_of_getElem? hget, rfl⟩

/-! ### The interleaving -/

/-- The arithmetic of two scaled ranks, the first of them not behind the second. -/
theorem proportion {a la b lb : ℕ} (hla : 0 < la) (hlb : 0 < lb) (h : b * scale / lb ≤ a * scale / la) :
    (b : ℚ) / lb ≤ a / la + 1 / 1000000 := by
  have hb : b * scale < (b * scale / lb + 1) * lb := by
    have hlt := Nat.lt_mul_div_succ (b * scale) hlb
    rw [mul_comm lb] at hlt
    exact hlt
  have ha : a * scale / la * la ≤ a * scale := Nat.div_mul_le_self _ _
  have hb' : (b * scale : ℚ) < (a * scale / la : ℕ) * lb + lb := by
    have hle : (b * scale / lb + 1) * lb ≤ (a * scale / la + 1) * lb := Nat.mul_le_mul_right lb (by omega)
    have hlt : b * scale < (a * scale / la + 1) * lb := lt_of_lt_of_le hb hle
    rw [Nat.succ_mul] at hlt
    exact_mod_cast hlt
  have ha' : ((a * scale / la : ℕ) : ℚ) ≤ a * scale / la := by
    rw [le_div_iff₀ (by exact_mod_cast hla)]
    exact_mod_cast ha
  have hscale : (scale : ℚ) = 1000000 := by norm_num [scale]
  have hlb' : (0 : ℚ) < lb := by exact_mod_cast hlb
  have hle : (b * scale : ℚ) / lb ≤ a * scale / la + 1 := by
    rw [div_le_iff₀ hlb']
    have hmul := mul_le_mul_of_nonneg_right ha' hlb'.le
    linarith
  rw [hscale] at hle
  have hsplit : (b : ℚ) * 1000000 / lb = b / lb * 1000000 := by ring
  have hsplit' : (a : ℚ) * 1000000 / la = a / la * 1000000 := by ring
  rw [hsplit, hsplit'] at hle
  linarith

/-- Every section of up to a million units keeps its order, and of any two sections the units are taken in
proportion. -/
theorem interleave_proportional (hnodup : sections.flatten.Nodup) (hlen : ∀ order ∈ sections, order.length ≤ 1000000) :
    (interleave sections).Perm sections.flatten ∧ (∀ order ∈ sections, order.Sublist (interleave sections)) ∧
    ∀ front back, interleave sections = front ++ back → ∀ A ∈ sections, ∀ B ∈ sections,
      (front.filter (· ∈ A)).length < A.length → 1 ≤ (front.filter (· ∈ B)).length →
      (((front.filter (· ∈ B)).length : ℚ) - 1) / B.length ≤
        (front.filter (· ∈ A)).length / A.length + 1 / 1000000 := by
  have hsorted := sortByKey_strict (key_nodup hnodup)
  refine ⟨?_, ?_, ?_⟩
  · rw [← unit_placeAll]
    exact (sortByKey_perm Placed.key (placeAll sections)).map Placed.unit
  · intro order horder
    obtain ⟨s, hget⟩ := List.mem_iff_getElem?.mp horder
    rw [← @unit_place s order, ← filter_sorted hnodup hget (hlen order horder)]
    exact List.filter_sublist.map Placed.unit
  · intro front back hsplit A hA B hB ha hb
    obtain ⟨first, second, hboth, rfl, -⟩ := List.map_eq_append_iff.mp hsplit
    have hsub : ∀ p ∈ first, p ∈ placeAll sections := by
      intro p hp
      rw [← @mem_sortByKey _ _ _ Placed.key (placeAll sections) p, hboth]
      exact List.mem_append_left second hp
    -- the units taken of a section are those of its placed units that are taken
    have htaken : ∀ C ∈ sections, ∃ s, first.filter (fun p => p.part = s) ++ second.filter (fun p => p.part = s) =
        place s C ∧ ((first.map Placed.unit).filter (· ∈ C)).length = (first.filter fun p => p.part = s).length := by
      intro C hC
      obtain ⟨s, hget⟩ := List.mem_iff_getElem?.mp hC
      refine ⟨s, ?_, ?_⟩
      · rw [← filter_sorted hnodup hget (hlen C hC), hboth, List.filter_append]
      · rw [List.filter_map, List.length_map]
        refine congrArg List.length (List.filter_congr fun p hp => ?_)
        exact decide_eq_decide.mpr (part_eq_iff hnodup hget (hsub p hp))
    obtain ⟨s, hplaceA, hlengthA⟩ := htaken A hA
    obtain ⟨t, hplaceB, hlengthB⟩ := htaken B hB
    rw [hlengthA] at ha ⊢
    rw [hlengthB] at hb ⊢
    obtain ⟨g, hg, hpositionA⟩ := (mem_of_split hplaceA).1 ha
    obtain ⟨f, hf, hpositionB⟩ := (mem_of_split hplaceB).2 hb
    have hlengthB' : (first.filter fun p => p.part = t).length ≤ B.length := by
      rw [← @length_place t B, ← hplaceB, List.length_append]
      omega
    have hbefore : f.position ≤ g.position := by
      rw [hboth, List.pairwise_append] at hsorted
      have hlt := hsorted.2.2 f (List.mem_filter.mp hf).1 g (List.mem_filter.mp hg).1
      rcases Prod.Lex.toLex_lt_toLex.mp hlt with hlt | heq
      · exact hlt.le
      · exact heq.1.le
    rw [hpositionA, hpositionB, position_eq ha (hlen A hA), position_eq (by omega) (hlen B hB)] at hbefore
    have hproportion := proportion (by omega) (by omega) hbefore
    rw [Nat.cast_sub hb, Nat.cast_one] at hproportion
    exact hproportion

/-- The first three units are two of the four of the first section and one of the two of the second. -/
theorem interleave_proportional_two :
    let first := [3, 2, 1, 0]
    let second := [5, 4]
    let front := [3, 5, 2]
    (interleave [first, second]).Perm [3, 2, 1, 0, 5, 4] ∧
      (((front.filter (· ∈ second)).length : ℚ) - 1) / second.length ≤
        (front.filter (· ∈ first)).length / first.length + 1 / 1000000 ∧
      (((front.filter (· ∈ first)).length : ℚ) - 1) / first.length ≤
        (front.filter (· ∈ second)).length / second.length + 1 / 1000000 := by
  intro first second front
  have hunits : ∀ order ∈ [first, second], order.length ≤ 1000000 := by decide
  have hnodup : [first, second].flatten.Nodup := by decide
  obtain ⟨hperm, -, hproportion⟩ := interleave_proportional hnodup hunits
  have hfront : interleave [first, second] = front ++ [1, 4, 0] := by decide
  refine ⟨hperm, ?_, ?_⟩
  · exact hproportion front _ hfront first (by decide) second (by decide) (by decide) (by decide)
  · exact hproportion front _ hfront second (by decide) first (by decide) (by decide) (by decide)

end CodeGraph.Budget
