import Mathlib.Data.List.Induction
import Mathlib.Data.List.Nodup

/-!
# Matching brackets

Some symbols of a list open, some close. A closer closes the innermost opener that is still open, whatever its kind,
and closes nothing where there is none.

`opens kind s` is the stack that a pass from the left has after `s`: the openers still open, innermost first. The two
scans that look for one bracket agree with it: the scan to the left finds the member of the stack at its depth
(`enclosing_eq`), and the scan to the right from an opener comes to an end just when the opener has left the stack
(`closing_eq_none`).
-/

namespace CodeGraph.Lib

inductive Bracket
  | opener | closer
  deriving DecidableEq, Repr

variable {α : Type*} {kind : α → Option Bracket} {s t : List α} {c : α} {d i o : ℕ}

/-- What a symbol does to the stack; the symbol is at position `i`. -/
def openStep (kind : α → Option Bracket) (stack : List ℕ) (i : ℕ) (c : α) : List ℕ :=
  match kind c with
  | some .opener => i :: stack
  | some .closer => stack.tail
  | none => stack

/-- The positions of the openers that are open after the symbols, innermost first. The symbols are given with the
last one first. -/
def opensRev (kind : α → Option Bracket) : List α → List ℕ
  | [] => []
  | c :: before => openStep kind (opensRev kind before) before.length c

def opens (kind : α → Option Bracket) (s : List α) : List ℕ := opensRev kind s.reverse

/-- The scan to the left over the symbols before a position, the nearest first. It counts the openers that it still
has to pass, and stops at one when there are none. -/
def enclosing (kind : α → Option Bracket) : ℕ → List α → Option ℕ
  | _, [] => none
  | depth, c :: before =>
    match kind c with
    | some .closer => enclosing kind (depth + 1) before
    | some .opener => if depth = 0 then some before.length else enclosing kind (depth - 1) before
    | none => enclosing kind depth before

/-- How many openers are open after a symbol. -/
def depthStep (kind : α → Option Bracket) (depth : ℕ) (c : α) : ℕ :=
  match kind c with
  | some .opener => depth + 1
  | some .closer => depth - 1
  | none => depth

/-- The scan to the right: where the depth first comes to zero. -/
def closing (kind : α → Option Bracket) : ℕ → List α → Option ℕ
  | _, [] => none
  | depth, c :: rest =>
    if depthStep kind depth c = 0 then some 0 else (closing kind (depthStep kind depth c) rest).map (· + 1)

@[simp] theorem opens_nil : opens kind ([] : List α) = [] := rfl

theorem opens_concat : opens kind (s ++ [c]) = openStep kind (opens kind s) s.length c := by
  unfold opens
  rw [List.reverse_append, List.reverse_singleton, List.singleton_append, opensRev, List.length_reverse]

theorem opens_append_of_plain (h : ∀ c ∈ t, kind c = none) : opens kind (s ++ t) = opens kind s := by
  induction t using List.reverseRecOn with
  | nil => rw [List.append_nil]
  | append_singleton t c ih =>
    rw [← List.append_assoc, opens_concat, openStep, h c (by simp)]
    exact ih fun d hd => h d (by simp [hd])

/-- Everything on the stack stands in the list. -/
theorem lt_of_mem_opens (h : o ∈ opens kind s) : o < s.length := by
  induction s using List.reverseRecOn with
  | nil => cases h
  | append_singleton s c ih =>
    rw [List.length_append, List.length_singleton]
    rw [opens_concat, openStep] at h
    split at h
    case h_1 =>
      rcases List.mem_cons.mp h with rfl | h
      · omega
      · have := ih h
        omega
    case h_2 =>
      have := ih (List.mem_of_mem_tail h)
      omega
    case h_3 =>
      have := ih h
      omega

theorem opens_pairwise : (opens kind s).Pairwise (· > ·) := by
  induction s using List.reverseRecOn with
  | nil => exact List.Pairwise.nil
  | append_singleton s c ih =>
    rw [opens_concat, openStep]
    split
    case h_1 => exact List.pairwise_cons.mpr ⟨fun o ho => lt_of_mem_opens ho, ih⟩
    case h_2 => exact ih.sublist (List.tail_sublist _)
    case h_3 => exact ih

/-! ### The scan to the left -/

/-- The scan to the left finds the opener at its depth on the stack. -/
theorem enclosing_eq (s : List α) (depth : ℕ) : enclosing kind depth s.reverse = (opens kind s)[depth]? := by
  induction s using List.reverseRecOn generalizing depth with
  | nil => rfl
  | append_singleton s c ih =>
    rw [List.reverse_append, List.reverse_singleton, List.singleton_append, enclosing, opens_concat, openStep]
    cases hc : kind c with
    | none => exact ih depth
    | some b =>
      cases b with
      | closer => rw [List.getElem?_tail]; exact ih (depth + 1)
      | opener =>
        dsimp only
        cases depth with
        | zero => rw [if_pos rfl, List.length_reverse]; rfl
        | succ depth => rw [if_neg (Nat.succ_ne_zero depth), List.getElem?_cons_succ]; exact ih depth

/-! ### The scan to the right -/

theorem closing_append_of_some (h : closing kind d s = some i) : closing kind d (s ++ t) = some i := by
  induction s generalizing d i with
  | nil => cases h
  | cons c s ih =>
    rw [closing] at h
    rw [List.cons_append, closing]
    split_ifs at h ⊢ with hzero
    · exact h
    · obtain ⟨j, hj, rfl⟩ := Option.map_eq_some_iff.mp h
      rw [ih hj]
      rfl

/-- A scan that has not come to an end goes on at the depth it has. -/
theorem closing_append_of_none (h : closing kind d s = none) :
    closing kind d (s ++ t) = (closing kind (s.foldl (depthStep kind) d) t).map (· + s.length) := by
  induction s generalizing d with
  | nil => simp
  | cons c s ih =>
    rw [closing] at h
    rw [List.cons_append, closing, List.foldl_cons]
    split_ifs at h ⊢ with hzero
    rw [ih (Option.map_eq_none_iff.mp h), Option.map_map]
    rfl

/-- The scan from an opener has not come to an end just as long as the opener is on the stack, and its depth is then
the opener's place there. -/
theorem closing_spec {b : α} (hb : kind b = some .opener) (s t : List α) :
    (∀ j, closing kind 1 t = some j → s.length ∉ opens kind (s ++ b :: t)) ∧
      (closing kind 1 t = none → ∃ i, t.foldl (depthStep kind) 1 = i + 1 ∧
        (opens kind (s ++ b :: t))[i]? = some s.length) := by
  induction t using List.reverseRecOn with
  | nil =>
    refine ⟨fun j hj => (nomatch hj), fun _ => ⟨0, rfl, ?_⟩⟩
    rw [opens_concat, openStep, hb]
    rfl
  | append_singleton t c ih =>
    rw [← List.cons_append, ← List.append_assoc, opens_concat, openStep]
    have hlt : s.length < (s ++ b :: t).length := by
      rw [List.length_append, List.length_cons]
      omega
    cases hclosing : closing kind 1 t with
    | some j =>
      -- the opener is gone and does not come back
      have hgone := ih.1 j hclosing
      refine ⟨fun _ _ hmem => ?_, fun hnone => ?_⟩
      · split at hmem
        case h_1 =>
          rcases List.mem_cons.mp hmem with heq | hmem
          · omega
          · exact hgone hmem
        case h_2 => exact hgone (List.mem_of_mem_tail hmem)
        case h_3 => exact hgone hmem
      · rw [closing_append_of_some hclosing] at hnone
        cases hnone
    | none =>
      obtain ⟨i, hdepth, hplace⟩ := ih.2 hclosing
      rw [closing_append_of_none hclosing, List.foldl_append, List.foldl_cons, List.foldl_nil, hdepth, closing]
      cases hc : kind c with
      | none =>
        have hstep : depthStep kind (i + 1) c = i + 1 := by rw [depthStep, hc]
        rw [hstep, if_neg (Nat.succ_ne_zero i)]
        exact ⟨fun _ h => (nomatch h), fun _ => ⟨i, rfl, hplace⟩⟩
      | some bracket =>
        cases bracket with
        | opener =>
          have hstep : depthStep kind (i + 1) c = i + 2 := by rw [depthStep, hc]
          rw [hstep, if_neg (Nat.succ_ne_zero (i + 1))]
          exact ⟨fun _ h => (nomatch h), fun _ => ⟨i + 1, rfl, hplace⟩⟩
        | closer =>
          have hstep : depthStep kind (i + 1) c = i := by rw [depthStep, hc]; rfl
          rw [hstep]
          cases i with
          | zero =>
            -- the innermost opener is closed, and every other one stands before it
            refine ⟨fun _ _ hmem => ?_, fun h => (nomatch h)⟩
            have hpairwise : (opens kind (s ++ b :: t)).Pairwise (· > ·) := opens_pairwise
            cases hopens : opens kind (s ++ b :: t) with
            | nil =>
              rw [hopens] at hplace
              cases hplace
            | cons o stack =>
              rw [hopens] at hplace hmem hpairwise
              obtain rfl := Option.some.inj hplace
              exact Nat.lt_irrefl _ ((List.pairwise_cons.mp hpairwise).1 _ hmem)
          | succ i =>
            rw [if_neg (Nat.succ_ne_zero i)]
            refine ⟨fun _ h => (nomatch h), fun _ => ⟨i, rfl, ?_⟩⟩
            rw [List.getElem?_tail]
            exact hplace

/-- The scan from an opener comes to an end just when the opener leaves the stack. -/
theorem closing_eq_none {b : α} (hb : kind b = some .opener) :
    closing kind 1 t = none ↔ s.length ∈ opens kind (s ++ b :: t) := by
  have hspec := closing_spec hb s t
  cases hclosing : closing kind 1 t with
  | none =>
    obtain ⟨i, -, hplace⟩ := hspec.2 hclosing
    exact iff_of_true rfl (List.mem_of_getElem? hplace)
  | some j => exact iff_of_false (fun h => (nomatch h)) (hspec.1 j hclosing)

/-- A closer ends the scan from the innermost open opener, and from no other. -/
theorem closing_concat {b : α} (hb : kind b = some .opener) :
    closing kind 1 (t ++ [c]) =
      if closing kind 1 t = none ∧ kind c = some .closer ∧ (opens kind (s ++ b :: t)).head? = some s.length then
        some t.length
      else closing kind 1 t := by
  cases hclosing : closing kind 1 t with
  | some j =>
    rw [closing_append_of_some hclosing, if_neg]
    exact fun h => (nomatch h.1)
  | none =>
    obtain ⟨i, hdepth, hplace⟩ := (closing_spec hb s t).2 hclosing
    rw [closing_append_of_none hclosing, hdepth, closing]
    have hiff : depthStep kind (i + 1) c = 0 ↔
        kind c = some .closer ∧ (opens kind (s ++ b :: t)).head? = some s.length := by
      have hfirst : (opens kind (s ++ b :: t)).head? = some s.length ↔ i = 0 := by
        rw [List.head?_eq_getElem?]
        refine ⟨fun hhead => ?_, fun hi => by rw [← hi]; exact hplace⟩
        have hnodup : (opens kind (s ++ b :: t)).Nodup := opens_pairwise.imp fun h => Nat.ne_of_gt h
        obtain ⟨hlt, hget⟩ := List.getElem?_eq_some_iff.mp hplace
        obtain ⟨hlt', hget'⟩ := List.getElem?_eq_some_iff.mp hhead
        exact (List.Nodup.getElem_inj_iff hnodup).mp (hget.trans hget'.symm)
      rw [hfirst, depthStep]
      cases kind c with
      | none => simp
      | some bracket => cases bracket <;> simp
    rw [if_congr hiff rfl rfl]
    by_cases hcloses : kind c = some .closer ∧ (opens kind (s ++ b :: t)).head? = some s.length
    · rw [if_pos hcloses, if_pos ⟨rfl, hcloses⟩, Option.map_some, Nat.zero_add]
    · rw [if_neg hcloses, if_neg fun h => hcloses h.2]
      rfl

end CodeGraph.Lib
