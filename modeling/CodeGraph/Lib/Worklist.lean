import Mathlib.Data.Finset.Card
import Mathlib.Data.List.Dedup
import Mathlib.Logic.Relation

/-!
# Closures by worklist

Two loops that collect what can be reached along a list of edges. `closure` marks an element when it is taken
from the stack, and its result includes where it started. `descend` marks an element when it is put there, never
marks a seed, and its result is what the seeds lead to besides themselves. Both run with fuel; `mem_closure` and
`mem_descend` say that the fuel is enough and what the result is.
-/

namespace CodeGraph.Lib

variable {α : Type*} [DecidableEq α] {edges : List (α × α)} {stack seeds : List α} {seen : Finset α} {a b x : α}

/-- The ends of the edges from `a`. -/
def succs (edges : List (α × α)) (a : α) : List α := (edges.filter fun e => e.1 = a).map Prod.snd

theorem mem_succs : b ∈ succs edges a ↔ (a, b) ∈ edges := by
  unfold succs
  simp only [List.mem_map, List.mem_filter, decide_eq_true_eq]
  constructor
  · rintro ⟨e, ⟨he, rfl⟩, rfl⟩
    exact he
  · exact fun h => ⟨(a, b), ⟨h, rfl⟩, rfl⟩

/-- Some edges lead from `a` to `b`. -/
abbrev Leads (edges : List (α × α)) : α → α → Prop := Relation.ReflTransGen fun a b => (a, b) ∈ edges

omit [DecidableEq α] in
theorem leads_swap : Leads (edges.map Prod.swap) a b ↔ Leads edges b a := by
  have hstep : ∀ x y, (x, y) ∈ edges.map Prod.swap ↔ (y, x) ∈ edges := by
    intro x y
    rw [List.mem_map]
    constructor
    · rintro ⟨⟨c, d⟩, he, heq⟩
      obtain ⟨rfl, rfl⟩ := Prod.mk.inj heq
      exact he
    · exact fun he => ⟨(y, x), he, rfl⟩
  unfold Leads
  simp only [hstep]
  exact Relation.reflTransGen_swap

/-! ### Marking on removal -/

def walk (edges : List (α × α)) : ℕ → List α → Finset α → Finset α
  | _, [], seen => seen
  | 0, _ :: _, seen => seen
  | fuel + 1, a :: stack, seen =>
    if a ∈ seen then walk edges fuel stack seen
    else walk edges fuel ((succs edges a).reverse ++ stack) (insert a seen)

/-- What can be reached, from where it starts. -/
def closure (edges : List (α × α)) (starts : List α) : Finset α :=
  walk edges (starts.length + edges.length) starts ∅

/-- The edges from elements not marked yet. -/
def unmarked (edges : List (α × α)) (seen : Finset α) : ℕ := (edges.filter fun e => e.1 ∉ seen).length

theorem unmarked_insert (ha : a ∉ seen) :
    unmarked edges (insert a seen) + (succs edges a).length = unmarked edges seen := by
  unfold unmarked succs
  induction edges with
  | nil => rfl
  | cons e edges ih =>
    by_cases hea : e.1 = a
    · have hnot : e.1 ∉ seen := hea ▸ ha
      simp only [List.filter_cons, Finset.mem_insert, hea, ha] at ih ⊢
      simp at ih ⊢
      omega
    · by_cases hes : e.1 ∈ seen
      · simpa [List.filter_cons, hea, hes] using ih
      · simp [hea, hes] at ih ⊢
        omega

omit [DecidableEq α] in
/-- A set that holds its steps holds what its elements lead to. -/
theorem Leads.mem {s : Finset α} (h : Leads edges a b) (ha : a ∈ s)
    (hclosed : ∀ x ∈ s, ∀ y, (x, y) ∈ edges → y ∈ s) : b ∈ s := by
  induction h with
  | refl => exact ha
  | tail _ hstep ih => exact hclosed _ ih _ hstep

omit [DecidableEq α] in
/-- What a marked element leads to is marked, or follows the stack. -/
theorem Leads.mem_or (h : Leads edges a x) (ha : a ∈ seen)
    (hseen : ∀ y ∈ seen, ∀ z, (y, z) ∈ edges → z ∈ seen ∨ z ∈ stack) :
    x ∈ seen ∨ ∃ y ∈ stack, Leads edges y x := by
  induction h with
  | refl => exact .inl ha
  | tail _ hstep ih =>
    rcases ih with hc | ⟨y, hy, hyc⟩
    · rcases hseen _ hc _ hstep with hd | hd
      · exact .inl hd
      · exact .inr ⟨_, hd, .refl⟩
    · exact .inr ⟨y, hy, hyc.tail hstep⟩

theorem mem_walk {fuel : ℕ} (hfuel : stack.length + unmarked edges seen ≤ fuel)
    (hseen : ∀ y ∈ seen, ∀ z, (y, z) ∈ edges → z ∈ seen ∨ z ∈ stack) :
    x ∈ walk edges fuel stack seen ↔ x ∈ seen ∨ ∃ y ∈ stack, Leads edges y x := by
  -- each turn takes one off the stack, or marks a node and puts its edges there
  induction fuel generalizing stack seen with
  | zero =>
    have hnil : stack = [] := by
      cases stack with
      | nil => rfl
      | cons a stack =>
        rw [List.length_cons] at hfuel
        omega
    subst hnil
    simp [walk]
  | succ fuel ih =>
    cases stack with
    | nil => simp [walk]
    | cons a stack =>
      rw [List.length_cons] at hfuel
      rw [walk]
      split_ifs with ha
      · -- `a` is marked already, so the stack is as good without it
        have hrest : ∀ y ∈ seen, ∀ z, (y, z) ∈ edges → z ∈ seen ∨ z ∈ stack := by
          intro y hy z hz
          rcases hseen y hy z hz with h | h
          · exact .inl h
          · rcases List.mem_cons.mp h with rfl | h
            · exact .inl ha
            · exact .inr h
        rw [ih (by omega) hrest]
        constructor
        · rintro (hx | ⟨y, hy, hyx⟩)
          · exact .inl hx
          · exact .inr ⟨y, List.mem_cons_of_mem a hy, hyx⟩
        · rintro (hx | ⟨y, hy, hyx⟩)
          · exact .inl hx
          · rcases List.mem_cons.mp hy with rfl | hy
            · exact hyx.mem_or ha hrest
            · exact .inr ⟨y, hy, hyx⟩
      · -- marking `a` frees as much fuel as its edges cost on the stack
        have hcount : unmarked edges (insert a seen) + _ = _ := unmarked_insert ha
        rw [ih (by rw [List.length_append, List.length_reverse]; omega)]
        · constructor
          · rintro (hx | ⟨y, hy, hyx⟩)
            · rcases Finset.mem_insert.mp hx with rfl | hx
              · exact .inr ⟨x, List.mem_cons_self, .refl⟩
              · exact .inl hx
            · rcases List.mem_append.mp hy with hy | hy
              · have hay := mem_succs.mp (List.mem_reverse.mp hy)
                exact .inr ⟨a, List.mem_cons_self, .head hay hyx⟩
              · exact .inr ⟨y, List.mem_cons_of_mem a hy, hyx⟩
          · rintro (hx | ⟨y, hy, hyx⟩)
            · exact .inl (Finset.mem_insert_of_mem hx)
            · rcases List.mem_cons.mp hy with rfl | hy
              · rcases Relation.ReflTransGen.cases_head hyx with rfl | ⟨c, hc, hcx⟩
                · exact .inl (Finset.mem_insert_self _ _)
                · refine .inr ⟨c, List.mem_append_left _ ?_, hcx⟩
                  exact List.mem_reverse.mpr (mem_succs.mpr hc)
              · exact .inr ⟨y, List.mem_append_right _ hy, hyx⟩
        · intro y hy z hz
          rcases Finset.mem_insert.mp hy with rfl | hy
          · exact .inr (List.mem_append_left _ (List.mem_reverse.mpr (mem_succs.mpr hz)))
          · rcases hseen y hy z hz with h | h
            · exact .inl (Finset.mem_insert_of_mem h)
            · rcases List.mem_cons.mp h with rfl | h
              · exact .inl (Finset.mem_insert_self _ _)
              · exact .inr (List.mem_append_right _ h)

theorem mem_closure {starts : List α} : x ∈ closure edges starts ↔ ∃ a ∈ starts, Leads edges a x := by
  unfold closure
  rw [mem_walk]
  · simp
  · simp [unmarked]
  · simp

/-! ### Marking when put on the stack -/

/-- One element taken from the stack: what it leads to is marked and put there, unless it is or is a seed. -/
def push (seeds : List α) (st : Finset α × List α) (b : α) : Finset α × List α :=
  if b ∈ seeds ∨ b ∈ st.1 then st else (insert b st.1, b :: st.2)

def descendLoop (edges : List (α × α)) (seeds : List α) : ℕ → List α → Finset α → Finset α
  | _, [], seen => seen
  | 0, _ :: _, seen => seen
  | fuel + 1, a :: stack, seen =>
    let st := (succs edges a).foldl (push seeds) (seen, stack)
    descendLoop edges seeds fuel st.2 st.1

/-- What the seeds lead to, the seeds left out. -/
def descend (edges : List (α × α)) (seeds : List α) : Finset α :=
  descendLoop edges seeds (seeds.length + edges.length) seeds ∅

/-- What pushing a list does. -/
theorem push_spec (seeds bs : List α) (seen : Finset α) (stack : List α) :
    (∀ y, y ∈ (bs.foldl (push seeds) (seen, stack)).1 ↔ y ∈ seen ∨ y ∈ bs ∧ y ∉ seeds) ∧
      (∀ y, y ∈ (bs.foldl (push seeds) (seen, stack)).2 ↔ y ∈ stack ∨ y ∈ bs ∧ y ∉ seeds ∧ y ∉ seen) ∧
      (bs.foldl (push seeds) (seen, stack)).2.length + seen.card =
        stack.length + (bs.foldl (push seeds) (seen, stack)).1.card := by
  induction bs generalizing seen stack with
  | nil => simp
  | cons b bs ih =>
    rw [List.foldl_cons, push]
    dsimp only
    split_ifs with hb
    · -- a seed or a marked one: nothing is pushed
      obtain ⟨h₁, h₂, h₃⟩ := ih seen stack
      refine ⟨fun y => ?_, fun y => ?_, h₃⟩
      · rw [h₁, List.mem_cons]
        constructor
        · tauto
        · rintro (h | ⟨rfl | h, hy⟩)
          · exact .inl h
          · exact .inl (hb.resolve_left hy)
          · exact .inr ⟨h, hy⟩
      · rw [h₂, List.mem_cons]
        constructor
        · tauto
        · rintro (h | ⟨rfl | h, hy⟩)
          · exact .inl h
          · exact absurd hb (not_or.mpr hy)
          · exact .inr ⟨h, hy⟩
    · -- `b` is marked and pushed
      obtain ⟨hseed, hnew⟩ := not_or.mp hb
      obtain ⟨h₁, h₂, h₃⟩ := ih (insert b seen) (b :: stack)
      refine ⟨fun y => ?_, fun y => ?_, ?_⟩
      · rw [h₁, List.mem_cons, Finset.mem_insert]
        constructor
        · rintro ((rfl | h) | h)
          · exact .inr ⟨.inl rfl, hseed⟩
          · exact .inl h
          · exact .inr ⟨.inr h.1, h.2⟩
        · tauto
      · rw [h₂, List.mem_cons, List.mem_cons, Finset.mem_insert]
        constructor
        · rintro ((rfl | h) | ⟨h, hy, hn⟩)
          · exact .inr ⟨.inl rfl, hseed, hnew⟩
          · exact .inl h
          · exact .inr ⟨.inr h, hy, fun hs => hn (.inr hs)⟩
        · rintro (h | ⟨rfl | h, hy, hn⟩)
          · exact .inl (.inr h)
          · exact .inl (.inl rfl)
          · by_cases hyb : y = b
            · exact .inl (.inl hyb)
            · exact .inr ⟨h, hy, by tauto⟩
      · rw [List.length_cons, Finset.card_insert_of_notMem hnew] at h₃
        omega

/-- The invariant of `descendLoop`. -/
structure Descending (edges : List (α × α)) (seeds stack : List α) (seen : Finset α) : Prop where
  pending : ∀ y ∈ stack, y ∈ seeds ∨ y ∈ seen
  reached : ∀ y ∈ seen, y ∉ seeds ∧ ∃ s ∈ seeds, Leads edges s y
  closed : ∀ y, y ∈ seeds ∨ y ∈ seen → y ∉ stack → ∀ z, (y, z) ∈ edges → z ∈ seeds ∨ z ∈ seen

theorem Descending.step {stack : List α} (h : Descending edges seeds (a :: stack) seen) :
    Descending edges seeds ((succs edges a).foldl (push seeds) (seen, stack)).2
      ((succs edges a).foldl (push seeds) (seen, stack)).1 := by
  obtain ⟨hseen, hstack, -⟩ := push_spec seeds (succs edges a) seen stack
  have ha : ∃ s ∈ seeds, Leads edges s a := by
    rcases h.pending a List.mem_cons_self with hs | hs
    · exact ⟨a, hs, .refl⟩
    · exact (h.reached a hs).2
  constructor
  case pending =>
    intro y hy
    rw [hseen]
    rcases (hstack y).mp hy with hy | ⟨hy, hns, -⟩
    · rcases h.pending y (List.mem_cons_of_mem a hy) with hs | hs
      · exact .inl hs
      · exact .inr (.inl hs)
    · exact .inr (.inr ⟨hy, hns⟩)
  case reached =>
    intro y hy
    rcases (hseen y).mp hy with hy | ⟨hy, hns⟩
    · exact h.reached y hy
    · obtain ⟨s, hs, hsa⟩ := ha
      exact ⟨hns, s, hs, hsa.tail (mem_succs.mp hy)⟩
  case closed =>
    intro y hy hnot z hz
    rw [hseen]
    by_cases hya : y = a
    · subst hya
      by_cases hzs : z ∈ seeds
      · exact .inl hzs
      · exact .inr (.inr ⟨mem_succs.mpr hz, hzs⟩)
    · have hold : y ∈ seeds ∨ y ∈ seen := by
        rcases hy with hy | hy
        · exact .inl hy
        · rcases (hseen y).mp hy with hy | hy
          · exact .inr hy
          -- a new element is on the stack
          · by_contra hcon
            exact hnot ((hstack y).mpr (.inr ⟨hy.1, hy.2, fun hs => hcon (.inr hs)⟩))
      have hout : y ∉ a :: stack := by
        rw [List.mem_cons, not_or]
        exact ⟨hya, fun hs => hnot ((hstack y).mpr (.inl hs))⟩
      rcases h.closed y hold hout z hz with hs | hs
      · exact .inl hs
      · exact .inr (.inl hs)

theorem mem_descendLoop {fuel : ℕ} (h : Descending edges seeds stack seen)
    (hsub : seen ⊆ (edges.map Prod.snd).toFinset)
    (hfuel : stack.length + (edges.map Prod.snd).toFinset.card ≤ fuel + seen.card) :
    x ∈ descendLoop edges seeds fuel stack seen ↔ x ∉ seeds ∧ ∃ s ∈ seeds, Leads edges s x := by
  -- each turn takes one off the stack, and what it puts there it also marks
  induction fuel generalizing stack seen with
  | zero =>
    have hnil : stack = [] := by
      have := Finset.card_le_card hsub
      exact List.length_eq_zero_iff.mp (by omega)
    subst hnil
    rw [descendLoop]
    refine ⟨h.reached x, ?_⟩
    rintro ⟨hx, s, hs, hsx⟩
    have hmem : x ∈ seeds.toFinset ∪ seen := by
      refine hsx.mem (by simp [hs]) fun y hy z hz => ?_
      have := h.closed y (by simpa using hy) List.not_mem_nil z hz
      simpa using this
    simpa [hx] using hmem
  | succ fuel ih =>
    cases stack with
    | nil =>
      rw [descendLoop]
      refine ⟨h.reached x, ?_⟩
      rintro ⟨hx, s, hs, hsx⟩
      have hmem : x ∈ seeds.toFinset ∪ seen := by
        refine hsx.mem (by simp [hs]) fun y hy z hz => ?_
        have := h.closed y (by simpa using hy) List.not_mem_nil z hz
        simpa using this
      simpa [hx] using hmem
    | cons a stack =>
      obtain ⟨hseen, -, hcard⟩ := push_spec seeds (succs edges a) seen stack
      rw [descendLoop]
      apply ih h.step
      · intro y hy
        rcases (hseen y).mp hy with hy | ⟨hy, -⟩
        · exact hsub hy
        · exact List.mem_toFinset.mpr (List.mem_map.mpr ⟨(a, y), mem_succs.mp hy, rfl⟩)
      · rw [List.length_cons] at hfuel
        omega

theorem mem_descend : x ∈ descend edges seeds ↔ x ∉ seeds ∧ ∃ s ∈ seeds, Leads edges s x := by
  apply mem_descendLoop
  · constructor
    case pending => exact fun y hy => .inl hy
    case reached => simp
    case closed =>
      rintro y (hy | hy) hnot z -
      · exact absurd hy hnot
      · simp at hy
  · simp
  · have := List.toFinset_card_le (edges.map Prod.snd)
    rw [List.length_map] at this
    simp
    omega

end CodeGraph.Lib
