import Mathlib.Data.Finset.Card
import Mathlib.Data.Set.Subsingleton
import Mathlib.Logic.Relation

/-!
# Forwarding graphs

A node of a forwarding graph holds a value, forwards to other nodes, or is broken. `search` asks what the
values that a node leads to agree on. All branches of a search share one set of seen nodes and a node seen
before answers `missing`, so a node cut off in one branch has been counted in another. `Explored` says what
that set means at every moment, and `search_describes` what the answer is in the end: nothing, the one value
or `many`, for the values of all the nodes that can be reached.
-/

namespace CodeGraph.Lib

inductive Forward (α β : Type*)
  | stop (b : β)
  | next (as : List α)
  | broken
  deriving DecidableEq

inductive Verdict (β : Type*)
  | missing
  | one (b : β)
  | many
  | unknown
  deriving DecidableEq, Repr

variable {α β : Type*}

/-- The nodes that a node forwards to. -/
def Forward.succs : Forward α β → List α
  | .next as => as
  | _ => []

/-- One step of forwarding. -/
def Forwards (node : α → Forward α β) (a b : α) : Prop := b ∈ (node a).succs

/-- The values held by the nodes of a set. -/
def ends (node : α → Forward α β) (s : Set α) : Set β := {b | ∃ a ∈ s, node a = .stop b}

/-- A verdict on a set of values. -/
def Verdict.Describes : Verdict β → Set β → Prop
  | .missing, t => t = ∅
  | .one b, t => t = {b}
  | .many, t => t.Nontrivial
  | .unknown, _ => False

/-- The verdict on what was found so far. -/
def Verdict.ofFound : Option β → Verdict β
  | none => .missing
  | some b => .one b

section Search

variable [DecidableEq β]

/-- Ask nodes in turn until two of them disagree or one of them has no answer. -/
def searchAll (ask : α → Finset α → Verdict β × Finset α) :
    List α → Option β → Finset α → Verdict β × Finset α
  | [], found, seen => (.ofFound found, seen)
  | a :: as, found, seen =>
    match ask a seen with
    | (.missing, seen) => searchAll ask as found seen
    | (.many, seen) => (.many, seen)
    | (.unknown, seen) => (.unknown, seen)
    | (.one b, seen) =>
      match found with
      | none => searchAll ask as (some b) seen
      | some b' => if b' ≠ b then (.many, seen) else searchAll ask as (some b') seen

variable [DecidableEq α]

/-- What a node leads to, at most `k` nodes deep. -/
def search (node : α → Forward α β) : ℕ → α → Finset α → Verdict β × Finset α
  | 0, _, seen => (.unknown, seen)
  | k + 1, a, seen =>
    if a ∈ seen then (.missing, seen)
    else
      match node a with
      | .stop b => (.one b, insert a seen)
      | .broken => (.unknown, insert a seen)
      | .next as => searchAll (search node k) as none (insert a seen)

end Search

/-! ### Sets of values -/

variable {node : α → Forward α β} {s t : Set α}

theorem ends_union : ends node (s ∪ t) = ends node s ∪ ends node t := by
  ext b
  constructor
  · rintro ⟨a, ha | ha, hb⟩
    · exact .inl ⟨a, ha, hb⟩
    · exact .inr ⟨a, ha, hb⟩
  · rintro (⟨a, ha, hb⟩ | ⟨a, ha, hb⟩)
    · exact ⟨a, .inl ha, hb⟩
    · exact ⟨a, .inr ha, hb⟩

@[simp] theorem ends_empty : ends node ∅ = ∅ := by
  ext b
  simp [ends]

theorem ends_singleton {a : α} : ends node {a} = {b | node a = .stop b} := by
  ext b
  simp [ends]

theorem Verdict.Describes.ne_unknown {v : Verdict β} {t : Set β} (h : v.Describes t) : v ≠ .unknown := by
  rintro rfl
  exact h

/-! ### What a search has explored -/

variable [DecidableEq α]

/-- A search inside `U` went from the seen nodes `seen₀` to `seen` and answers `v`: the verdict is on the nodes
that it added, and unless it stopped early it has followed each of them. -/
structure Explored (node : α → Forward α β) (U seen₀ seen : Finset α) (v : Verdict β) : Prop where
  mono : seen₀ ⊆ seen
  inside : seen ⊆ U
  holds : v.Describes (ends node (seen \ seen₀ : Finset α))
  closed : v ≠ .many → ∀ a ∈ seen, a ∉ seen₀ → ∀ b ∈ (node a).succs, b ∈ seen

variable {U seen₀ seen seen' : Finset α} {v v' : Verdict β}

theorem Explored.refl (h : seen ⊆ U) : Explored node U seen seen .missing where
  mono := Finset.Subset.refl seen
  inside := h
  holds := by
    show ends node _ = ∅
    rw [Finset.sdiff_self, Finset.coe_empty, ends_empty]
  closed _ a ha hn := absurd ha hn

/-- What was added in two goes. -/
theorem coe_sdiff_eq_union {s t u : Finset α} (h : s ⊆ t) (h' : t ⊆ u) :
    ((u \ s : Finset α) : Set α) = ((t \ s : Finset α) : Set α) ∪ ((u \ t : Finset α) : Set α) := by
  rw [← Finset.coe_union]
  congr 1
  ext x
  simp only [Finset.mem_union, Finset.mem_sdiff]
  constructor
  · rintro ⟨hx, hx₀⟩
    by_cases hxs : x ∈ t
    · exact .inl ⟨hxs, hx₀⟩
    · exact .inr ⟨hx, hxs⟩
  · rintro (⟨hx, hx₀⟩ | ⟨hx, hxs⟩)
    · exact ⟨h' hx, hx₀⟩
    · exact ⟨hx, fun hx₀ => hxs (h hx₀)⟩

/-- Two searches in a row, once the verdict on both together is known. -/
theorem Explored.trans {w : Verdict β} (h : Explored node U seen₀ seen v)
    (h' : Explored node U seen seen' v')
    (hw : ∀ s t, v.Describes s → v'.Describes t → w.Describes (s ∪ t))
    (hm : w ≠ .many → v ≠ .many ∧ v' ≠ .many) : Explored node U seen₀ seen' w where
  mono := h.mono.trans h'.mono
  inside := h'.inside
  holds := by
    rw [coe_sdiff_eq_union h.mono h'.mono, ends_union]
    exact hw _ _ h.holds h'.holds
  closed hne a ha ha₀ b hb := by
    by_cases has : a ∈ seen
    · exact h'.mono (h.closed (hm hne).1 a has ha₀ b hb)
    · exact h'.closed (hm hne).2 a ha has b hb

theorem Verdict.ofFound_ne_many {found : Option β} : Verdict.ofFound found ≠ .many := by
  cases found <;> simp [ofFound]

variable [DecidableEq β]

/-- What one more search that answers `v` leaves of `found`. -/
theorem explored_searchAll {ask : α → Finset α → Verdict β × Finset α} {as : List α}
    (hask : ∀ a ∈ as, ∀ seen, seen₀ ⊆ seen → seen ⊆ U →
      Explored node U seen (ask a seen).2 (ask a seen).1 ∧ a ∈ (ask a seen).2)
    {found : Option β} (h : Explored node U seen₀ seen (.ofFound found)) :
    Explored node U seen₀ (searchAll ask as found seen).2 (searchAll ask as found seen).1 ∧
      ((searchAll ask as found seen).1 ≠ .many → ∀ a ∈ as, a ∈ (searchAll ask as found seen).2) ∧
      seen ⊆ (searchAll ask as found seen).2 := by
  induction as generalizing found seen with
  | nil => exact ⟨h, fun _ a ha => absurd ha List.not_mem_nil, Finset.Subset.refl _⟩
  | cons a as ih =>
    have hrest : ∀ a ∈ as, ∀ seen, seen₀ ⊆ seen → seen ⊆ U →
        Explored node U seen (ask a seen).2 (ask a seen).1 ∧ a ∈ (ask a seen).2 :=
      fun b hb => hask b (List.mem_cons_of_mem a hb)
    obtain ⟨hea, hmem⟩ := hask a List.mem_cons_self seen h.mono h.inside
    -- the goal for a loop that goes on from what `a` left
    have hgo : ∀ found', Explored node U seen₀ (ask a seen).2 (.ofFound found') →
        searchAll ask (a :: as) found seen = searchAll ask as found' (ask a seen).2 →
        Explored node U seen₀ (searchAll ask (a :: as) found seen).2
            (searchAll ask (a :: as) found seen).1 ∧
          ((searchAll ask (a :: as) found seen).1 ≠ .many →
            ∀ c ∈ a :: as, c ∈ (searchAll ask (a :: as) found seen).2) ∧
          seen ⊆ (searchAll ask (a :: as) found seen).2 := by
      intro found' hf heq
      obtain ⟨h₁, h₂, h₃⟩ := ih hrest hf
      rw [heq]
      refine ⟨h₁, fun hne c hc => ?_, hea.mono.trans h₃⟩
      rcases List.mem_cons.mp hc with rfl | hc
      · exact h₃ hmem
      · exact h₂ hne c hc
    generalize hr : ask a seen = r at hea hmem hgo
    obtain ⟨v, seen'⟩ := r
    cases v with
    | missing =>
      apply hgo found
      · apply h.trans hea
        · intro s t hs ht
          rw [show t = ∅ from ht, Set.union_empty]
          exact hs
        · exact fun _ => ⟨Verdict.ofFound_ne_many, by simp⟩
      · rw [searchAll, hr]
    | unknown => exact absurd rfl hea.holds.ne_unknown
    | many =>
      rw [searchAll, hr]
      refine ⟨?_, fun hne => absurd rfl hne, hea.mono⟩
      apply h.trans hea
      · intro s t _ ht
        exact Set.Nontrivial.mono ht Set.subset_union_right
      · exact fun hne => absurd rfl hne
    | one b =>
      cases found with
      | none =>
        apply hgo (some b)
        · apply h.trans hea
          · intro s t hs ht
            rw [show s = ∅ from hs, Set.empty_union]
            exact ht
          · exact fun _ => ⟨by simp [Verdict.ofFound], by simp⟩
        · rw [searchAll, hr]
      | some b' =>
        by_cases hb : b' = b
        · subst hb
          apply hgo (some b')
          · apply h.trans hea
            · intro s t hs ht
              rw [show s = {b'} from hs, show t = {b'} from ht, Set.union_self]
              rfl
            · exact fun _ => ⟨by simp [Verdict.ofFound], by simp⟩
          · rw [searchAll, hr]
            simp
        · rw [searchAll, hr]
          dsimp only
          rw [if_pos hb]
          refine ⟨?_, fun hne => absurd rfl hne, hea.mono⟩
          apply h.trans hea
          · intro s t hs ht
            rw [show s = {b'} from hs, show t = {b} from ht]
            exact ⟨b', .inl rfl, b, .inr rfl, hb⟩
          · exact fun hne => absurd rfl hne

/-- Inside a closed set of nodes, none of them broken, a search deeper than the number of unseen nodes explores
what it adds. -/
theorem explored_search (hU : ∀ a ∈ U, ∀ b ∈ (node a).succs, b ∈ U) (hb : ∀ a ∈ U, node a ≠ .broken)
    {k : ℕ} {a : α} (ha : a ∈ U) (hs : seen ⊆ U) (hk : (U \ seen).card < k) :
    Explored node U seen (search node k a seen).2 (search node k a seen).1 ∧
      a ∈ (search node k a seen).2 := by
  induction k generalizing a seen with
  | zero => exact absurd hk (Nat.not_lt_zero _)
  | succ k ih =>
    rw [search]
    split_ifs with hseen
    · exact ⟨Explored.refl hs, hseen⟩
    have hins : insert a seen ⊆ U := Finset.insert_subset ha hs
    have hadd : ((insert a seen \ seen : Finset α) : Set α) = {a} := by
      rw [Finset.insert_sdiff_of_notMem _ hseen, Finset.sdiff_self, Finset.coe_insert, Finset.coe_empty,
        insert_empty_eq]
    have hcard : (U \ insert a seen).card < k := by
      have hlt : (U \ insert a seen).card < (U \ seen).card := by
        apply Finset.card_lt_card
        refine ⟨Finset.sdiff_subset_sdiff (Finset.Subset.refl U) (Finset.subset_insert a seen), fun h => ?_⟩
        have := h (Finset.mem_sdiff.mpr ⟨ha, hseen⟩)
        exact (Finset.mem_sdiff.mp this).2 (Finset.mem_insert_self a seen)
      omega
    cases hnode : node a with
    | broken => exact absurd hnode (hb a ha)
    | stop b =>
      refine ⟨⟨Finset.subset_insert a seen, hins, ?_, ?_⟩, Finset.mem_insert_self a seen⟩
      · rw [hadd, ends_singleton, hnode]
        show {b' | Forward.stop b = .stop b'} = {b}
        ext b'
        simp [eq_comm]
      · intro _ x hx hxs c hc
        obtain rfl : x = a := (Finset.mem_insert.mp hx).resolve_right hxs
        rw [hnode] at hc
        exact absurd hc List.not_mem_nil
    | next as =>
      -- the loop starts with `a` added and nothing found, and ends with all of `as` asked
      have hask : ∀ b ∈ as, ∀ seen', insert a seen ⊆ seen' → seen' ⊆ U →
          Explored node U seen' (search node k b seen').2 (search node k b seen').1 ∧
            b ∈ (search node k b seen').2 := by
        intro b hbs seen' hsub hin
        have hless := Finset.card_le_card (Finset.sdiff_subset_sdiff (Finset.Subset.refl U) hsub)
        exact ih (hU a ha b (by rw [hnode]; exact hbs)) hin (by omega)
      have hstart : Explored node U (insert a seen) (insert a seen) (.ofFound none) := Explored.refl hins
      obtain ⟨hloop, hall, hsub⟩ := explored_searchAll hask hstart
      refine ⟨⟨(Finset.subset_insert a seen).trans hsub, hloop.inside, ?_, ?_⟩,
        hsub (Finset.mem_insert_self a seen)⟩
      · rw [coe_sdiff_eq_union (Finset.subset_insert a seen) hsub, ends_union, hadd, ends_singleton, hnode]
        have hnone : {b : β | (Forward.next as : Forward α β) = .stop b} = ∅ := by
          ext b
          simp
        rw [hnone, Set.empty_union]
        exact hloop.holds
      · intro hne x hx hxs c hc
        by_cases hxa : x = a
        · subst hxa
          rw [hnode] at hc
          exact hall hne c hc
        · exact hloop.closed hne x hx (by simp [hxa, hxs]) c hc

/-- A search that can go as deep as there are nodes to reach tells whether the values it can reach are none,
one or several. -/
theorem search_describes {a : α} {k : ℕ}
    (hU : ∀ x, x ∈ U ↔ Relation.ReflTransGen (Forwards node) a x) (hb : ∀ x ∈ U, node x ≠ .broken)
    (hk : U.card < k) : (search node k a ∅).1.Describes (ends node U) := by
  have hclosed : ∀ x ∈ U, ∀ y ∈ (node x).succs, y ∈ U :=
    fun x hx y hy => (hU y).mpr (((hU x).mp hx).tail hy)
  obtain ⟨hex, hmem⟩ := explored_search hclosed hb ((hU a).mpr .refl) (Finset.empty_subset U)
    (by rwa [Finset.sdiff_empty])
  have hsub := hex.holds
  rw [Finset.sdiff_empty] at hsub
  by_cases hm : (search node k a ∅).1 = .many
  · rw [hm] at hsub ⊢
    apply Set.Nontrivial.mono hsub
    rintro b ⟨x, hx, hxb⟩
    exact ⟨x, hex.inside hx, hxb⟩
  -- a search that did not stop early has seen every node that can be reached
  · have hall : U ⊆ (search node k a ∅).2 := by
      intro x hx
      induction (hU x).mp hx with
      | refl => exact hmem
      | tail hxy hyz ih => exact hex.closed hm _ (ih ((hU _).mpr hxy)) (Finset.notMem_empty _) _ hyz
    rwa [Finset.Subset.antisymm hex.inside hall] at hsub

/-! ### Searches of two graphs -/

omit [DecidableEq α] in
/-- Having asked a node, a loop stops or goes on with what that node left. -/
theorem searchAll_cons (ask : α → Finset α → Verdict β × Finset α) (a : α) (as : List α) (found : Option β)
    (seen : Finset α) :
    (searchAll ask (a :: as) found seen).2 = (ask a seen).2 ∨
      ∃ found', searchAll ask (a :: as) found seen = searchAll ask as found' (ask a seen).2 := by
  rw [searchAll]
  generalize ask a seen = r
  obtain ⟨v, seen'⟩ := r
  cases v with
  | missing => exact .inr ⟨found, rfl⟩
  | many => exact .inl rfl
  | unknown => exact .inl rfl
  | one b =>
    cases found with
    | none => exact .inr ⟨some b, rfl⟩
    | some b' =>
      dsimp only
      split_ifs with hb
      · exact .inl rfl
      · exact .inr ⟨some b', rfl⟩

omit [DecidableEq α] in
@[simp] theorem searchAll_singleton (ask : α → Finset α → Verdict β × Finset α) (a : α) (seen : Finset α) :
    searchAll ask [a] none seen = ask a seen := by
  rw [searchAll]
  generalize ask a seen = r
  obtain ⟨v, seen'⟩ := r
  cases v <;> rfl

omit [DecidableEq α] in
theorem subset_searchAll {ask : α → Finset α → Verdict β × Finset α} (hask : ∀ a seen, seen ⊆ (ask a seen).2)
    (as : List α) (found : Option β) (seen : Finset α) : seen ⊆ (searchAll ask as found seen).2 := by
  induction as generalizing found seen with
  | nil => exact Finset.Subset.refl _
  | cons a as ih =>
    apply (hask a seen).trans
    rcases searchAll_cons ask a as found seen with h | ⟨found', h⟩
    · rw [h]
    · rw [h]
      exact ih found' _

theorem subset_search (k : ℕ) (a : α) (seen : Finset α) : seen ⊆ (search node k a seen).2 := by
  induction k generalizing a seen with
  | zero => exact Finset.Subset.refl _
  | succ k ih =>
    rw [search]
    split_ifs
    · exact Finset.Subset.refl _
    have hins := Finset.subset_insert a seen
    cases node a with
    | stop b => exact hins
    | broken => exact hins
    | next as => exact hins.trans (subset_searchAll ih as none _)

omit [DecidableEq α] in
/-- Two ways of asking that agree as long as they stay inside `S` lead a loop that stays inside `S` the same
way. -/
theorem searchAll_congr {ask ask' : α → Finset α → Verdict β × Finset α} {S : Finset α}
    (hmono : ∀ a seen, seen ⊆ (ask a seen).2)
    (hask : ∀ a seen, (ask a seen).2 ⊆ S → ask' a seen = ask a seen) {as : List α} {found : Option β}
    (hS : (searchAll ask as found seen).2 ⊆ S) :
    searchAll ask' as found seen = searchAll ask as found seen := by
  induction as generalizing found seen with
  | nil => rfl
  | cons a as ih =>
    have ha : (ask a seen).2 ⊆ S := by
      apply Finset.Subset.trans _ hS
      rcases searchAll_cons ask a as found seen with h | ⟨found', h⟩
      · rw [h]
      · rw [h]
        exact subset_searchAll hmono as found' _
    rw [searchAll] at hS
    rw [searchAll, searchAll, hask a seen ha]
    generalize ask a seen = r at hS ⊢
    obtain ⟨v, seen'⟩ := r
    cases v with
    | missing => exact ih hS
    | many => rfl
    | unknown => rfl
    | one b =>
      cases found with
      | none => exact ih hS
      | some b' =>
        dsimp only at hS ⊢
        split_ifs at hS ⊢ with hb
        · rfl
        · exact ih hS

/-- A search that sees only nodes on which two graphs agree is the same search of both. -/
theorem search_congr {node' : α → Forward α β} {S : Finset α} (hS : ∀ x ∈ S, node' x = node x) {k : ℕ} {a : α}
    (h : (search node k a seen).2 ⊆ S) : search node' k a seen = search node k a seen := by
  induction k generalizing a seen with
  | zero => rfl
  | succ k ih =>
    rw [search] at h
    rw [search, search]
    by_cases hseen : a ∈ seen
    · rw [if_pos hseen, if_pos hseen]
    rw [if_neg hseen] at h ⊢
    rw [if_neg hseen]
    have ha : a ∈ S := by
      apply h
      cases node a with
      | stop b => exact Finset.mem_insert_self a seen
      | broken => exact Finset.mem_insert_self a seen
      | next as => exact subset_searchAll (subset_search k) as none _ (Finset.mem_insert_self a seen)
    rw [hS a ha]
    cases hnode : node a with
    | stop b => rfl
    | broken => rfl
    | next as =>
      rw [hnode] at h
      exact searchAll_congr (subset_search k) (fun b seen' hb => ih hb) h

omit [DecidableEq α] in
/-- The one value of a loop was found before it or by one of the nodes asked. -/
theorem searchAll_one {ask : α → Finset α → Verdict β × Finset α} {P : Finset α → β → Prop}
    (hmono : ∀ a seen, seen ⊆ (ask a seen).2) (hP : ∀ {s t b}, s ⊆ t → P s b → P t b)
    (hask : ∀ a seen b, (ask a seen).1 = .one b → P (ask a seen).2 b) {as : List α} {found : Option β} {b : β}
    (hfound : ∀ b, found = some b → P seen b) (h : (searchAll ask as found seen).1 = .one b) :
    P (searchAll ask as found seen).2 b := by
  -- the induction is on the list; what was found is carried to the larger set
  induction as generalizing found seen with
  | nil =>
    apply hfound
    cases found with
    | none => cases h
    | some b' => exact congrArg some (Verdict.one.inj h)
  | cons a as ih =>
    have ha := hask a seen
    have hsub := hmono a seen
    rw [searchAll] at h ⊢
    generalize ask a seen = r at ha hsub h ⊢
    obtain ⟨v, seen'⟩ := r
    cases v with
    | missing => exact ih (fun b hb => hP hsub (hfound b hb)) h
    | many => cases h
    | unknown => cases h
    | one b' =>
      cases found with
      | none =>
        apply ih _ h
        rintro _ ⟨⟩
        exact ha b' rfl
      | some b'' =>
        dsimp only at h ⊢
        split_ifs at h ⊢ with hb
        apply ih _ h
        exact fun b hb => hP hsub (hfound b hb)

/-- The one value that a search finds is held by a node it has seen. -/
theorem exists_stop_of_search {k : ℕ} {a : α} {b : β} (h : (search node k a seen).1 = .one b) :
    ∃ x ∈ (search node k a seen).2, node x = .stop b := by
  induction k generalizing a seen b with
  | zero => cases h
  | succ k ih =>
    rw [search] at h ⊢
    by_cases hseen : a ∈ seen
    · rw [if_pos hseen] at h
      cases h
    rw [if_neg hseen] at h ⊢
    cases hnode : node a with
    | stop b' =>
      rw [hnode] at h
      cases h
      exact ⟨a, Finset.mem_insert_self a seen, hnode⟩
    | broken =>
      rw [hnode] at h
      cases h
    | next as =>
      rw [hnode] at h
      refine searchAll_one (P := fun s b => ∃ x ∈ s, node x = .stop b) (subset_search k) ?_ ?_ ?_ h
      · rintro s t b hst ⟨x, hx, hxb⟩
        exact ⟨x, hst hx, hxb⟩
      · exact fun a seen b hb => ih hb
      · rintro _ ⟨⟩

/-- A search sees nothing outside a set that forwarding does not leave. -/
theorem forall_mem_search {P : α → Prop} (hP : ∀ x, P x → ∀ y ∈ (node x).succs, P y) {k : ℕ} {a : α}
    (ha : P a) (hseen : ∀ x ∈ seen, P x) : ∀ x ∈ (search node k a seen).2, P x := by
  induction k generalizing a seen with
  | zero => exact hseen
  | succ k ih =>
    rw [search]
    split_ifs
    · exact hseen
    have hins : ∀ x ∈ insert a seen, P x := by
      intro x hx
      rcases Finset.mem_insert.mp hx with rfl | hx
      · exact ha
      · exact hseen x hx
    cases hnode : node a with
    | stop b => exact hins
    | broken => exact hins
    | next as =>
      have has : ∀ b ∈ as, P b := fun b hb => hP a ha b (by rw [hnode]; exact hb)
      -- over the nodes asked, from any seen set inside `P`
      have hloop : ∀ (found : Option β) (seen : Finset α), (∀ x ∈ seen, P x) →
          ∀ x ∈ (searchAll (search node k) as found seen).2, P x := by
        clear hnode
        induction as with
        | nil => exact fun _ _ h => h
        | cons b as ih' =>
          intro found seen hs
          have hb := ih (has b List.mem_cons_self) hs
          rcases searchAll_cons (search node k) b as found seen with h | ⟨found', h⟩
          · rw [h]
            exact hb
          · rw [h]
            exact ih' (fun c hc => has c (List.mem_cons_of_mem b hc)) found' _ hb
      exact hloop none _ hins

end CodeGraph.Lib
