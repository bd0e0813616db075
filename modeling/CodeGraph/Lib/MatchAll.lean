import CodeGraph.Lib.Determined

/-!
# All matches of a pattern with a slot

A search for all matches takes the first one at or behind a place and goes on behind its end, so a match that begins
inside another one is passed over (`matchLoop`). With a slot in the pattern, a search with one word in the slot finds
those matches of the search with any word that have this word there, as long as every match has one word that it can
have, and no match begins inside a match with another word (`matchAll_filter`).
-/

namespace CodeGraph.Lib

/-- Where a match begins, where its parts end, and where it ends. -/
structure Found where
  start : ℕ
  group : ℕ
  slot : ℕ
  slotEnd : ℕ
  stop : ℕ
  deriving DecidableEq

/-- A pattern around a slot. What is in front of the slot is in two parts. -/
structure Slotted (α : Type*) where
  before : Pattern α
  lead : Pattern α
  tail : Pattern α

section Loop

variable {find find' : ℕ → Option Found} {p : Found → Bool} {l : List ℕ} {next next' : ℕ}

/-- The matches from the positions of a list on, from `next` on. -/
def matchLoop (find : ℕ → Option Found) : ℕ → List ℕ → List Found
  | _, [] => []
  | next, i :: l =>
    if i < next then matchLoop find next l
    else match find i with
      | none => matchLoop find next l
      | some m => m :: matchLoop find (max m.stop (i + 1)) l

theorem matchLoop_of_lt {i : ℕ} (h : i < next) : matchLoop find next (i :: l) = matchLoop find next l := by
  rw [matchLoop, if_pos h]

theorem matchLoop_of_none {i : ℕ} (h : find i = none) : matchLoop find next (i :: l) = matchLoop find next l := by
  rw [matchLoop, h]
  split_ifs <;> rfl

theorem matchLoop_of_some {i : ℕ} {m : Found} (hle : next ≤ i) (h : find i = some m) :
    matchLoop find next (i :: l) = m :: matchLoop find (max m.stop (i + 1)) l := by
  rw [matchLoop, if_neg (Nat.not_lt.mpr hle), h]

/-- The search for the matches with `p` may be behind the search for all, as long as there are none in between. -/
theorem matchLoop_filter (hfind : ∀ i ∈ l, find' i = (find i).filter p)
    (hapart : ∀ i m j m', j ∈ l → find i = some m → find j = some m' → i < j → j < m.stop → p m' = p m)
    (hsorted : l.Pairwise (· < ·)) (hle : next' ≤ next) (hgap : ∀ i ∈ l, next' ≤ i → i < next → find' i = none) :
    matchLoop find' next' l = (matchLoop find next l).filter p := by
  induction l generalizing next next' with
  | nil => rfl
  | cons i l ih =>
    obtain ⟨hhead, htail⟩ := List.pairwise_cons.mp hsorted
    have hfindi := hfind i List.mem_cons_self
    have hfindl : ∀ j ∈ l, find' j = (find j).filter p := fun j hj => hfind j (List.mem_cons_of_mem i hj)
    have hapart' : ∀ i m j m', j ∈ l → find i = some m → find j = some m' → i < j → j < m.stop → p m' = p m :=
      fun i m j m' hj => hapart i m j m' (List.mem_cons_of_mem _ hj)
    have hgap' : ∀ j ∈ l, next' ≤ j → j < next → find' j = none := fun j hj => hgap j (List.mem_cons_of_mem i hj)
    by_cases hi : i < next
    · rw [matchLoop_of_lt hi, ← ih hfindl hapart' htail hle hgap']
      by_cases hi' : i < next'
      · exact matchLoop_of_lt hi'
      · exact matchLoop_of_none (hgap i List.mem_cons_self (Nat.not_lt.mp hi') hi)
    · have hnext : next ≤ i := Nat.not_lt.mp hi
      cases hfound : find i with
      | none =>
        rw [matchLoop_of_none hfound, matchLoop_of_none (by rw [hfindi, hfound]; rfl)]
        exact ih hfindl hapart' htail hle hgap'
      | some m =>
        rw [matchLoop_of_some hnext hfound]
        by_cases hp : p m = true
        · have hfound' : find' i = some m := by
            rw [hfindi, hfound]
            exact if_pos hp
          rw [matchLoop_of_some (Nat.le_trans hle hnext) hfound', List.filter_cons_of_pos hp]
          refine congrArg (m :: ·) (ih hfindl hapart' htail (Nat.le_refl _) fun j _ hj hj' => ?_)
          exact absurd hj' (Nat.not_lt.mpr hj)
        · have hfound' : find' i = none := by
            rw [hfindi, hfound]
            exact if_neg hp
          rw [matchLoop_of_none hfound', List.filter_cons_of_neg hp]
          refine ih hfindl hapart' htail (by omega) fun j hj _ hj' => ?_
          have hij := hhead j hj
          -- A match that begins inside this one is none with `p` either.
          rw [hfindl j hj]
          cases hfoundj : find j with
          | none => rfl
          | some m' =>
            have hsame := hapart' i m j m' hj hfound hfoundj hij (by omega)
            refine if_neg ?_
            rwa [hsame]

end Loop

namespace Slotted

variable {α : Type*} {w : List α} {d : Slotted α} {slot any : Pattern α} {i j : ℕ} {m : Found}

/-- The ways to match from `i` on, in the order of the search. -/
def ways (w : List α) (d : Slotted α) (slot : Pattern α) (i : ℕ) : List Found :=
  (d.before.ends w i).flatMap fun a => (d.lead.ends w a).flatMap fun b => (slot.ends w b).flatMap fun c =>
    (d.tail.ends w c).map fun e => ⟨i, a, b, c, e⟩

def matchAt (w : List α) (d : Slotted α) (slot : Pattern α) (i : ℕ) : Option Found := (d.ways w slot i).head?

def matchAll (w : List α) (d : Slotted α) (slot : Pattern α) : List Found :=
  matchLoop (d.matchAt w slot) 0 (List.range (w.length + 1))

/-- What is in the slot. -/
def text (w : List α) (m : Found) : List α := (w.take m.slotEnd).drop m.slot

theorem mem_ways : m ∈ d.ways w slot i ↔ m.start = i ∧ m.group ∈ d.before.ends w i ∧ m.slot ∈ d.lead.ends w m.group ∧
    m.slotEnd ∈ slot.ends w m.slot ∧ m.stop ∈ d.tail.ends w m.slotEnd := by
  simp only [ways, List.mem_flatMap, List.mem_map]
  constructor
  · rintro ⟨a, ha, b, hb, c, hc, e, he, rfl⟩
    exact ⟨rfl, ha, hb, hc, he⟩
  · rintro ⟨rfl, ha, hb, hc, he⟩
    exact ⟨m.group, ha, m.slot, hb, m.slotEnd, hc, m.stop, he, rfl⟩

theorem head_flatMap {β γ : Type*} {l : List β} {f : β → List γ} {x : γ} (h : (l.flatMap f).head? = some x) :
    ∃ y ∈ l, (f y).head? = some x := by
  induction l with
  | nil => cases h
  | cons y l ih =>
    rw [List.flatMap_cons, List.head?_append, Option.or_eq_some_iff] at h
    rcases h with h | ⟨-, h⟩
    · exact ⟨y, List.mem_cons_self, h⟩
    · obtain ⟨z, hz, hx⟩ := ih h
      exact ⟨z, List.mem_cons_of_mem y hz, hx⟩

/-- The first way ends at the first place that the tail tries. -/
theorem head_tail (h : d.matchAt w slot i = some m) : (d.tail.ends w m.slotEnd).head? = some m.stop := by
  obtain ⟨a, -, h⟩ := head_flatMap h
  obtain ⟨b, -, h⟩ := head_flatMap h
  obtain ⟨c, -, h⟩ := head_flatMap h
  rw [List.head?_map, Option.map_eq_some_iff] at h
  obtain ⟨e, he, rfl⟩ := h
  exact he

/-- Every way to match has its slot at one place. -/
def OneSlot (w : List α) (d : Slotted α) (slot : Pattern α) (i : ℕ) : Prop :=
  ∀ m ∈ d.ways w slot i, ∀ m' ∈ d.ways w slot i, m.group = m'.group ∧ m.slot = m'.slot ∧ m.slotEnd = m'.slotEnd

/-- Here the tail matches. -/
def TailAt (w : List α) (d : Slotted α) (c : ℕ) : Prop := ∃ e, d.tail.toRe.between w c e

/-- Here the slot and the tail match. -/
def SlotAt (w : List α) (d : Slotted α) (slot : Pattern α) (b : ℕ) : Prop :=
  ∃ c, slot.toRe.between w b c ∧ d.TailAt w c

/-- Every way to try is kept. -/
def Backtracks (d : Slotted α) : Prop := d.before.Backtracks ∧ d.lead.Backtracks ∧ d.tail.Backtracks

theorem oneSlot_of_determined (hd : d.Backtracks) (hslot : slot.Backtracks) (hi : i ≤ w.length)
    (hbefore : d.before.toRe.Determined w fun a => ∃ b, d.lead.toRe.between w a b ∧ d.SlotAt w slot b)
    (hlead : d.lead.toRe.Determined w (d.SlotAt w slot))
    (hone : ∀ a b c c', a ≤ w.length → b ∈ d.lead.ends w a → slot.toRe.between w b c → d.TailAt w c →
      slot.toRe.between w b c' → d.TailAt w c' → c = c') : d.OneSlot w slot i := by
  have hparts : ∀ {m}, m ∈ d.ways w slot i → d.before.toRe.between w i m.group ∧ m.group ≤ w.length ∧
      d.lead.toRe.between w m.group m.slot ∧ m.slot ∈ d.lead.ends w m.group ∧
      slot.toRe.between w m.slot m.slotEnd ∧ d.TailAt w m.slotEnd := by
    intro m hm
    obtain ⟨-, hgroup, hlead, hend, hstop⟩ := mem_ways.mp hm
    have hgroup' := (Pattern.mem_ends hd.1 hi).mp hgroup
    have hlen := (d.before.toRe.advances hi hgroup').2
    have hlead' := (Pattern.mem_ends hd.2.1 hlen).mp hlead
    have hlen' := (d.lead.toRe.advances hlen hlead').2
    have hend' := (Pattern.mem_ends hslot hlen').mp hend
    have hlen'' := (slot.toRe.advances hlen' hend').2
    exact ⟨hgroup', hlen, hlead', hlead, hend', _, (Pattern.mem_ends hd.2.2 hlen'').mp hstop⟩
  intro m hm m' hm'
  obtain ⟨hgroup, hlen, hb, hmem, hc, he⟩ := hparts hm
  obtain ⟨hgroup', -, hb', -, hc', he'⟩ := hparts hm'
  have hsame : m.group = m'.group := hbefore hgroup ⟨_, hb, _, hc, he⟩ hgroup' ⟨_, hb', _, hc', he'⟩
  rw [← hsame] at hb'
  have hslotSame : m.slot = m'.slot := hlead hb ⟨_, hc, he⟩ hb' ⟨_, hc', he'⟩
  rw [← hslotSame] at hc'
  exact ⟨hsame, hslotSame, hone _ _ _ _ hlen hmem hc he hc' he'⟩

/-- The match with some words in the slot. -/
theorem matchAt_filter {q : List α → Bool} (hone : d.OneSlot w any i)
    (hslot : ∀ b c, c ∈ slot.ends w b ↔ c ∈ any.ends w b ∧ q ((w.take c).drop b) = true) :
    d.matchAt w slot i = (d.matchAt w any i).filter fun m => q (text w m) := by
  have hways : ∀ {m}, m ∈ d.ways w slot i ↔ m ∈ d.ways w any i ∧ q (text w m) = true := by
    intro m
    rw [mem_ways, mem_ways, hslot, text]
    tauto
  cases hany : d.matchAt w any i with
  | none =>
    rw [matchAt, List.head?_eq_none_iff] at hany
    show d.matchAt w slot i = none
    rw [matchAt, List.head?_eq_none_iff, List.eq_nil_iff_forall_not_mem]
    intro m hm
    have hmem := (hways.mp hm).1
    rw [hany] at hmem
    cases hmem
  | some m =>
    have hm : m ∈ d.ways w any i := List.mem_of_head? hany
    cases hsome : d.matchAt w slot i with
    | none =>
      rw [matchAt, List.head?_eq_none_iff] at hsome
      refine (if_neg fun hq => ?_).symm
      have hmem := hways.mpr ⟨hm, hq⟩
      rw [hsome] at hmem
      cases hmem
    | some m' =>
      obtain ⟨hm', hq⟩ := hways.mp (List.mem_of_head? hsome)
      -- there is one way to fill the slot, so the first match is the same
      obtain ⟨hgroup, hslot', hend⟩ := hone m hm m' hm'
      have hstop : some m.stop = some m'.stop := by
        rw [← head_tail hany, ← head_tail hsome, hend]
      have hstart : m.start = m'.start := (mem_ways.mp hm).1.trans (mem_ways.mp hm').1.symm
      have hsame : m' = m := by
        cases m
        cases m'
        simp_all
      rw [hsame] at hq ⊢
      exact (if_pos hq).symm

/-- The matches with some words in the slot, where none begins inside a match with other words. -/
theorem matchAll_filter {q : List α → Bool} (hone : ∀ i ≤ w.length, d.OneSlot w any i)
    (hslot : ∀ b c, c ∈ slot.ends w b ↔ c ∈ any.ends w b ∧ q ((w.take c).drop b) = true)
    (hapart : ∀ i m j m', j ≤ w.length → d.matchAt w any i = some m → d.matchAt w any j = some m' → i < j →
      j < m.stop → q (text w m') = q (text w m)) :
    d.matchAll w slot = (d.matchAll w any).filter fun m => q (text w m) := by
  have hfind : ∀ i ∈ List.range (w.length + 1),
      d.matchAt w slot i = (d.matchAt w any i).filter fun m => q (text w m) := fun i hi =>
    matchAt_filter (hone i (Nat.le_of_lt_succ (List.mem_range.mp hi))) hslot
  refine matchLoop_filter hfind ?_ List.pairwise_lt_range (Nat.le_refl 0) ?_
  · exact fun i m j m' hj => hapart i m j m' (Nat.le_of_lt_succ (List.mem_range.mp hj))
  · intro i _ _ hi
    exact absurd hi (Nat.not_lt_zero i)

end Slotted

end CodeGraph.Lib
