import CodeGraph.Outcome.Score
import Mathlib.Data.List.Nodup
import Mathlib.Order.Bounds.Basic

/-!
# The order of events within a message

What a call's outcome says of adoption depends on the returned files that were opened after it and not before
(`scoreCall_spec`), on nothing else. In one order of a message the files that it touches itself count as opened before
the call, in another they do not; and the touches of the message with the next call count where they stand before that
call. The more files count as opened before, and the fewer touches count, the less is adopted. So no order makes a
difference just when the two extreme ones agree (`orderFree_iff`).
-/

namespace CodeGraph.Outcome

/-! ### Sessions -/

def Event.turn? : Event → Option ℕ
  | .cgCall call => some call.turn
  | .fileTouch _ turn => some turn
  | .rawGrep => none
  | .other => none

def Event.isCall : Event → Bool
  | .cgCall _ => true
  | _ => false

/-- The events of one assistant message. -/
structure Message where
  turn : ℕ
  events : List Event
  ofTurn : ∀ e ∈ events, ∀ t, e.turn? = some t → t = turn

/-- A session whose calls and touches of one turn are contiguous. -/
structure Session where
  messages : List Message
  distinct : (messages.map Message.turn).Nodup

/-- The same message with its events in another order. -/
def Shuffled (m m' : Message) : Prop := m.turn = m'.turn ∧ m.events.Perm m'.events

def eventsOf (ms : List Message) : List Event := ms.flatMap Message.events

def Session.events (s : Session) : List Event := eventsOf s.messages

def Rearranged (s s' : Session) : Prop := List.Forall₂ Shuffled s.messages s'.messages

/-- `adopted` and `adopted_rank` of the call behind some events. -/
def verdictAt (events before : List Event) : Option (Bool × Option ℕ) :=
  (scoreSession events)[(before.filter Event.isCall).length]?.map fun o => (o.adopted, o.adoptedRank)

/-- Every rearrangement gives each call the same `adopted` and `adopted_rank`. -/
def OrderFree (s : Session) : Prop :=
  ∀ s', Rearranged s s' → ∀ call pre post pre' post', s.events = pre ++ .cgCall call :: post →
    s'.events = pre' ++ .cgCall call :: post' → verdictAt s.events pre = verdictAt s'.events pre'

def touches (events : List Event) : List Text :=
  events.filterMap fun e => match e with
    | .fileTouch path _ => some path
    | _ => none

/-- No touch has opened the file. -/
def Fresh (touched : List Text) (it : ReturnedItem) : Prop := ∀ t ∈ touched, pathsMatch it.filePath t = false

/-- Some touch opens the file. -/
def Hit (touched : List Text) (it : ReturnedItem) : Prop := ∃ t ∈ touched, pathsMatch it.filePath t = true

/-- The messages up to the next call. -/
def quiet (ms : List Message) : List Message := ms.takeWhile fun m => !m.events.any Event.isCall

/-- The message with the next call. -/
def closing (ms : List Message) : List Message := (ms.dropWhile fun m => !m.events.any Event.isCall).take 1

/-- The second file is ranked at least as high as the first. -/
def NoWorse (it it' : ReturnedItem) : Prop := ∀ r, it.rank = some r → ∃ r' ≤ r, it'.rank = some r'

/-- A file of the call that may be adopted in some order is no better than one that is adopted in every order: one that
is opened before the message of the next call, and not in the call's own message. -/
def Steady (call : CgCall) (before : List Message) (m : Message) (after : List Message) : Prop :=
  ∀ it ∈ call.returned, Fresh (touches (eventsOf before)) it →
    Hit (touches (eventsOf (quiet after)) ++ touches (eventsOf (closing after))) it →
    ∃ it' ∈ call.returned, Fresh (touches (eventsOf before) ++ touches m.events) it' ∧
      Hit (touches (eventsOf (quiet after))) it' ∧ NoWorse it it'

variable {call : CgCall} {events pre post rest : List Event} {turn : ℕ} {path : Text} {st : Forward}
  {used used' : Set ReturnedItem} {items : List ReturnedItem} {it : ReturnedItem} {touched window : List Text}

/-! ### The forward scan -/

/-- The touches that the forward scan sees. -/
def windowOf (turn : ℕ) : List Event → List Text
  | [] => []
  | .cgCall call :: rest => if call.turn ≠ turn then [] else windowOf turn rest
  | .fileTouch path t :: rest => if t = turn then windowOf turn rest else path :: windowOf turn rest
  | _ :: rest => windowOf turn rest

theorem scan_eq : st.scan turn items rest = (windowOf turn rest).foldl (Forward.touch items) st := by
  induction rest generalizing st with
  | nil => rfl
  | cons e rest ih =>
    cases e with
    | cgCall call =>
      rw [Forward.scan, windowOf]
      split_ifs
      · rfl
      · exact ih
    | fileTouch path t =>
      rw [Forward.scan, windowOf]
      split_ifs
      · exact ih
      · exact ih
    | rawGrep => exact ih
    | other => exact ih

/-- What the scan knows when it has seen these files opened. -/
structure Knows (st : Forward) (used : Set ReturnedItem) : Prop where
  adopted : st.adopted = true ↔ used.Nonempty
  best : ∀ r f, st.bestRanked = some (r, f) → IsLeast {r | ∃ it ∈ used, it.rank = some r} r
  unranked : st.bestRanked = none → ∀ it ∈ used, it.rank = none

theorem knows_start : Knows .start ∅ :=
  ⟨by simp [Forward.start], fun _ _ h => (nomatch h), fun _ _ h => h.elim⟩

theorem Knows.congr (h : Knows st used) (heq : ∀ it, it ∈ used ↔ it ∈ used') : Knows st used' := by
  rwa [← Set.ext heq]

theorem Forward.take_bestRanked (st : Forward) (hit : pathsMatch it.filePath path = true) :
    (st.take path it).bestRanked = match it.rank with
      | some r => if st.bestRanked.all fun b => r < b.1 then some (r, it.filePath) else st.bestRanked
      | none => st.bestRanked := by
  have htake : st.take path it = _ := if_pos hit
  exact congrArg Forward.bestRanked htake

theorem Knows.take (h : Knows st used) (hit : pathsMatch it.filePath path = true) :
    Knows (st.take path it) (insert it used) := by
  rw [Forward.take, if_pos hit]
  refine ⟨iff_of_true rfl (Set.insert_nonempty it used), fun r f hbest => ?_, fun hnone i hi => ?_⟩
  · -- the best rank is the old one or the item's, whichever is lower
    have htake := Forward.take_bestRanked st hit
    rw [Forward.take, if_pos hit] at htake
    replace hbest := htake.symm.trans hbest
    cases hrank : it.rank with
    | none =>
      rw [hrank] at hbest
      -- the item has no rank, so the best is still the least of the others
      obtain ⟨⟨i, hi, hr⟩, hleast⟩ := h.best r f hbest
      refine ⟨⟨i, Set.mem_insert_of_mem it hi, hr⟩, ?_⟩
      rintro r' ⟨j, rfl | hj, hr'⟩
      · rw [hrank] at hr'
        cases hr'
      · exact hleast ⟨j, hj, hr'⟩
    | some s =>
      rw [hrank] at hbest
      dsimp only at hbest
      -- the item has a rank: it is below the best, or the best stays
      split_ifs at hbest with hlower
      · obtain ⟨rfl, -⟩ := Prod.mk.inj (Option.some.inj hbest)
        refine ⟨⟨it, Set.mem_insert it used, hrank⟩, ?_⟩
        rintro r' ⟨j, rfl | hj, hr'⟩
        · rw [hrank] at hr'
          exact (Option.some.inj hr').le
        · cases hold : st.bestRanked with
          | none => rw [h.unranked hold j hj] at hr'; cases hr'
          | some b =>
            have hle : b.1 ≤ r' := (h.best b.1 b.2 hold).2 ⟨j, hj, hr'⟩
            rw [hold] at hlower
            have hlt : s < b.1 := of_decide_eq_true hlower
            omega
      · obtain ⟨⟨i, hi, hr⟩, hleast⟩ := h.best r f hbest
        refine ⟨⟨i, Set.mem_insert_of_mem it hi, hr⟩, ?_⟩
        rintro r' ⟨j, rfl | hj, hr'⟩
        · rw [hbest] at hlower
          have hle : ¬ s < r := fun hlt => hlower (decide_eq_true hlt)
          obtain rfl := Option.some.inj (hrank.symm.trans hr')
          exact not_lt.mp hle
        · exact hleast ⟨j, hj, hr'⟩
  · -- no best rank is left: the item had none, and none was before it
    change (match it.rank with
      | some r => if st.bestRanked.all fun b => r < b.1 then some (r, it.filePath) else st.bestRanked
      | none => st.bestRanked) = none at hnone
    cases hrank : it.rank with
    | none =>
      rw [hrank] at hnone
      rcases hi with rfl | hi
      · exact hrank
      · exact h.unranked hnone i hi
    | some s =>
      rw [hrank] at hnone
      dsimp only at hnone
      split_ifs at hnone with hlower
      rw [hnone] at hlower
      exact absurd rfl hlower

theorem Knows.foldl_take (h : Knows st used) (path : Text) (items : List ReturnedItem) :
    Knows (items.foldl (Forward.take path) st) (used ∪ {it | it ∈ items ∧ pathsMatch it.filePath path = true}) := by
  induction items generalizing st used with
  | nil => exact h.congr fun it => by simp
  | cons it items ih =>
    rw [List.foldl_cons]
    by_cases hit : pathsMatch it.filePath path = true
    · refine (ih (h.take hit)).congr fun i => ?_
      simp only [Set.mem_union, Set.mem_insert_iff, Set.mem_ofPred_eq, List.mem_cons]
      constructor
      · rintro ((rfl | hi) | hi)
        · exact .inr ⟨.inl rfl, hit⟩
        · exact .inl hi
        · exact .inr ⟨.inr hi.1, hi.2⟩
      · rintro (hi | ⟨rfl | hi, hm⟩)
        · exact .inl (.inr hi)
        · exact .inl (.inl rfl)
        · exact .inr ⟨hi, hm⟩
    · have hkeep : st.take path it = st := if_neg hit
      rw [hkeep]
      refine (ih h).congr fun i => ?_
      simp only [Set.mem_union, Set.mem_ofPred_eq, List.mem_cons]
      refine or_congr_right ⟨fun hi => ⟨.inr hi.1, hi.2⟩, ?_⟩
      rintro ⟨rfl | hi, hm⟩
      · exact absurd hm hit
      · exact ⟨hi, hm⟩

theorem Knows.foldl_touch (h : Knows st used) (items : List ReturnedItem) (window : List Text) :
    Knows (window.foldl (Forward.touch items) st) (used ∪ {it | it ∈ items ∧ Hit window it}) := by
  induction window generalizing st used with
  | nil => exact h.congr fun it => by simp [Hit]
  | cons path window ih =>
    have htouch : Knows (st.touch items path) (used ∪ {it | it ∈ items ∧ pathsMatch it.filePath path = true}) :=
      (show Knows { st with touchesSeen := st.touchesSeen + 1 } used from ⟨h.adopted, h.best, h.unranked⟩).foldl_take
        path items
    rw [List.foldl_cons]
    refine (ih htouch).congr fun it => ?_
    simp only [Set.mem_union, Set.mem_ofPred_eq, Hit, List.exists_mem_cons_iff, and_or_left, or_assoc]

/-- The returned files that count as adopted. -/
def adoptedItems (call : CgCall) (touched window : List Text) : Set ReturnedItem :=
  {it | it ∈ call.returned ∧ Fresh touched it ∧ Hit window it}

/-- Nothing in the first set is better than all of the second. -/
def Dominated (used used' : Set ReturnedItem) : Prop := ∀ it ∈ used, ∃ it' ∈ used', NoWorse it it'

theorem mem_candidates : it ∈ candidates touched call ↔ it ∈ call.returned ∧ Fresh touched it := by
  rw [candidates, List.mem_filter]
  refine and_congr_right fun _ => ?_
  rw [Bool.not_eq_true', List.any_eq_false]
  exact forall₂_congr fun t _ => Bool.eq_false_iff.symm

/-- A call's outcome, from the files that count as adopted. -/
theorem scoreCall_spec (touched : List Text) (call : CgCall) (rest : List Event) :
    ((scoreCall touched call rest).adopted = true ↔
        (adoptedItems call touched (windowOf call.turn rest)).Nonempty) ∧
      (∀ r, (scoreCall touched call rest).adoptedRank = some r →
        IsLeast {r | ∃ it ∈ adoptedItems call touched (windowOf call.turn rest), it.rank = some r} r) ∧
      ((scoreCall touched call rest).adoptedRank = none →
        ∀ it ∈ adoptedItems call touched (windowOf call.turn rest), it.rank = none) := by
  have hknows : Knows (Forward.start.scan call.turn (candidates touched call) rest)
      (adoptedItems call touched (windowOf call.turn rest)) := by
    rw [scan_eq]
    refine (knows_start.foldl_touch _ _).congr fun it => ?_
    rw [Set.empty_union, Set.mem_ofPred_eq, mem_candidates, and_assoc]
    exact Iff.rfl
  refine ⟨hknows.adopted, fun r hr => ?_, fun hnone => hknows.unranked (Option.map_eq_none_iff.mp hnone)⟩
  obtain ⟨b, hb, rfl⟩ := Option.map_eq_some_iff.mp hr
  exact hknows.best b.1 b.2 hb

/-- Two adoptions of which neither has a better file than the other give one verdict. -/
theorem scoreCall_verdict_eq {touched' : List Text} {rest' : List Event}
    (h : Dominated (adoptedItems call touched (windowOf call.turn rest))
      (adoptedItems call touched' (windowOf call.turn rest')))
    (h' : Dominated (adoptedItems call touched' (windowOf call.turn rest'))
      (adoptedItems call touched (windowOf call.turn rest))) :
    ((scoreCall touched call rest).adopted, (scoreCall touched call rest).adoptedRank) =
      ((scoreCall touched' call rest').adopted, (scoreCall touched' call rest').adoptedRank) := by
  obtain ⟨hadopted, hbest, hnone⟩ := scoreCall_spec touched call rest
  obtain ⟨hadopted', hbest', hnone'⟩ := scoreCall_spec touched' call rest'
  refine Prod.ext (Bool.eq_iff_iff.mpr ?_) ?_
  · show (scoreCall touched call rest).adopted = true ↔ (scoreCall touched' call rest').adopted = true
    rw [hadopted, hadopted']
    exact ⟨fun ⟨it, hit⟩ => (h it hit).imp fun _ hi => hi.1, fun ⟨it, hit⟩ => (h' it hit).imp fun _ hi => hi.1⟩
  · show (scoreCall touched call rest).adoptedRank = (scoreCall touched' call rest').adoptedRank
    -- the ranks bound each other: each is reached by an item, and so is one no worse in the other
    cases hr : (scoreCall touched call rest).adoptedRank with
    | none =>
      cases hr' : (scoreCall touched' call rest').adoptedRank with
      | none => rfl
      | some r' =>
        obtain ⟨it', hit', hrank'⟩ := (hbest' r' hr').1
        obtain ⟨it, hit, hle⟩ := h' it' hit'
        obtain ⟨r, -, hrank⟩ := hle r' hrank'
        rw [hnone hr it hit] at hrank
        cases hrank
    | some r =>
      obtain ⟨⟨it, hit, hrank⟩, hleast⟩ := hbest r hr
      obtain ⟨it', hit', hle⟩ := h it hit
      obtain ⟨r', hr'le, hrank'⟩ := hle r hrank
      cases hr' : (scoreCall touched' call rest').adoptedRank with
      | none =>
        rw [hnone' hr' it' hit'] at hrank'
        cases hrank'
      | some s =>
        obtain ⟨⟨j, hj, hrankj⟩, hleast'⟩ := hbest' s hr'
        obtain ⟨i, hi, hlei⟩ := h' j hj
        obtain ⟨t, ht, hranki⟩ := hlei s hrankj
        have hsr : s ≤ r := (hleast' ⟨it', hit', hrank'⟩).trans hr'le
        have hrs : r ≤ s := (hleast ⟨i, hi, hranki⟩).trans ht
        rw [le_antisymm hrs hsr]

/-! ### The pass over the events -/

theorem touches_fileTouch : touches (.fileTouch path turn :: rest) = path :: touches rest := rfl

theorem touches_append : touches (pre ++ post) = touches pre ++ touches post := List.filterMap_append

/-- The files touched before a call. -/
theorem scoreFrom_at (touched : List Text) (pre post : List Event) (call : CgCall) :
    ∃ before, (∀ t, t ∈ before ↔ t ∈ touched ∨ t ∈ touches pre) ∧
      (scoreFrom touched (pre ++ .cgCall call :: post))[(pre.filter Event.isCall).length]? =
        some (scoreCall before call post) := by
  induction pre generalizing touched with
  | nil => exact ⟨touched, fun t => by simp [touches], rfl⟩
  | cons e pre ih =>
    cases e with
    | cgCall c => exact ih touched
    | fileTouch path t =>
      obtain ⟨before, hbefore, hscore⟩ := ih (touched.insert path)
      refine ⟨before, fun t => ?_, hscore⟩
      rw [hbefore, List.mem_insert_iff, touches_fileTouch, List.mem_cons]
      exact ⟨fun h => by tauto, fun h => by tauto⟩
    | rawGrep => exact ih touched
    | other => exact ih touched

theorem adoptedItems_congr {touched' : List Text} (h : ∀ t, t ∈ touched ↔ t ∈ touched') :
    adoptedItems call touched window = adoptedItems call touched' window := by
  ext it
  refine and_congr_right fun _ => and_congr_left fun _ => ?_
  exact forall_congr' fun t => by rw [h]

/-- The verdict on a call. -/
theorem verdictAt_eq (h : events = pre ++ .cgCall call :: post) : ∃ before, (∀ t, t ∈ before ↔ t ∈ touches pre) ∧
    verdictAt events pre = some ((scoreCall before call post).adopted, (scoreCall before call post).adoptedRank) := by
  obtain ⟨before, hbefore, hscore⟩ := scoreFrom_at [] pre post call
  refine ⟨before, fun t => by rw [hbefore]; simp, ?_⟩
  rw [verdictAt, scoreSession, h, hscore]
  rfl

/-- Two verdicts, compared by the files that count as adopted. -/
theorem verdictAt_eq_of_dominated {events' pre' post' : List Event} (h : events = pre ++ .cgCall call :: post)
    (h' : events' = pre' ++ .cgCall call :: post')
    (hle : Dominated (adoptedItems call (touches pre) (windowOf call.turn post))
      (adoptedItems call (touches pre') (windowOf call.turn post')))
    (hge : Dominated (adoptedItems call (touches pre') (windowOf call.turn post'))
      (adoptedItems call (touches pre) (windowOf call.turn post))) :
    verdictAt events pre = verdictAt events' pre' := by
  obtain ⟨before, hbefore, hverdict⟩ := verdictAt_eq h
  obtain ⟨before', hbefore', hverdict'⟩ := verdictAt_eq h'
  rw [← adoptedItems_congr hbefore, ← adoptedItems_congr hbefore'] at hle hge
  rw [hverdict, hverdict', scoreCall_verdict_eq hle hge]

/-- One verdict means that neither adoption has a better file. -/
theorem dominated_of_verdictAt_eq {events' pre' post' : List Event} (h : events = pre ++ .cgCall call :: post)
    (h' : events' = pre' ++ .cgCall call :: post') (heq : verdictAt events pre = verdictAt events' pre') :
    Dominated (adoptedItems call (touches pre) (windowOf call.turn post))
      (adoptedItems call (touches pre') (windowOf call.turn post')) := by
  obtain ⟨before, hbefore, hverdict⟩ := verdictAt_eq h
  obtain ⟨before', hbefore', hverdict'⟩ := verdictAt_eq h'
  rw [hverdict, hverdict'] at heq
  obtain ⟨hsame, hsameRank⟩ := Prod.mk.inj (Option.some.inj heq)
  obtain ⟨hadopted, hbest, hnone⟩ := scoreCall_spec before call post
  obtain ⟨hadopted', hbest', -⟩ := scoreCall_spec before' call post'
  rw [← adoptedItems_congr hbefore, ← adoptedItems_congr hbefore']
  intro it hit
  cases hrank : it.rank with
  | none =>
    obtain ⟨it', hit'⟩ := hadopted'.mp (hsame ▸ hadopted.mpr ⟨it, hit⟩)
    exact ⟨it', hit', fun r hr => nomatch hrank.symm.trans hr⟩
  | some r =>
    cases hr : (scoreCall before call post).adoptedRank with
    | none =>
      rw [hnone hr it hit] at hrank
      cases hrank
    | some s =>
      obtain ⟨⟨it', hit', hrank'⟩, -⟩ := hbest' s (hsameRank ▸ hr)
      refine ⟨it', hit', fun t ht => ⟨s, ?_, hrank'⟩⟩
      obtain rfl := Option.some.inj (hrank.symm.trans ht)
      exact (hbest s hr).2 ⟨it, hit, hrank⟩

/-! ### Windows over messages -/

theorem append_subset_append {a b c d : List Text} (h : a ⊆ c) (h' : b ⊆ d) : a ++ b ⊆ c ++ d :=
  List.append_subset.mpr ⟨List.subset_append_of_subset_left d h, List.subset_append_of_subset_right c h'⟩

variable {ms ms' before before' after after' : List Message} {m m' : Message}

theorem eventsOf_cons : eventsOf (m :: ms) = m.events ++ eventsOf ms := rfl

theorem eventsOf_append : eventsOf (before ++ after) = eventsOf before ++ eventsOf after := List.flatMap_append

/-- A message has a call. -/
def Message.calls (m : Message) : Bool := m.events.any Event.isCall

theorem quiet_cons : quiet (m :: ms) = if m.calls then [] else m :: quiet ms := by
  rw [quiet, List.takeWhile_cons, Message.calls]
  cases m.events.any Event.isCall <;> rfl

theorem closing_cons : closing (m :: ms) = if m.calls then [m] else closing ms := by
  rw [closing, List.dropWhile_cons, Message.calls]
  cases m.events.any Event.isCall <;> rfl

theorem windowOf_own (h : ∀ e ∈ events, ∀ t, e.turn? = some t → t = turn) :
    windowOf turn (events ++ rest) = windowOf turn rest := by
  induction events with
  | nil => rfl
  | cons e events ih =>
    have hrest := ih fun e he => h e (List.mem_cons_of_mem _ he)
    cases e with
    | cgCall call =>
      have hturn : call.turn = turn := h _ List.mem_cons_self call.turn rfl
      rw [List.cons_append, windowOf, if_neg (not_not.mpr hturn), hrest]
    | fileTouch path t =>
      have hturn : t = turn := h _ List.mem_cons_self t rfl
      rw [List.cons_append, windowOf, if_pos hturn, hrest]
    | rawGrep => exact hrest
    | other => exact hrest

/-- Up to the first call of another turn every touch of another turn is seen. -/
theorem windowOf_touches (hturn : ∀ e ∈ events, e.turn? ≠ some turn) (hcall : ∀ e ∈ events, e.isCall = false) :
    windowOf turn (events ++ rest) = touches events ++ windowOf turn rest := by
  induction events with
  | nil => rfl
  | cons e events ih =>
    have hrest := ih (fun e he => hturn e (List.mem_cons_of_mem _ he)) fun e he => hcall e (List.mem_cons_of_mem _ he)
    cases e with
    | cgCall call => exact nomatch hcall _ List.mem_cons_self
    | fileTouch path t =>
      have hne : t ≠ turn := fun heq => hturn _ List.mem_cons_self (congrArg some heq)
      rw [List.cons_append, windowOf, if_neg hne, hrest]
      rfl
    | rawGrep => exact hrest
    | other => exact hrest

theorem windowOf_subset (hturn : ∀ e ∈ events, e.turn? ≠ some turn) (hcall : events.any Event.isCall = true) :
    windowOf turn (events ++ rest) ⊆ touches events := by
  induction events with
  | nil => cases hcall
  | cons e events ih =>
    have hrest := fun h => ih (fun e he => hturn e (List.mem_cons_of_mem _ he)) h
    cases e with
    | cgCall call =>
      have hne : call.turn ≠ turn := fun heq => hturn _ List.mem_cons_self (congrArg some heq)
      rw [List.cons_append, windowOf, if_pos hne]
      exact List.nil_subset _
    | fileTouch path t =>
      have hne : t ≠ turn := fun heq => hturn _ List.mem_cons_self (congrArg some heq)
      rw [List.cons_append, windowOf, if_neg hne]
      exact List.cons_subset_cons path (hrest hcall)
    | rawGrep => exact hrest hcall
    | other => exact hrest hcall

theorem Message.turn?_ne (h : m.turn ≠ turn) : ∀ e ∈ m.events, e.turn? ≠ some turn :=
  fun e he heq => h (m.ofTurn e he turn heq).symm

theorem Message.isCall_eq_false (h : m.calls = false) : ∀ e ∈ m.events, e.isCall = false :=
  fun e he => Bool.eq_false_iff.mpr (List.any_eq_false.mp h e he)

/-- The window over later messages lies between two sets of touches. -/
theorem windowOf_bounds (h : ∀ m ∈ after, m.turn ≠ turn) :
    touches (eventsOf (quiet after)) ⊆ windowOf turn (eventsOf after) ∧
      windowOf turn (eventsOf after) ⊆ touches (eventsOf (quiet after)) ++ touches (eventsOf (closing after)) := by
  induction after with
  | nil => exact ⟨List.nil_subset _, List.nil_subset _⟩
  | cons m after ih =>
    obtain ⟨hlow, hhigh⟩ := ih fun m hm => h m (List.mem_cons_of_mem _ hm)
    have hturn := Message.turn?_ne (h m List.mem_cons_self)
    rw [quiet_cons, closing_cons, eventsOf_cons]
    cases hcalls : m.calls with
    | true =>
      refine ⟨List.nil_subset _, ?_⟩
      have hone : eventsOf [m] = m.events := List.append_nil _
      show _ ⊆ touches (eventsOf [m])
      rw [hone]
      exact windowOf_subset hturn hcalls
    | false =>
      show touches (eventsOf (m :: quiet after)) ⊆ _ ∧ _ ⊆ touches (eventsOf (m :: quiet after)) ++ _
      rw [windowOf_touches hturn (Message.isCall_eq_false hcalls), eventsOf_cons, touches_append, List.append_assoc]
      exact ⟨append_subset_append (List.Subset.refl _) hlow, append_subset_append (List.Subset.refl _) hhigh⟩

/-! ### Rearrangements -/

theorem Shuffled.refl (m : Message) : Shuffled m m := ⟨rfl, List.Perm.refl _⟩

theorem Shuffled.calls (h : Shuffled m m') : m.calls = m'.calls := h.2.any_eq

theorem touches_subset (h : events.Perm rest) : touches events ⊆ touches rest := (h.filterMap _).subset

theorem eventsOf_perm (h : List.Forall₂ Shuffled ms ms') : (eventsOf ms).Perm (eventsOf ms') := by
  induction h with
  | nil => exact List.Perm.refl _
  | cons hm _ ih => exact hm.2.append ih

theorem quiet_shuffled (h : List.Forall₂ Shuffled ms ms') : List.Forall₂ Shuffled (quiet ms) (quiet ms') := by
  induction h with
  | nil => exact .nil
  | @cons m m' _ _ hm _ ih =>
    rw [quiet_cons, quiet_cons, hm.calls]
    cases m'.calls with
    | true => exact .nil
    | false => exact .cons hm ih

theorem closing_shuffled (h : List.Forall₂ Shuffled ms ms') : List.Forall₂ Shuffled (closing ms) (closing ms') := by
  induction h with
  | nil => exact .nil
  | @cons m m' _ _ hm _ ih =>
    rw [closing_cons, closing_cons, hm.calls]
    cases m'.calls with
    | true => exact .cons hm .nil
    | false => exact ih

theorem turns_eq (h : List.Forall₂ Shuffled ms ms') : ms.map Message.turn = ms'.map Message.turn := by
  induction h with
  | nil => rfl
  | cons hm _ ih => rw [List.map_cons, List.map_cons, hm.1, ih]

/-- A session with its messages shuffled. -/
def Session.shuffle (s : Session) (ms : List Message) (h : List.Forall₂ Shuffled s.messages ms) : Session :=
  ⟨ms, turns_eq h ▸ s.distinct⟩

/-- Where a call stands among the messages. -/
theorem eventsOf_split {e : Event} (h : eventsOf ms = pre ++ e :: post) : ∃ before m after p q,
    ms = before ++ m :: after ∧ m.events = p ++ e :: q ∧ pre = eventsOf before ++ p ∧ post = q ++ eventsOf after := by
  induction ms generalizing pre with
  | nil => exact absurd h (by simp [eventsOf])
  | cons m ms ih =>
    rw [eventsOf_cons] at h
    have hlater : ∀ p, pre = m.events ++ p → eventsOf ms = p ++ e :: post → ∃ before m' after p q,
        m :: ms = before ++ m' :: after ∧ m'.events = p ++ e :: q ∧ pre = eventsOf before ++ p ∧
          post = q ++ eventsOf after := by
      intro p hpre hms
      obtain ⟨before, m', after, p, q, rfl, hm', rfl, hpost⟩ := ih hms
      exact ⟨m :: before, m', after, p, q, rfl, hm', by rw [hpre, eventsOf_cons, List.append_assoc], hpost⟩
    rcases List.append_eq_append_iff.mp h with ⟨p, hpre, hms⟩ | ⟨q, hm, hq⟩
    · exact hlater p hpre hms
    · cases q with
      | nil => exact hlater [] (by rw [List.append_nil, hm, List.append_nil]) hq.symm
      | cons e' q =>
        obtain ⟨rfl, hpost⟩ := List.cons.inj hq
        exact ⟨[], m, ms, pre, q, rfl, hm, rfl, hpost⟩

theorem shuffled_split (h : List.Forall₂ Shuffled ms (before' ++ m' :: after')) : ∃ before m after,
    ms = before ++ m :: after ∧ List.Forall₂ Shuffled before before' ∧ Shuffled m m' ∧
      List.Forall₂ Shuffled after after' := by
  induction before' generalizing ms with
  | nil =>
    cases h with
    | cons hm hafter => exact ⟨[], _, _, rfl, .nil, hm, hafter⟩
  | cons b before' ih =>
    cases h with
    | cons hb hrest =>
      obtain ⟨before, m, after, rfl, hbefore, hm, hafter⟩ := ih hrest
      exact ⟨_ :: before, m, after, rfl, .cons hb hbefore, hm, hafter⟩

/-- A turn has one message. -/
theorem split_unique {before₁ after₁ : List Message} {m₁ : Message}
    (hn : ((before ++ m :: after).map Message.turn).Nodup) (h : before ++ m :: after = before₁ ++ m₁ :: after₁)
    (hturn : m.turn = m₁.turn) : before = before₁ ∧ m = m₁ ∧ after = after₁ := by
  have hmem : m ∈ before₁ ++ m₁ :: after₁ := h ▸ List.mem_append_right before List.mem_cons_self
  have hmem₁ : m₁ ∈ before₁ ++ m₁ :: after₁ := List.mem_append_right before₁ List.mem_cons_self
  obtain rfl := List.inj_on_of_nodup_map (h ▸ hn) hmem hmem₁ hturn
  have hnodup := List.Nodup.of_map _ hn
  have hnew : m ∉ before ∧ m ∉ after := by
    have hsplit := List.nodup_middle.mp hnodup
    rw [List.nodup_cons, List.mem_append, not_or] at hsplit
    exact hsplit.1
  obtain ⟨hbefore, hafter⟩ := (List.append_cons_inj_of_notMem hnew.1 hnew.2).mp h
  exact ⟨hbefore, hafter⟩

/-! ### The two extreme orders -/

/-- The message with its events in another order. -/
def Message.reorder (m : Message) (events : List Event) (h : m.events.Perm events) : Message :=
  ⟨m.turn, events, fun e he => m.ofTurn e (h.mem_iff.mpr he)⟩

theorem Message.shuffled_reorder (m : Message) (events : List Event) (h : m.events.Perm events) :
    Shuffled m (m.reorder events h) :=
  ⟨rfl, h⟩

def Message.callsFirst (m : Message) : Message :=
  m.reorder (m.events.filter Event.isCall ++ m.events.filter fun e => !e.isCall)
    (List.filter_append_perm _ m.events).symm

def Message.touchesFirst (m : Message) : Message :=
  m.reorder ((m.events.filter fun e => !e.isCall) ++ m.events.filter Event.isCall)
    (List.perm_append_comm.trans (List.filter_append_perm _ m.events)).symm

theorem forall₂_shuffled_map {f : Message → Message} (h : ∀ m, Shuffled m (f m)) (ms : List Message) :
    List.Forall₂ Shuffled ms (ms.map f) :=
  List.forall₂_map_right_iff.mpr (List.forall₂_same.mpr fun m _ => h m)

theorem touches_filter_calls (events : List Event) : touches (events.filter Event.isCall) = [] := by
  refine List.filterMap_eq_nil_iff.mpr fun e he => ?_
  cases e with
  | fileTouch path t => exact nomatch (List.mem_filter.mp he).2
  | _ => rfl

theorem touches_filter_others (events : List Event) : touches (events.filter fun e => !e.isCall) = touches events := by
  induction events with
  | nil => rfl
  | cons e events ih => cases e <;> simp_all [touches, Event.isCall]

/-- With the calls first nothing of the closing message is seen. -/
theorem windowOf_callsFirst (h : ∀ m ∈ after, m.turn ≠ turn) :
    windowOf turn (eventsOf (after.map Message.callsFirst)) ⊆ touches (eventsOf (quiet after)) := by
  induction after with
  | nil => exact List.nil_subset _
  | cons m after ih =>
    have hrest := ih fun m hm => h m (List.mem_cons_of_mem _ hm)
    have hturn := Message.turn?_ne (h m List.mem_cons_self)
    have hevents : m.callsFirst.events = m.events.filter Event.isCall ++ m.events.filter fun e => !e.isCall := rfl
    rw [List.map_cons, eventsOf_cons, quiet_cons, hevents, List.append_assoc]
    cases hcalls : m.calls with
    | true =>
      obtain ⟨e, he, hcall⟩ := List.any_eq_true.mp hcalls
      have hany : (m.events.filter Event.isCall).any Event.isCall = true :=
        List.any_eq_true.mpr ⟨e, List.mem_filter.mpr ⟨he, hcall⟩, hcall⟩
      have hwindow : ∀ rest, windowOf turn (m.events.filter Event.isCall ++ rest) ⊆ touches (m.events.filter Event.isCall) :=
        fun rest => windowOf_subset (fun e he => hturn e (List.mem_of_mem_filter he)) hany
      rw [touches_filter_calls] at hwindow
      exact hwindow _
    | false =>
      have hnone : m.events.filter Event.isCall = [] :=
        List.filter_eq_nil_iff.mpr fun e he => Bool.eq_false_iff.mp (Message.isCall_eq_false hcalls e he)
      rw [hnone, List.nil_append, windowOf_touches (fun e he => hturn e (List.mem_of_mem_filter he))
        (fun e he => Message.isCall_eq_false hcalls e (List.mem_of_mem_filter he)), touches_filter_others]
      show _ ⊆ touches (eventsOf (m :: quiet after))
      rw [eventsOf_cons, touches_append]
      exact append_subset_append (List.Subset.refl _) hrest

/-- With the touches first all of the closing message is seen. -/
theorem windowOf_touchesFirst (h : ∀ m ∈ after, m.turn ≠ turn) :
    touches (eventsOf (quiet after)) ++ touches (eventsOf (closing after)) ⊆
      windowOf turn (eventsOf (after.map Message.touchesFirst)) := by
  induction after with
  | nil => exact List.nil_subset _
  | cons m after ih =>
    have hrest := ih fun m hm => h m (List.mem_cons_of_mem _ hm)
    have hturn := Message.turn?_ne (h m List.mem_cons_self)
    have hevents : m.touchesFirst.events = (m.events.filter fun e => !e.isCall) ++ m.events.filter Event.isCall := rfl
    rw [List.map_cons, eventsOf_cons, quiet_cons, closing_cons, hevents, List.append_assoc,
      windowOf_touches (fun e he => hturn e (List.mem_of_mem_filter he))
        (fun e he => by simpa using (List.mem_filter.mp he).2), touches_filter_others]
    cases hcalls : m.calls with
    | true =>
      have hone : eventsOf [m] = m.events := List.append_nil _
      show touches (eventsOf [m]) ⊆ _
      rw [hone]
      exact List.subset_append_left _ _
    | false =>
      have hnone : m.events.filter Event.isCall = [] :=
        List.filter_eq_nil_iff.mpr fun e he => Bool.eq_false_iff.mp (Message.isCall_eq_false hcalls e he)
      show touches (eventsOf (m :: quiet after)) ++ _ ⊆ _
      rw [hnone, List.nil_append, eventsOf_cons, touches_append, List.append_assoc]
      exact append_subset_append (List.Subset.refl _) hrest

/-! ### Every order -/

theorem adoptedItems_subset {touched' window' : List Text} (htouched : touched' ⊆ touched)
    (hwindow : window ⊆ window') : adoptedItems call touched window ⊆ adoptedItems call touched' window' := by
  rintro it ⟨hreturned, hfresh, t, ht, hmatch⟩
  exact ⟨hreturned, fun t ht => hfresh t (htouched ht), t, hwindow ht, hmatch⟩

theorem Dominated.mono {used₁ used₂ : Set ReturnedItem} (h : Dominated used used') (h₁ : used₁ ⊆ used)
    (h₂ : used' ⊆ used₂) : Dominated used₁ used₂ := by
  intro it hit
  obtain ⟨it', hit', hle⟩ := h it (h₁ hit)
  exact ⟨it', h₂ hit', hle⟩

/-- What is adopted in every order of the messages. -/
def surely (call : CgCall) (before : List Message) (m : Message) (after : List Message) : Set ReturnedItem :=
  adoptedItems call (touches (eventsOf before) ++ touches m.events) (touches (eventsOf (quiet after)))

/-- What is adopted in some order of the messages. -/
def possibly (call : CgCall) (before after : List Message) : Set ReturnedItem :=
  adoptedItems call (touches (eventsOf before))
    (touches (eventsOf (quiet after)) ++ touches (eventsOf (closing after)))

theorem steady_iff :
    Steady call before m after ↔ Dominated (possibly call before after) (surely call before m after) := by
  constructor
  · rintro h it ⟨hreturned, hfresh, hhit⟩
    obtain ⟨it', hreturned', hfresh', hhit', hle⟩ := h it hreturned hfresh hhit
    exact ⟨it', ⟨hreturned', hfresh', hhit'⟩, hle⟩
  · intro h it hreturned hfresh hhit
    obtain ⟨it', ⟨hreturned', hfresh', hhit'⟩, hle⟩ := h it ⟨hreturned, hfresh, hhit⟩
    exact ⟨it', hreturned', hfresh', hhit', hle⟩

theorem later_turn_ne (hn : ((before ++ m :: after).map Message.turn).Nodup) : ∀ m' ∈ after, m'.turn ≠ m.turn := by
  intro m' hm' heq
  rw [List.map_append, List.map_cons, List.nodup_append] at hn
  exact (List.nodup_cons.mp hn.2.1).1 (heq ▸ List.mem_map_of_mem (f := Message.turn) hm')

/-- What is adopted lies between the two. -/
theorem adopted_between {p q : List Event} (hn : ((before ++ m :: after).map Message.turn).Nodup)
    (hm : m.events = p ++ .cgCall call :: q) :
    let used := adoptedItems call (touches (eventsOf before ++ p)) (windowOf call.turn (q ++ eventsOf after))
    surely call before m after ⊆ used ∧ used ⊆ possibly call before after := by
  have hturn : m.turn = call.turn := (m.ofTurn (.cgCall call) (by simp [hm]) call.turn rfl).symm
  have hq : ∀ e ∈ q, ∀ t, e.turn? = some t → t = call.turn :=
    fun e he t ht => (m.ofTurn e (by simp [hm, he]) t ht).trans hturn
  obtain ⟨hlow, hhigh⟩ := windowOf_bounds fun m' hm' => hturn ▸ later_turn_ne hn m' hm'
  have hp : touches p ⊆ touches m.events := by
    rw [hm, touches_append]
    exact List.subset_append_left _ _
  rw [windowOf_own hq, touches_append]
  exact ⟨adoptedItems_subset (append_subset_append (List.Subset.refl _) hp) hlow,
    adoptedItems_subset (List.subset_append_left _ _) hhigh⟩

theorem surely_shuffled (hbefore : List.Forall₂ Shuffled before before') (hm : Shuffled m m')
    (hafter : List.Forall₂ Shuffled after after') : surely call before m after ⊆ surely call before' m' after' := by
  have hearlier := touches_subset (eventsOf_perm hbefore).symm
  have hown := touches_subset hm.2.symm
  exact adoptedItems_subset (append_subset_append hearlier hown)
    (touches_subset (eventsOf_perm (quiet_shuffled hafter)))

theorem possibly_shuffled (hbefore : List.Forall₂ Shuffled before before')
    (hafter : List.Forall₂ Shuffled after after') : possibly call before' after' ⊆ possibly call before after := by
  have hquiet := touches_subset (eventsOf_perm (quiet_shuffled hafter)).symm
  have hclosing := touches_subset (eventsOf_perm (closing_shuffled hafter)).symm
  exact adoptedItems_subset (touches_subset (eventsOf_perm hbefore)) (append_subset_append hquiet hclosing)

/-- Where the files are steady every order gives the call one verdict. -/
theorem verdictAt_eq_of_steady {s s' : Session} (hs : Rearranged s s') {pre' post' : List Event}
    (hsplit : s.events = pre ++ .cgCall call :: post) (hsplit' : s'.events = pre' ++ .cgCall call :: post')
    (hsteady : ∀ before m after, s.messages = before ++ m :: after → .cgCall call ∈ m.events →
      Steady call before m after) : verdictAt s.events pre = verdictAt s'.events pre' := by
  obtain ⟨before, m, after, p, q, hmessages, hm, rfl, rfl⟩ := eventsOf_split hsplit
  obtain ⟨before', m', after', p', q', hmessages', hm', rfl, rfl⟩ := eventsOf_split hsplit'
  obtain ⟨before₁, m₁, after₁, hmessages₁, hbefore, hshuffled, hafter⟩ :=
    shuffled_split (show List.Forall₂ Shuffled s.messages (before' ++ m' :: after') from hmessages' ▸ hs)
  have hn := hmessages ▸ s.distinct
  have hn' := hmessages' ▸ s'.distinct
  have hmem : Event.cgCall call ∈ m.events := by simp [hm]
  have hturn : m.turn = m₁.turn := by
    rw [hshuffled.1, ← m.ofTurn _ hmem call.turn rfl, ← m'.ofTurn (.cgCall call) (by simp [hm']) call.turn rfl]
  obtain ⟨rfl, rfl, rfl⟩ := split_unique hn (hmessages.symm.trans hmessages₁) hturn
  have hdominated := steady_iff.mp (hsteady before m after hmessages hmem)
  obtain ⟨hlow, hhigh⟩ := adopted_between hn hm
  obtain ⟨hlow', hhigh'⟩ := adopted_between hn' hm'
  refine verdictAt_eq_of_dominated hsplit hsplit' ?_ ?_
  · exact hdominated.mono hhigh ((surely_shuffled hbefore hshuffled hafter).trans hlow')
  · exact hdominated.mono (hhigh'.trans (possibly_shuffled hbefore hafter)) hlow

/-- A session with one message in another order, and what is behind it reordered by a rule. -/
theorem exists_rearranged {s : Session} (hmessages : s.messages = before ++ m :: after) (hperm : m.events.Perm events)
    {f : Message → Message} (hf : ∀ m, Shuffled m (f m)) :
    ∃ s', Rearranged s s' ∧ s'.events = eventsOf before ++ (events ++ eventsOf (after.map f)) := by
  have hbefore : List.Forall₂ Shuffled before before := List.forall₂_same.mpr fun m _ => Shuffled.refl m
  have hall : List.Forall₂ Shuffled s.messages (before ++ m.reorder events hperm :: after.map f) :=
    hmessages ▸ List.rel_append hbefore (.cons (m.shuffled_reorder events hperm) (forall₂_shuffled_map hf after))
  refine ⟨s.shuffle _ hall, hall, ?_⟩
  show eventsOf (before ++ m.reorder events hperm :: after.map f) = _
  rw [eventsOf_append, eventsOf_cons]
  rfl

theorem touches_erase_call (events : List Event) : touches events ⊆ touches (events.erase (.cgCall call)) := by
  intro t ht
  obtain ⟨e, he, hpath⟩ := List.mem_filterMap.mp ht
  refine List.mem_filterMap.mpr ⟨e, (List.mem_erase_of_ne ?_).mpr he, hpath⟩
  rintro rfl
  cases hpath

/-- One verdict in the two extreme orders means that the files are steady. -/
theorem steady_of_orderFree {s : Session} (h : OrderFree s) (hmessages : s.messages = before ++ m :: after)
    (hcall : .cgCall call ∈ m.events) : Steady call before m after := by
  have hturn : m.turn = call.turn := (m.ofTurn _ hcall call.turn rfl).symm
  have hlater : ∀ m' ∈ after, m'.turn ≠ call.turn := hturn ▸ later_turn_ne (hmessages ▸ s.distinct)
  obtain ⟨p, q, hm⟩ := List.append_of_mem hcall
  have hsplit : s.events = (eventsOf before ++ p) ++ .cgCall call :: (q ++ eventsOf after) := by
    rw [Session.events, hmessages, eventsOf_append, eventsOf_cons, hm]
    simp
  -- the call behind its own message, and the later calls before the touches
  have hlast : m.events.Perm (m.events.erase (.cgCall call) ++ [.cgCall call]) :=
    (List.perm_cons_erase hcall).trans (List.perm_append_singleton _ _).symm
  obtain ⟨low, hlow, hlowEvents⟩ :=
    exists_rearranged hmessages hlast (f := Message.callsFirst) fun m => m.shuffled_reorder _ _
  have hlowSplit : low.events = (eventsOf before ++ m.events.erase (.cgCall call)) ++
      .cgCall call :: eventsOf (after.map Message.callsFirst) := by
    rw [hlowEvents]
    simp
  -- the call before its own message, and the later touches before the calls
  obtain ⟨high, hhigh, hhighEvents⟩ :=
    exists_rearranged hmessages (List.perm_cons_erase hcall) (f := Message.touchesFirst)
      fun m => m.shuffled_reorder _ _
  have hhighSplit : high.events = eventsOf before ++
      .cgCall call :: (m.events.erase (.cgCall call) ++ eventsOf (after.map Message.touchesFirst)) := hhighEvents
  have heq : verdictAt high.events (eventsOf before) =
      verdictAt low.events (eventsOf before ++ m.events.erase (.cgCall call)) :=
    (h high hhigh call _ _ _ _ hsplit hhighSplit).symm.trans (h low hlow call _ _ _ _ hsplit hlowSplit)
  have hown : ∀ e ∈ m.events.erase (.cgCall call), ∀ t, e.turn? = some t → t = call.turn :=
    fun e he t ht => (m.ofTurn e (List.mem_of_mem_erase he) t ht).trans hturn
  have hdominated := dominated_of_verdictAt_eq hhighSplit hlowSplit heq
  rw [windowOf_own hown, touches_append] at hdominated
  refine steady_iff.mpr (hdominated.mono ?_ ?_)
  · exact adoptedItems_subset (List.Subset.refl _) (windowOf_touchesFirst hlater)
  · exact adoptedItems_subset (append_subset_append (List.Subset.refl _) (touches_erase_call m.events))
      (windowOf_callsFirst hlater)

/-- The order within the messages makes no difference just when the files of every call are steady. -/
theorem orderFree_iff (s : Session) : OrderFree s ↔ ∀ before m after, s.messages = before ++ m :: after →
    ∀ call, .cgCall call ∈ m.events → Steady call before m after := by
  constructor
  · intro h before m after hmessages call hcall
    exact steady_of_orderFree h hmessages hcall
  · intro h s' hs call pre post pre' post' hsplit hsplit'
    exact verdictAt_eq_of_steady hs hsplit hsplit' fun before m after hmessages hcall =>
      h before m after hmessages call hcall

/-- A file that the call returns, opened in the call's own message and again in the next one. -/
theorem not_orderFree : ¬ ∀ s : Session, OrderFree s := by
  let call : CgCall := ⟨"ast_search", "", [⟨['a'], some 0⟩], 1⟩
  let own : Message := ⟨1, [.fileTouch ['a'] 1, .cgCall call], by simp [Event.turn?, call]⟩
  let next : Message := ⟨2, [.fileTouch ['a'] 2], by simp [Event.turn?]⟩
  let s : Session := ⟨[own, next], by decide⟩
  intro h
  have hperm : own.events.Perm [.cgCall call, .fileTouch ['a'] 1] := List.Perm.swap _ _ _
  have hswap : List.Forall₂ Shuffled s.messages [own.reorder _ hperm, next] :=
    .cons (own.shuffled_reorder _ hperm) (.cons (Shuffled.refl next) .nil)
  have hsame := h s (s.shuffle _ hswap) hswap call
    [.fileTouch ['a'] 1] [.fileTouch ['a'] 2] [] [.fileTouch ['a'] 1, .fileTouch ['a'] 2] rfl rfl
  have hdiffer : verdictAt [.fileTouch ['a'] 1, .cgCall call, .fileTouch ['a'] 2] [.fileTouch ['a'] 1] ≠
      verdictAt [.cgCall call, .fileTouch ['a'] 1, .fileTouch ['a'] 2] [] := by
    decide
  exact hdiffer hsame

end CodeGraph.Outcome
