import CodeGraph.Pipeline.Embed

/-!
# Stored vectors belong to their text

A regenerate commits new texts before it touches the vectors, so in between a vector may be of an old
text. The invariant `Inv` says that then some process in the middle of a regenerate still owes the
node a new vector or a delete (`Proc.Owes`), and that whatever waits to be stored, and whatever the
cache holds, is what the model gives for its text.

A process that stops, or a model that fails, leaves a debt unpaid, and a seeding that reads meanwhile
puts the old vector under the new text's key. `StepOK` says when these steps do no harm, and
`vectors_belong_to_their_text` is the theorem about runs of such steps.
-/

namespace CodeGraph.Pipeline.Embed

open CodeGraph.Lib CodeGraph.Storage.Vectors

variable {Key Vec : Type} {m : Embedder Key Vec} {s s' : State Key Vec}
  {t t' : Tables Key Vec} {pr pr' : Proc Key Vec} {updates : List (ℕ × String)}
  {vectors : List (ℕ × Vec)} {p id : ℕ} {c : String} {v : Vec}

/-! ### The condition on one step -/

/-- The node has a vector that is not the one of its context string. -/
def Stale (m : Embedder Key Vec) (t : Tables Key Vec) (id : ℕ) : Prop :=
  ∃ c v, t.nodes.lookup id = some (some c) ∧ t.vectors.lookup id = some v ∧ v ≠ m.embed c

/-- The nodes a call in progress has re-rendered and not yet dealt with. -/
def Stage.Owes (updates : List (ℕ × String)) : Stage Vec → ℕ → String → Prop
  | .validate, id, c | .clear, id, c | .record, id, c => (id, c) ∈ updates
  | .partition todo hits misses, id, c =>
    (id, c) ∈ todo ∨ ((id, c) ∈ updates ∧ id ∈ hits.map Prod.fst) ∨ (id, c) ∈ misses
  | .infer misses, id, c => (id, c) ∈ misses
  | .store vectors, id, c => (id, c) ∈ updates ∧ id ∈ vectors.map Prod.fst

/-- A process that drops vectors deals with the node whatever its text is by then. -/
def Proc.Owes : Proc Key Vec → ℕ → String → Prop
  | .dropping ids, id, _ => id ∈ ids
  | .embedding true updates stage, id, c => stage.Owes updates id c
  | _, _, _ => False

/-- When a step does no harm. A process without the vector tables re-renders only nodes whose vector
is right for the new text, or that have none; no process stops while a node it still owes a vector is
stale; the model fails on no text of such a node; and the seeding reads when no node is stale. -/
def StepOK (m : Embedder Key Vec) (s : State Key Vec) : Action → Prop
  | .regenerate _ _ vecEnabled dirty render =>
    vecEnabled = false → ∀ id ∈ dirty, ∀ v, s.tables.vectors.lookup id = some v →
      v = m.embed (render id)
  | .stop p => ∀ id c, (s.procs p).Owes id c → ¬ Stale m s.tables id
  | .infer p fails => ∀ id c, (s.procs p).Owes id c → fails c = true → ¬ Stale m s.tables id
  | .advance p => s.procs p = .seeding → ∀ id, ¬ Stale m s.tables id
  | _ => True

/-! ### What waits to be stored -/

/-- Each vector is the one of a text of the batch. -/
def Right (m : Embedder Key Vec) (updates : List (ℕ × String)) (vectors : List (ℕ × Vec)) : Prop :=
  ∀ x ∈ vectors, ∃ c, (x.1, c) ∈ updates ∧ x.2 = m.embed c

def Stage.Sound (m : Embedder Key Vec) (updates : List (ℕ × String)) : Stage Vec → Prop
  | .validate | .clear | .record => True
  | .partition todo hits misses => todo ⊆ updates ∧ Right m updates hits ∧ misses ⊆ updates
  | .infer misses => misses ⊆ updates
  | .store vectors => Right m updates vectors

def Proc.Sound (m : Embedder Key Vec) : Proc Key Vec → Prop
  | .embedding _ updates stage => (updates.map Prod.fst).Nodup ∧ stage.Sound m updates
  | .seedStoring entries => ∀ e ∈ entries, ∃ c, e.1 = m.cacheKey c ∧ e.2 = m.embed c
  | _ => True

/-! ### Writes to the tables -/

theorem lookup_ctxById (hn : (updates.map Prod.fst).Nodup) :
    (ctxById updates).lookup id = some c ↔ (id, c) ∈ updates :=
  lookup_insertAll_empty_iff hn

/-- Texts of one batch are told apart by their node. -/
theorem text_unique (hn : (updates.map Prod.fst).Nodup) {c c' : String} (h : (id, c) ∈ updates)
    (h' : (id, c') ∈ updates) : c = c' := by
  have heq : (id, c) = (id, c') := List.inj_on_of_nodup_map hn h h' rfl
  exact (Prod.mk.inj heq).2

/-- Storing a right batch: a vector is the old one, or right for its node's text; and it is right where
the node still has the text that the batch has for it. -/
theorem vectors_insertNodeVectorsBatch (hn : (updates.map Prod.fst).Nodup)
    (hr : Right m updates vectors)
    (hv : (t.insertNodeVectorsBatch vectors (ctxById updates)).vectors.lookup id = some v) :
    (∃ c, t.nodes.lookup id = some (some c) ∧ v = m.embed c) ∨
      t.vectors.lookup id = some v ∧
        ¬ ∃ c, t.nodes.lookup id = some (some c) ∧ (id, c) ∈ updates ∧
          id ∈ vectors.map Prod.fst := by
  rcases lookup_insertNodeVectorsBatch t vectors (ctxById updates) id with
    ⟨w, text, hw, hfrom, hnode, hl⟩ | ⟨hl, hno⟩
  · left
    obtain ⟨c, hc, hwc⟩ := hr (id, w) hw
    have htext : text = c := text_unique hn ((lookup_ctxById hn).mp hfrom) hc
    refine ⟨text, hnode, ?_⟩
    rw [hl] at hv
    rw [← Option.some_inj.mp hv, htext]
    exact hwc
  · right
    refine ⟨hl ▸ hv, ?_⟩
    rintro ⟨c, hnode, hc, hid⟩
    obtain ⟨⟨_, w⟩, hw, rfl⟩ := List.mem_map.mp hid
    exact hno ⟨w, c, hw, (lookup_ctxById hn).mpr hc, hnode⟩

theorem right_cacheEntriesFor (hn : (updates.map Prod.fst).Nodup) (hr : Right m updates vectors) :
    ∀ e ∈ cacheEntriesFor m updates vectors, ∃ c, e.1 = m.cacheKey c ∧ e.2 = m.embed c := by
  intro e he
  obtain ⟨x, hx, hxe⟩ := List.mem_filterMap.mp he
  obtain ⟨c, hc, rfl⟩ := Option.map_eq_some_iff.mp hxe
  obtain ⟨c', hc', hxc⟩ := hr x hx
  have hcc : c = c' := text_unique hn ((lookup_ctxById hn).mp hc) hc'
  exact ⟨c, rfl, by rw [hcc, ← hxc]⟩

/-! ### The batches of a call -/

/-- The texts of a regenerate are of distinct nodes. -/
theorem nodup_contextUpdates {dirty : List ℕ} (hn : dirty.Nodup) (render : ℕ → String) :
    ((contextUpdates t dirty render).map Prod.fst).Nodup := by
  unfold contextUpdates
  rw [List.map_map]
  have hid : (Prod.fst ∘ fun id => (id, render id)) = (id : ℕ → ℕ) := rfl
  rw [hid, List.map_id]
  exact hn.filter _

theorem mem_contextUpdates {dirty : List ℕ} {render : ℕ → String}
    (h : (id, c) ∈ contextUpdates t dirty render) : id ∈ dirty ∧ c = render id := by
  unfold contextUpdates at h
  obtain ⟨i, hi, heq⟩ := List.mem_map.mp h
  obtain ⟨rfl, rfl⟩ := Prod.mk.inj heq
  exact ⟨(List.mem_filter.mp hi).1, rfl⟩

theorem nodup_fetch {ids : List ℕ} (hn : ids.Nodup) : ((fetch t ids).map Prod.fst).Nodup := by
  have hsub : List.Sublist ((fetch t ids).map Prod.fst) ids := by
    unfold fetch
    induction ids with
    | nil => exact List.Sublist.refl _
    | cons i ids ih =>
      have hrec := ih (List.nodup_cons.mp hn).2
      rw [List.filterMap_cons]
      split
      · exact hrec.cons i
      · next u hu =>
        have hu1 : u.1 = i := by
          split_ifs at hu
          obtain ⟨c, -, rfl⟩ := Option.map_eq_some_iff.mp hu
          rfl
        rw [List.map_cons, hu1]
        exact hrec.cons_cons i
  exact hn.sublist hsub

theorem sound_embedAndStoreBatch {r : Bool} (hn : (updates.map Prod.fst).Nodup) :
    (embedAndStoreBatch r updates : Proc Key Vec).Sound m := by
  unfold embedAndStoreBatch
  split_ifs
  · trivial
  · exact ⟨hn, trivial⟩

theorem sound_afterSavepoint {model vecEnabled : Bool} (hn : (updates.map Prod.fst).Nodup) :
    (afterSavepoint model vecEnabled updates : Proc Key Vec).Sound m := by
  unfold afterSavepoint
  split_ifs
  · exact sound_embedAndStoreBatch hn
  · trivial
  · trivial

/-- Only a regenerate owes anything. -/
theorem owes_embedding {r : Bool} {stage : Stage Vec} :
    (Proc.embedding r updates stage : Proc Key Vec).Owes id c ↔
      r = true ∧ stage.Owes updates id c := by
  cases r with
  | true => exact (and_iff_right rfl).symm
  | false => exact ⟨False.elim, fun h => Bool.false_ne_true h.1⟩

/-- With the vector tables, a regenerate owes every node it has re-rendered. -/
theorem owes_afterSavepoint {model : Bool} (h : (id, c) ∈ updates) :
    (afterSavepoint model true updates : Proc Key Vec).Owes id c := by
  have hne : updates ≠ [] := List.ne_nil_of_mem h
  unfold afterSavepoint
  cases model with
  | true =>
    rw [Bool.and_self, if_pos rfl, embedAndStoreBatch, if_neg hne]
    exact h
  | false =>
    rw [if_neg (by simp), if_pos (by simp [hne])]
    exact List.mem_map_of_mem h

/-! ### The invariant -/

variable [DecidableEq Key]

structure Inv (m : Embedder Key Vec) (s : State Key Vec) : Prop where
  vectors : ∀ id v, s.tables.vectors.lookup id = some v →
    ∃ c, s.tables.nodes.lookup id = some (some c) ∧
      (v = m.embed c ∨ ∃ p, (s.procs p).Owes id c)
  cache : ∀ key v, s.tables.cache.lookup key = some v → ∃ c, key = m.cacheKey c ∧ v = m.embed c
  fingerprint : ∀ f ∈ s.tables.fingerprint, f = m.fingerprint
  procs : ∀ p, (s.procs p).Sound m

theorem inv_start : Inv m (State.start : State Key Vec) where
  vectors id v h := by cases h
  cache key v h := by cases h
  fingerprint f h := by cases h
  procs _ := trivial

theorem cache_cachePutEmbeddings {entries : List (Key × Vec)}
    (hc : ∀ key v, t.cache.lookup key = some v → ∃ c, key = m.cacheKey c ∧ v = m.embed c)
    (he : ∀ e ∈ entries, ∃ c, e.1 = m.cacheKey c ∧ e.2 = m.embed c) {key : Key}
    (h : (t.cachePutEmbeddings entries).cache.lookup key = some v) :
    ∃ c, key = m.cacheKey c ∧ v = m.embed c := by
  rcases mem_of_lookup_insertAll h with hmem | hold
  · exact he (key, v) hmem
  · exact hc key v hold

/-! ### One step -/

/-- A process goes on: the new state keeps the invariant if each vector is right, or owed by the
process now, or was there before and not owed by it then. -/
theorem Inv.put (h : Inv m s)
    (hv : ∀ id v, t'.vectors.lookup id = some v → ∃ c, t'.nodes.lookup id = some (some c) ∧
      (v = m.embed c ∨ pr'.Owes id c ∨
        s.tables.nodes.lookup id = some (some c) ∧ s.tables.vectors.lookup id = some v ∧
          ¬ (s.procs p).Owes id c))
    (hc : ∀ key v, t'.cache.lookup key = some v → ∃ c, key = m.cacheKey c ∧ v = m.embed c)
    (hf : ∀ f ∈ t'.fingerprint, f = m.fingerprint) (hp : pr'.Sound m) : Inv m (s.put p t' pr') where
  vectors := by
    intro id v hl
    obtain ⟨c, hnode, hcase⟩ := hv id v hl
    refine ⟨c, hnode, ?_⟩
    rcases hcase with hright | howes | ⟨hn, hold, hnot⟩
    · exact .inl hright
    · refine .inr ⟨p, ?_⟩
      show (Function.update s.procs p pr' p).Owes id c
      rw [Function.update_self]
      exact howes
    · -- the vector is the one from before, so another process owes it
      obtain ⟨c', hn', hcase⟩ := h.vectors id v hold
      obtain rfl : c = c' := by
        rw [hn] at hn'
        exact Option.some_inj.mp (Option.some_inj.mp hn')
      rcases hcase with hright | ⟨q, hq⟩
      · exact .inl hright
      · refine .inr ⟨q, ?_⟩
        have hqp : q ≠ p := by
          rintro rfl
          exact hnot hq
        show (Function.update s.procs p pr' q).Owes id c
        rw [Function.update_of_ne hqp]
        exact hq
  cache := hc
  fingerprint := hf
  procs := by
    intro q
    show (Function.update s.procs p pr' q).Sound m
    by_cases hqp : q = p
    · rw [hqp, Function.update_self]
      exact hp
    · rw [Function.update_of_ne hqp]
      exact h.procs q

/-- A process goes on and leaves the tables alone: what it owed and owes no more is not stale. -/
theorem Inv.put_tables (h : Inv m s) (hp : pr'.Sound m)
    (ho : ∀ id c, (s.procs p).Owes id c → pr'.Owes id c ∨ ¬ Stale m s.tables id) :
    Inv m (s.put p s.tables pr') := by
  refine h.put ?_ h.cache h.fingerprint hp
  intro id v hv
  obtain ⟨c, hnode, -⟩ := h.vectors id v hv
  refine ⟨c, hnode, ?_⟩
  by_cases howes : (s.procs p).Owes id c
  · rcases ho id c howes with h' | hfresh
    · exact .inr (.inl h')
    · left
      by_contra hne
      exact hfresh ⟨c, v, hnode, hv, hne⟩
  · exact .inr (.inr ⟨hnode, hv, howes⟩)

/-- A process that starts a call owed nothing before. -/
theorem Inv.start_call (h : Inv m s) (hidle : s.procs p = .idle) (hp : pr'.Sound m) :
    Inv m (s.put p s.tables pr') := by
  refine h.put_tables hp ?_
  intro id c ho
  rw [hidle] at ho
  exact ho.elim

/-- **The savepoint of a regenerate.** -/
theorem inv_regenerate (h : Inv m s) (hidle : s.procs p = .idle) {model vecEnabled : Bool}
    {dirty : List ℕ} {render : ℕ → String} (hn : dirty.Nodup)
    (hok : StepOK m s (.regenerate p model vecEnabled dirty render)) :
    Inv m (s.put p (s.tables.updateContextStringsBatch (contextUpdates s.tables dirty render))
      (afterSavepoint model vecEnabled (contextUpdates s.tables dirty render))) := by
  refine h.put ?_ h.cache h.fingerprint (sound_afterSavepoint (nodup_contextUpdates hn render))
  intro id v hv
  obtain ⟨c₀, hn₀, -⟩ := h.vectors id v hv
  rcases lookup_updateContextStringsBatch s.tables (contextUpdates s.tables dirty render) id with
    ⟨c, hc, -, hl⟩ | hl
  · -- The node has a new text: its vector is owed, or right by assumption.
    refine ⟨c, hl, ?_⟩
    cases vecEnabled with
    | true => exact .inr (.inl (owes_afterSavepoint hc))
    | false =>
      obtain ⟨hid, rfl⟩ := mem_contextUpdates hc
      exact .inl (hok rfl id hid v hv)
  · refine ⟨c₀, hl.trans hn₀, .inr (.inr ⟨hn₀, hv, ?_⟩)⟩
    rw [hidle]
    exact not_false

/-- A call stores a right batch: the debts that the batch pays are gone. -/
theorem Inv.put_insert (h : Inv m s) (hn : (updates.map Prod.fst).Nodup)
    (hr : Right m updates vectors) (hnodes : t'.nodes = s.tables.nodes)
    (hvectors : t'.vectors = (s.tables.insertNodeVectorsBatch vectors (ctxById updates)).vectors)
    (hc : ∀ key v, t'.cache.lookup key = some v → ∃ c, key = m.cacheKey c ∧ v = m.embed c)
    (hf : t'.fingerprint = s.tables.fingerprint) (hp : pr'.Sound m)
    (ho : ∀ id c, (s.procs p).Owes id c →
      pr'.Owes id c ∨ (id, c) ∈ updates ∧ id ∈ vectors.map Prod.fst) :
    Inv m (s.put p t' pr') := by
  refine h.put ?_ hc (hf ▸ h.fingerprint) hp
  intro id v hv
  rw [hvectors] at hv
  rw [hnodes]
  rcases vectors_insertNodeVectorsBatch hn hr hv with ⟨c, hnode, hright⟩ | ⟨hold, hno⟩
  · exact ⟨c, hnode, .inl hright⟩
  · obtain ⟨c, hnode, -⟩ := h.vectors id v hold
    refine ⟨c, hnode, .inr ?_⟩
    by_cases howes : (s.procs p).Owes id c
    · rcases ho id c howes with h' | ⟨hu, hid⟩
      · exact .inl h'
      · exact absurd ⟨c, hnode, hu, hid⟩ hno
    · exact .inr ⟨hnode, hold, howes⟩

/-- A cache hit is the vector of its text. -/
theorem Inv.cached (h : Inv m s) (hinj : Function.Injective m.cacheKey)
    (hc : s.tables.cached m c = some v) : v = m.embed c := by
  obtain ⟨hl, -⟩ := Option.filter_eq_some_iff.mp hc
  obtain ⟨c', hkey, hv⟩ := h.cache _ v hl
  rw [hinj hkey]
  exact hv

/-- The lookup of one text: a right hit or a miss, and still owed. -/
theorem inv_lookup (h : Inv m s) (hinj : Function.Injective m.cacheKey) {r : Bool}
    {u : ℕ × String} {todo misses : List (ℕ × String)} {hits : List (ℕ × Vec)}
    (hpr : s.procs p = .embedding r updates (.partition (u :: todo) hits misses))
    (ha : advance m s.tables (s.procs p) = some (t', pr')) : Inv m (s.put p t' pr') := by
  have hs := h.procs p
  rw [hpr] at hs ha
  obtain ⟨hn, htodo, hhits, hmisses⟩ := hs
  have hu : u ∈ updates := htodo List.mem_cons_self
  have htodo' : todo ⊆ updates := fun x hx => htodo (List.mem_cons_of_mem u hx)
  cases hc : s.tables.cached m u.2 with
  -- a hit: the node goes from the list to the hits, and its vector is the cached one
  | some v =>
    simp only [advance, hc, Option.some_inj, Prod.mk.injEq] at ha
    obtain ⟨rfl, rfl⟩ := ha
    refine h.put_tables ⟨hn, htodo', ?_, hmisses⟩ ?_
    · intro x hx
      rcases List.mem_append.mp hx with hx | hx
      · exact hhits x hx
      · rw [List.mem_singleton.mp hx]
        exact ⟨u.2, hu, h.cached hinj hc⟩
    · intro id c howes
      left
      rw [hpr, owes_embedding] at howes
      rw [owes_embedding]
      refine ⟨howes.1, ?_⟩
      rcases howes.2 with hmem | ⟨hup, hhit⟩ | hmiss
      · rcases List.mem_cons.mp hmem with hmem | hmem
        · refine .inr (.inl ⟨hmem ▸ hu, ?_⟩)
          rw [List.map_append, ← hmem]
          exact List.mem_append_right _ List.mem_cons_self
        · exact .inl hmem
      · refine .inr (.inl ⟨hup, ?_⟩)
        rw [List.map_append]
        exact List.mem_append_left _ hhit
      · exact .inr (.inr hmiss)
  -- a miss: the node goes to the misses, and is owed there
  | none =>
    simp only [advance, hc, Option.some_inj, Prod.mk.injEq] at ha
    obtain ⟨rfl, rfl⟩ := ha
    refine h.put_tables ⟨hn, htodo', hhits, ?_⟩ ?_
    · intro x hx
      rcases List.mem_append.mp hx with hx | hx
      · exact hmisses hx
      · rw [List.mem_singleton.mp hx]
        exact hu
    · intro id c howes
      left
      rw [hpr, owes_embedding] at howes
      rw [owes_embedding]
      refine ⟨howes.1, ?_⟩
      rcases howes.2 with hmem | hhit | hmiss
      · rcases List.mem_cons.mp hmem with hmem | hmem
        · refine .inr (.inr ?_)
          rw [hmem]
          exact List.mem_append_right _ List.mem_cons_self
        · exact .inl hmem
      · exact .inr (.inl hhit)
      · exact .inr (.inr (List.mem_append_left _ hmiss))

/-- The hits are stored, and only the misses are owed from then on. -/
theorem inv_storeHits (h : Inv m s) {r : Bool} {misses : List (ℕ × String)}
    {hits : List (ℕ × Vec)} (hpr : s.procs p = .embedding r updates (.partition [] hits misses))
    (ha : advance m s.tables (s.procs p) = some (t', pr')) : Inv m (s.put p t' pr') := by
  have hs := h.procs p
  rw [hpr] at hs ha
  obtain ⟨hn, -, hhits, hmisses⟩ := hs
  obtain ⟨rfl, rfl⟩ := Prod.mk.inj (Option.some_inj.mp ha)
  refine h.put_insert hn hhits rfl rfl h.cache rfl ?_ ?_
  · split_ifs
    · trivial
    · exact ⟨hn, hmisses⟩
  · intro id c howes
    rw [hpr, owes_embedding] at howes
    rcases howes.2 with hmem | hhit | hmiss
    · cases hmem
    · exact .inr hhit
    · left
      rw [if_neg (List.ne_nil_of_mem hmiss), owes_embedding]
      exact ⟨howes.1, hmiss⟩

/-- The vectors of the model are stored and cached, and nothing is owed from then on. -/
theorem inv_storeFresh (h : Inv m s) {r : Bool}
    (hpr : s.procs p = .embedding r updates (.store vectors))
    (ha : advance m s.tables (s.procs p) = some (t', pr')) : Inv m (s.put p t' pr') := by
  have hs := h.procs p
  rw [hpr] at hs ha
  obtain ⟨hn, hright⟩ := hs
  obtain ⟨rfl, rfl⟩ := Prod.mk.inj (Option.some_inj.mp ha)
  refine h.put_insert hn hright rfl rfl ?_ rfl trivial ?_
  · intro key v hl
    exact cache_cachePutEmbeddings h.cache (right_cacheEntriesFor hn hright) hl
  · intro id c howes
    rw [hpr, owes_embedding] at howes
    exact .inr howes.2

/-- `ensure_embedding_cache_valid` never clears: the one fingerprint on record is the model's. -/
theorem inv_validate (h : Inv m s) {r : Bool} (hpr : s.procs p = .embedding r updates .validate)
    (ha : advance m s.tables (s.procs p) = some (t', pr')) : Inv m (s.put p t' pr') := by
  have hs := h.procs p
  rw [hpr] at hs ha
  have hnext : t' = s.tables ∧ pr' = .embedding r updates .record := by
    cases hf : s.tables.fingerprint with
    | none =>
      simp only [advance, hf, Option.some_inj, Prod.mk.injEq] at ha
      exact ⟨ha.1.symm, ha.2.symm⟩
    | some f =>
      simp only [advance, hf, if_pos (h.fingerprint f hf), Option.some_inj, Prod.mk.injEq] at ha
      exact ⟨ha.1.symm, ha.2.symm⟩
  obtain ⟨rfl, rfl⟩ := hnext
  refine h.put_tables ⟨hs.1, trivial⟩ ?_
  intro id c howes
  rw [hpr, owes_embedding] at howes
  exact .inl (owes_embedding.mpr howes)

/-- **The next statement of a call.** -/
theorem inv_advance (h : Inv m s) (hinj : Function.Injective m.cacheKey)
    (hok : StepOK m s (.advance p)) (ha : advance m s.tables (s.procs p) = some (t', pr')) :
    Inv m (s.put p t' pr') := by
  cases hpr : s.procs p with
  | idle =>
    rw [hpr] at ha
    cases ha
  -- Vectors are dropped: those that remain are not among the ids.
  | dropping ids =>
    rw [hpr] at ha
    obtain ⟨rfl, rfl⟩ := Prod.mk.inj (Option.some_inj.mp ha)
    refine h.put ?_ h.cache h.fingerprint trivial
    intro id v hv
    have hv' : (eraseAll ids s.tables.vectors).lookup id = some v := hv
    rw [lookup_eraseAll] at hv'
    split_ifs at hv' with hid
    obtain ⟨c, hnode, -⟩ := h.vectors id v hv'
    refine ⟨c, hnode, .inr (.inr ⟨hnode, hv', ?_⟩)⟩
    rw [hpr]
    exact hid
  | embedding r updates stage =>
    cases stage with
    | validate => exact inv_validate h hpr ha
    -- The tables of vectors and of the cache are empty.
    | clear =>
      have hs := h.procs p
      rw [hpr] at hs ha
      obtain ⟨rfl, rfl⟩ := Prod.mk.inj (Option.some_inj.mp ha)
      refine h.put ?_ ?_ h.fingerprint ⟨hs.1, trivial⟩
      · intro id v hv
        cases hv
      · intro key v hv
        cases hv
    -- The fingerprint is now the one of this call; what was owed is owed still.
    | record =>
      have hs := h.procs p
      rw [hpr] at hs ha
      obtain ⟨rfl, rfl⟩ := Prod.mk.inj (Option.some_inj.mp ha)
      refine h.put ?_ h.cache ?_ ⟨hs.1, List.Subset.refl _, ?_, List.nil_subset _⟩
      · intro id v hv
        obtain ⟨c, hnode, -⟩ := h.vectors id v hv
        refine ⟨c, hnode, .inr ?_⟩
        by_cases howes : (s.procs p).Owes id c
        · left
          rw [hpr, owes_embedding] at howes
          exact owes_embedding.mpr ⟨howes.1, .inl howes.2⟩
        · exact .inr ⟨hnode, hv, howes⟩
      · intro f hf
        exact (Option.some_inj.mp hf).symm
      · intro x hx
        cases hx
    | partition todo hits misses =>
      cases todo with
      | nil => exact inv_storeHits h hpr ha
      | cons u todo => exact inv_lookup h hinj hpr ha
    | infer misses =>
      rw [hpr] at ha
      cases ha
    | store vectors => exact inv_storeFresh h hpr ha
  | seeding =>
    rw [hpr] at ha
    obtain ⟨rfl, rfl⟩ := Prod.mk.inj (Option.some_inj.mp ha)
    refine h.put_tables ?_ ?_
    · -- Nothing is stale, so each vector read is the one of the text it is read with.
      intro e he
      obtain ⟨id, c, hnode, hv, hkey⟩ := mem_seedEntries he
      refine ⟨c, hkey, ?_⟩
      by_contra hne
      exact hok hpr id ⟨c, e.2, hnode, hv, hne⟩
    · intro id c howes
      rw [hpr] at howes
      exact howes.elim
  -- The entries read before go to the cache.
  | seedStoring entries =>
    have hs := h.procs p
    rw [hpr] at hs ha
    obtain ⟨rfl, rfl⟩ := Prod.mk.inj (Option.some_inj.mp ha)
    refine h.put ?_ ?_ h.fingerprint trivial
    · intro id v hv
      obtain ⟨c, hnode, -⟩ := h.vectors id v hv
      refine ⟨c, hnode, .inr (.inr ⟨hnode, hv, ?_⟩)⟩
      rw [hpr]
      exact not_false
    · intro key v hl
      exact cache_cachePutEmbeddings h.cache hs hl

/-- The model is run: a text it fails on is owed no more. -/
theorem inv_infer (h : Inv m s) {r : Bool} {misses : List (ℕ × String)} {fails : String → Bool}
    (hpr : s.procs p = .embedding r updates (.infer misses))
    (hok : StepOK m s (.infer p fails)) :
    Inv m (s.put p s.tables (.embedding r updates
      (.store ((misses.filter fun u => !fails u.2).map fun u => (u.1, m.embed u.2))))) := by
  have hs := h.procs p
  rw [hpr] at hs
  refine h.put_tables ⟨hs.1, ?_⟩ ?_
  · intro x hx
    obtain ⟨u, hu, rfl⟩ := List.mem_map.mp hx
    exact ⟨u.2, hs.2 (List.mem_filter.mp hu).1, rfl⟩
  · intro id c howes
    cases hfail : fails c with
    | true => exact .inr (hok id c howes hfail)
    | false =>
      left
      rw [hpr, owes_embedding] at howes
      refine owes_embedding.mpr ⟨howes.1, hs.2 howes.2, ?_⟩
      rw [List.map_map]
      exact List.mem_map.mpr ⟨(id, c), List.mem_filter.mpr ⟨howes.2, by simp [hfail]⟩, rfl⟩

/-- The call goes on to its lookups with the whole batch owed. -/
theorem inv_invalidCheck (h : Inv m s) {r : Bool} {stage : Stage Vec}
    (hpr : s.procs p = .embedding r updates stage)
    (howes : ∀ id c, stage.Owes updates id c → (id, c) ∈ updates) :
    Inv m (s.put p s.tables (.embedding r updates (.partition updates [] []))) := by
  have hs := h.procs p
  rw [hpr] at hs
  refine h.put_tables ⟨hs.1, List.Subset.refl _, ?_, List.nil_subset _⟩ ?_
  · intro x hx
    cases hx
  · intro id c ho
    rw [hpr, owes_embedding] at ho
    exact .inl (owes_embedding.mpr ⟨ho.1, .inl (howes id c ho.2)⟩)

/-- **Every step that does no harm keeps the invariant.** -/
theorem inv_step {a : Action} (hinj : Function.Injective m.cacheKey) (h : Inv m s)
    (hok : StepOK m s a) (hstep : step m s a = some s') : Inv m s' := by
  cases a with
  | insertNode i =>
    simp only [step] at hstep
    split_ifs at hstep with hin
    obtain rfl := Option.some_inj.mp hstep
    refine ⟨?_, h.cache, h.fingerprint, h.procs⟩
    intro id v hv
    obtain ⟨c, hnode, hcase⟩ := h.vectors id v hv
    refine ⟨c, ?_, hcase⟩
    -- The id was free, so no vector is left under it.
    have hne : id ≠ i := by
      rintro rfl
      rw [AList.lookup_eq_none.mpr hin] at hnode
      cases hnode
    exact (AList.lookup_insert_ne hne).trans hnode
  -- The vector goes with its node.
  | deleteNode i =>
    obtain rfl := Option.some_inj.mp hstep
    refine ⟨?_, h.cache, h.fingerprint, h.procs⟩
    intro id v hv
    have hv' : (s.tables.vectors.erase i).lookup id = some v := hv
    by_cases hid : id = i
    · rw [hid, AList.lookup_erase] at hv'
      cases hv'
    · rw [AList.lookup_erase_ne hid] at hv'
      obtain ⟨c, hnode, hcase⟩ := h.vectors id v hv'
      exact ⟨c, (AList.lookup_erase_ne hid).trans hnode, hcase⟩
  -- A call starts only where the process is idle.
  | regenerate p model vecEnabled dirty render =>
    simp only [step] at hstep
    split at hstep
    · next hidle =>
      split_ifs at hstep with hn
      obtain rfl := Option.some_inj.mp hstep
      exact inv_regenerate h hidle hn hok
    · cases hstep
  | backfill p ids =>
    simp only [step] at hstep
    split at hstep
    · next hidle =>
      split_ifs at hstep with hn
      obtain rfl := Option.some_inj.mp hstep
      exact h.start_call hidle (sound_embedAndStoreBatch (nodup_fetch hn))
    · cases hstep
  | seed p =>
    simp only [step] at hstep
    split at hstep
    · next hidle =>
      obtain rfl := Option.some_inj.mp hstep
      apply h.start_call hidle
      split_ifs <;> trivial
    · cases hstep
  -- The collection takes entries away and adds none.
  | gc =>
    obtain rfl := Option.some_inj.mp hstep
    refine ⟨?_, fun key v hv => h.cache key v (lookup_of_gcEmbeddingCache hv), ?_, h.procs⟩
    · rw [gcEmbeddingCache_vectors, gcEmbeddingCache_nodes]
      exact h.vectors
    · rw [gcEmbeddingCache_fingerprint]
      exact h.fingerprint
  | advance p =>
    obtain ⟨⟨t', pr'⟩, ha, rfl⟩ := Option.map_eq_some_iff.mp hstep
    exact inv_advance h hinj hok ha
  -- The check stands at three stages of the call.
  | invalidCheck p =>
    simp only [step] at hstep
    split at hstep
    · next hpr =>
      obtain rfl := Option.some_inj.mp hstep
      exact inv_invalidCheck h hpr fun _ _ ho => ho
    · next hpr =>
      obtain rfl := Option.some_inj.mp hstep
      exact inv_invalidCheck h hpr fun _ _ ho => ho
    · next hpr =>
      obtain rfl := Option.some_inj.mp hstep
      exact inv_invalidCheck h hpr fun _ _ ho => ho
    · cases hstep
  | infer p fails =>
    simp only [step] at hstep
    split at hstep
    · next r updates misses hpr =>
      obtain rfl := Option.some_inj.mp hstep
      exact inv_infer h hpr hok
    · cases hstep
  -- What the process still owed is not stale, by `StepOK`.
  | stop p =>
    obtain rfl := Option.some_inj.mp hstep
    exact h.put_tables trivial fun id c ho => .inr (hok id c ho)

/-! ### Runs -/

/-- **Stored vectors belong to their text.** In every state reached by steps that meet `StepOK`, the
cache holds under the key of a text what the model gives for it; and if no process is in the middle of
a regenerate, every node's vector is what the model gives for its context string. -/
theorem vectors_belong_to_their_text (hinj : Function.Injective m.cacheKey) {as : List Action}
    (hrun : run (step m) (State.start : State Key Vec) as = some s)
    (hok : AllSteps (step m) (StepOK m) (State.start : State Key Vec) as) :
    (∀ c v, s.tables.cache.lookup (m.cacheKey c) = some v → v = m.embed c) ∧
      ((∀ p, ¬ (s.procs p).Regenerating) →
        ∀ id v, id ∈ s.tables.nodes → s.tables.vectors.lookup id = some v →
          ∃ c, s.tables.nodes.lookup id = some (some c) ∧ v = m.embed c) := by
  have hinv : Inv m s :=
    AllSteps.invariant (fun hI hP h => inv_step hinj hI hP h) inv_start hok hrun
  constructor
  · intro c v hv
    obtain ⟨c', hkey, hright⟩ := hinv.cache _ v hv
    rw [hinj hkey]
    exact hright
  · intro hquiet id v _ hv
    obtain ⟨c, hnode, hright | ⟨p, howes⟩⟩ := hinv.vectors id v hv
    · exact ⟨c, hnode, hright⟩
    · -- A debt is always that of a regenerate in progress.
      have hreg : (s.procs p).Regenerating := by
        cases hpr : s.procs p with
        | dropping ids => trivial
        | embedding r updates stage =>
          rw [hpr, owes_embedding] at howes
          rw [howes.1]
          trivial
        | idle | seeding | seedStoring entries =>
          rw [hpr] at howes
          exact howes.elim
      exact absurd hreg (hquiet p)

/-- A text is its own vector and its own key. -/
def plainEmbedder : Embedder String String :=
  ⟨fun text => text, fun text => text, fun _ => true, "model"⟩

/-- A node is inserted, gets the text `a` and, from the backfill, its vector; then it is re-rendered
as `b`, with a model that fails on the texts `fails`. -/
def reRender (fails : String → Bool) : List Action :=
  [.insertNode 0, .regenerate 0 false true [0] fun _ => "a", .advance 0, .backfill 1 [0],
    .advance 1, .advance 1, .advance 1, .advance 1, .infer 1 fun _ => false, .advance 1,
    .regenerate 0 true true [0] fun _ => "b", .advance 0, .advance 0, .advance 0, .advance 0,
    .infer 0 fails, .advance 0]

/-- The model fails on the new text, and the node keeps the vector of the old one. -/
theorem failed_inference_keeps_old_vector :
    ∃ s, run (step plainEmbedder) State.start (reRender fun text => text == "b") = some s ∧
      (∀ p, ¬ (s.procs p).Regenerating) ∧ 0 ∈ s.tables.nodes ∧
      s.tables.nodes.lookup 0 = some (some "b") ∧ s.tables.vectors.lookup 0 = some "a" ∧
      "a" ≠ plainEmbedder.embed "b" := by
  refine ⟨_, rfl, ?_, ?_, ?_, ?_, ?_⟩
  · intro p
    match p with
    | 0 => exact not_false
    | 1 => exact not_false
    | n + 2 => exact not_false
  · decide +kernel
  · decide +kernel
  · decide +kernel
  · decide

/-- With a model that answers, the node ends with the vector of its new text. -/
theorem answered_inference_stores_new_vector :
    ∃ s, run (step plainEmbedder) State.start (reRender fun _ => false) = some s ∧
      s.tables.vectors.lookup 0 = some "b" ∧
      (∀ c v, s.tables.cache.lookup (plainEmbedder.cacheKey c) = some v →
        v = plainEmbedder.embed c) ∧
      ((∀ p, ¬ (s.procs p).Regenerating) →
        ∀ id v, id ∈ s.tables.nodes → s.tables.vectors.lookup id = some v →
          ∃ c, s.tables.nodes.lookup id = some (some c) ∧ v = plainEmbedder.embed c) := by
  have hok : AllSteps (step plainEmbedder) (StepOK plainEmbedder) State.start
      (reRender fun _ => false) := by
    refine .cons trivial rfl ?_
    refine .cons (fun h => Bool.noConfusion h) rfl ?_
    refine .cons (fun h => nomatch h) rfl ?_
    refine .cons trivial rfl ?_
    refine .cons (fun h => nomatch h) rfl ?_
    refine .cons (fun h => nomatch h) rfl ?_
    refine .cons (fun h => nomatch h) rfl ?_
    refine .cons (fun h => nomatch h) rfl ?_
    refine .cons (fun _ _ _ h => Bool.noConfusion h) rfl ?_
    refine .cons (fun h => nomatch h) rfl ?_
    refine .cons (fun h => Bool.noConfusion h) rfl ?_
    refine .cons (fun h => nomatch h) rfl ?_
    refine .cons (fun h => nomatch h) rfl ?_
    refine .cons (fun h => nomatch h) rfl ?_
    refine .cons (fun h => nomatch h) rfl ?_
    refine .cons (fun _ _ _ h => Bool.noConfusion h) rfl ?_
    exact .cons (fun h => nomatch h) rfl trivial
  obtain ⟨s, hrun, hvec⟩ : ∃ s, run (step plainEmbedder) State.start (reRender fun _ => false) =
      some s ∧ s.tables.vectors.lookup 0 = some "b" := ⟨_, rfl, by decide +kernel⟩
  exact ⟨s, hrun, hvec, vectors_belong_to_their_text (fun _ _ h => h) hrun hok⟩

end CodeGraph.Pipeline.Embed
