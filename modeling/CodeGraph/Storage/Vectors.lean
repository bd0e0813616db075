import CodeGraph.Lib.Assoc

/-!
# Context strings, vectors and the embedding cache

The tables of `storage/queries/vectors.rs` and `storage/queries/embedding_cache.rs` and the statements
over them. Of a node only its id and its context string matter here; node ids may be used again after
a delete. The model and the hash of the cache keys are parameters.
-/

namespace CodeGraph.Storage.Vectors

open CodeGraph.Lib

/-- The embedding model, `cache_key`, and whether a vector has the length of the current dimension. -/
structure Embedder (Key Vec : Type) where
  embed : String → Vec
  cacheKey : String → Key
  sized : Vec → Bool
  /-- `MODEL_CONTENT_BLAKE3`. -/
  fingerprint : String

/-- `nodes` (id and `context_string`), `node_vectors`, `embedding_cache`, and `meta[embedding_model]`. -/
structure Tables (Key Vec : Type) where
  nodes : AList fun _ : ℕ => Option String
  vectors : AList fun _ : ℕ => Vec
  cache : AList fun _ : Key => Vec
  fingerprint : Option String

namespace Tables

variable {Key Vec : Type} [DecidableEq Key]

/-- A fresh database. -/
def empty : Tables Key Vec := ⟨∅, ∅, ∅, none⟩

/-- Nodes are inserted without a context string. -/
def insertNode (t : Tables Key Vec) (id : ℕ) : Tables Key Vec :=
  { t with nodes := t.nodes.insert id none }

/-- The trigger `nodes_vectors_ad` deletes the vector with the node. -/
def deleteNode (t : Tables Key Vec) (id : ℕ) : Tables Key Vec :=
  { t with nodes := t.nodes.erase id, vectors := t.vectors.erase id }

/-- `update_context_strings_batch`: an `UPDATE` by id, for each pair in turn. -/
def updateContextStringsBatch (t : Tables Key Vec) (updates : List (ℕ × String)) : Tables Key Vec :=
  { t with
    nodes := updates.foldl
      (fun nodes u => if u.1 ∈ nodes then nodes.insert u.1 (some u.2) else nodes) t.nodes }

/-- `insert_node_vectors_batch`: a vector is stored where the node still has the text it was computed
from. -/
def insertNodeVectorsBatch (t : Tables Key Vec) (vectors : List (ℕ × Vec))
    (embeddedFrom : AList fun _ : ℕ => String) : Tables Key Vec :=
  { t with
    vectors := vectors.foldl
      (fun stored v =>
        match embeddedFrom.lookup v.1 with
        | none => stored
        | some text =>
          if t.nodes.lookup v.1 = some (some text) then stored.insert v.1 v.2 else stored)
      t.vectors }

/-- `delete_node_vectors_batch`. -/
def deleteNodeVectorsBatch (t : Tables Key Vec) (ids : List ℕ) : Tables Key Vec :=
  { t with vectors := eraseAll ids t.vectors }

/-- `cache_put_embeddings`. -/
def cachePutEmbeddings (t : Tables Key Vec) (entries : List (Key × Vec)) : Tables Key Vec :=
  { t with cache := insertAll entries t.cache }

/-- The lookup of `partition_by_cache`: an entry of another length is a miss. -/
def cached (t : Tables Key Vec) (m : Embedder Key Vec) (context : String) : Option Vec :=
  (t.cache.lookup (m.cacheKey context)).filter fun v => m.sized v

/-- `gc_embedding_cache`: the entries that no node's context string hashes to are deleted, unless
there are no nodes. -/
def gcEmbeddingCache (t : Tables Key Vec) (m : Embedder Key Vec) : Tables Key Vec :=
  if t.nodes.keys = [] then t
  else
    let live := t.nodes.entries.filterMap fun n => n.2.map m.cacheKey
    { t with cache := eraseAll (t.cache.keys.filter fun key => key ∉ live) t.cache }

/-- The rows that `seed_embedding_cache_from_vectors` reads: each vector of a node with a context
string, under the key of that string. -/
def seedEntries (t : Tables Key Vec) (m : Embedder Key Vec) : List (Key × Vec) :=
  t.vectors.entries.filterMap fun v =>
    match t.nodes.lookup v.1 with
    | some (some context) => if m.sized v.2 then some (m.cacheKey context, v.2) else none
    | _ => none

end Tables

/-! ### What the statements leave behind -/

variable {Key Vec : Type} [DecidableEq Key] {t : Tables Key Vec} {m : Embedder Key Vec} {v : Vec}

omit [DecidableEq Key] in
/-- A context string is the one just written or the old one, and no node comes or goes. -/
theorem lookup_updateContextStringsBatch (t : Tables Key Vec) (updates : List (ℕ × String))
    (id : ℕ) :
    (∃ c, (id, c) ∈ updates ∧ t.nodes.lookup id ≠ none ∧
      (t.updateContextStringsBatch updates).nodes.lookup id = some (some c)) ∨
    (t.updateContextStringsBatch updates).nodes.lookup id = t.nodes.lookup id := by
  have hfold : ∀ (us : List (ℕ × String)) (nodes : AList fun _ : ℕ => Option String),
      (∃ c, (id, c) ∈ us ∧ nodes.lookup id ≠ none ∧
        (us.foldl (fun nodes u => if u.1 ∈ nodes then nodes.insert u.1 (some u.2) else nodes)
          nodes).lookup id = some (some c)) ∨
      (us.foldl (fun nodes u => if u.1 ∈ nodes then nodes.insert u.1 (some u.2) else nodes)
        nodes).lookup id = nodes.lookup id := by
    intro us
    induction us with
    | nil => exact fun _ => .inr rfl
    | cons u us ih =>
      intro nodes
      rw [List.foldl_cons]
      by_cases hin : u.1 ∈ nodes
      · rw [if_pos hin]
        by_cases hid : id = u.1
        · -- The pair written here is the answer, unless a later one replaces it.
          have hsome : nodes.lookup id ≠ none := by
            rw [hid, ne_eq, AList.lookup_eq_none, not_not]
            exact hin
          rcases ih (nodes.insert u.1 (some u.2)) with ⟨c, hc, -, hl⟩ | hl
          · exact .inl ⟨c, List.mem_cons_of_mem u hc, hsome, hl⟩
          · refine .inl ⟨u.2, ?_, hsome, ?_⟩
            · rw [hid]
              exact List.mem_cons_self
            · rw [hl, hid, AList.lookup_insert]
        · rcases ih (nodes.insert u.1 (some u.2)) with ⟨c, hc, hne, hl⟩ | hl
          · rw [AList.lookup_insert_ne hid] at hne
            exact .inl ⟨c, List.mem_cons_of_mem u hc, hne, hl⟩
          · rw [AList.lookup_insert_ne hid] at hl
            exact .inr hl
      · rw [if_neg hin]
        rcases ih nodes with ⟨c, hc, hne, hl⟩ | hl
        · exact .inl ⟨c, List.mem_cons_of_mem u hc, hne, hl⟩
        · exact .inr hl
  exact hfold updates t.nodes

omit [DecidableEq Key] in
/-- The vector of a node after a batch is the one before, or one of the batch whose text the node
has. -/
theorem lookup_insertNodeVectorsBatch (t : Tables Key Vec) (vectors : List (ℕ × Vec))
    (embeddedFrom : AList fun _ : ℕ => String) (id : ℕ) :
    (∃ v text, (id, v) ∈ vectors ∧ embeddedFrom.lookup id = some text ∧
      t.nodes.lookup id = some (some text) ∧
      (t.insertNodeVectorsBatch vectors embeddedFrom).vectors.lookup id = some v) ∨
    (t.insertNodeVectorsBatch vectors embeddedFrom).vectors.lookup id = t.vectors.lookup id ∧
      ¬ ∃ v text, (id, v) ∈ vectors ∧ embeddedFrom.lookup id = some text ∧
        t.nodes.lookup id = some (some text) := by
  obtain ⟨nodes, stored, cache, fingerprint⟩ := t
  dsimp only [Tables.insertNodeVectorsBatch]
  induction vectors generalizing stored with
  | nil =>
    right
    simp
  | cons w ws ih =>
    rw [List.foldl_cons]
    by_cases hw : ∃ text, embeddedFrom.lookup w.1 = some text ∧
        nodes.lookup w.1 = some (some text)
    · obtain ⟨text, hfrom, hnode⟩ := hw
      simp only [hfrom, hnode, if_true]
      by_cases hid : id = w.1
      · left
        rcases ih (stored.insert w.1 w.2) with ⟨v, text', hv, hf, hn, hl⟩ | ⟨hl, -⟩
        · exact ⟨v, text', List.mem_cons_of_mem w hv, hf, hn, hl⟩
        · refine ⟨w.2, text, ?_, hid ▸ hfrom, hid ▸ hnode, ?_⟩
          · rw [hid]
            exact List.mem_cons_self
          · rw [hl, hid, AList.lookup_insert]
      · rcases ih (stored.insert w.1 w.2) with ⟨v, text', hv, hf, hn, hl⟩ | ⟨hl, hno⟩
        · exact .inl ⟨v, text', List.mem_cons_of_mem w hv, hf, hn, hl⟩
        · right
          refine ⟨by rw [hl, AList.lookup_insert_ne hid], ?_⟩
          rintro ⟨v, text', hv, hf, hn⟩
          rcases List.mem_cons.mp hv with hv | hv
          · exact hid (congrArg Prod.fst hv)
          · exact hno ⟨v, text', hv, hf, hn⟩
    · -- The guard fails for `w`, so the batch goes on with the table as it was.
      have hskip : (match embeddedFrom.lookup w.1 with
          | none => stored
          | some text =>
            if nodes.lookup w.1 = some (some text) then stored.insert w.1 w.2 else stored) =
          stored := by
        cases hfrom : embeddedFrom.lookup w.1 with
        | none => rfl
        | some text => exact if_neg fun hnode => hw ⟨text, hfrom, hnode⟩
      rw [hskip]
      rcases ih stored with ⟨v, text', hv, hf, hn, hl⟩ | ⟨hl, hno⟩
      · exact .inl ⟨v, text', List.mem_cons_of_mem w hv, hf, hn, hl⟩
      · right
        refine ⟨hl, ?_⟩
        rintro ⟨v, text', hv, hf, hn⟩
        rcases List.mem_cons.mp hv with hv | hv
        · obtain rfl : id = w.1 := congrArg Prod.fst hv
          exact hw ⟨text', hf, hn⟩
        · exact hno ⟨v, text', hv, hf, hn⟩

omit [DecidableEq Key] in
/-- What is seeded is a node's vector under that node's context string. -/
theorem mem_seedEntries {key : Key} (h : (key, v) ∈ t.seedEntries m) :
    ∃ id c, t.nodes.lookup id = some (some c) ∧ t.vectors.lookup id = some v ∧ key = m.cacheKey c := by
  unfold Tables.seedEntries at h
  obtain ⟨⟨id, w⟩, hw, hm⟩ := List.mem_filterMap.mp h
  have hlook : t.vectors.lookup id = some w := AList.mem_lookup_iff.mpr hw
  split at hm
  · next c hc =>
    split_ifs at hm
    obtain ⟨rfl, rfl⟩ := Prod.mk.inj (Option.some_inj.mp hm)
    exact ⟨id, c, hc, hlook, rfl⟩
  · cases hm

/-- The collector only removes entries. -/
theorem lookup_of_gcEmbeddingCache {key : Key}
    (h : (t.gcEmbeddingCache m).cache.lookup key = some v) : t.cache.lookup key = some v := by
  unfold Tables.gcEmbeddingCache at h
  split_ifs at h
  · exact h
  · dsimp only at h
    rw [lookup_eraseAll] at h
    split_ifs at h
    exact h

theorem gcEmbeddingCache_nodes : (t.gcEmbeddingCache m).nodes = t.nodes := by
  unfold Tables.gcEmbeddingCache
  split_ifs <;> rfl

theorem gcEmbeddingCache_vectors : (t.gcEmbeddingCache m).vectors = t.vectors := by
  unfold Tables.gcEmbeddingCache
  split_ifs <;> rfl

theorem gcEmbeddingCache_fingerprint : (t.gcEmbeddingCache m).fingerprint = t.fingerprint := by
  unfold Tables.gcEmbeddingCache
  split_ifs <;> rfl

end CodeGraph.Storage.Vectors
