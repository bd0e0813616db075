import CodeGraph.Lib.Run
import CodeGraph.Storage.Vectors

/-!
# Processes that write context strings and vectors

`regenerate_context_strings` of `pipeline/context.rs`, `embed_and_store_batch` of `pipeline/embed.rs`,
the background backfill and the seeding of the cache, cut at their commits and single statements.
Each process has at most one of these calls in progress; any number of processes interleave.

A context string is a function of nodes and edges that are not kept here, so a regenerate takes the
texts it renders as an argument.
-/

namespace CodeGraph.Pipeline.Embed

open CodeGraph.Lib CodeGraph.Storage.Vectors

variable {Key Vec : Type} [DecidableEq Key]

/-- How far an `embed_and_store_batch` call has come: `ensure_embedding_cache_valid` (its read, its
savepoint and its write), the lookups of `partition_by_cache`, the inference of the misses, and the
store of what the model returned. -/
inductive Stage (Vec : Type)
  | validate
  | clear
  | record
  | partition (todo : List (ℕ × String)) (hits : List (ℕ × Vec)) (misses : List (ℕ × String))
  | infer (misses : List (ℕ × String))
  | store (vectors : List (ℕ × Vec))

/-- The call a process has in progress. -/
inductive Proc (Key Vec : Type)
  | idle
  /-- A regenerate without a model, before `delete_node_vectors_batch`. -/
  | dropping (ids : List ℕ)
  /-- An `embed_and_store_batch` call, of a regenerate or of another caller. -/
  | embedding (regenerating : Bool) (updates : List (ℕ × String)) (stage : Stage Vec)
  /-- A seeding that found the cache empty. -/
  | seeding
  | seedStoring (entries : List (Key × Vec))

structure State (Key Vec : Type) where
  tables : Tables Key Vec
  procs : ℕ → Proc Key Vec

def State.start : State Key Vec := ⟨.empty, fun _ => .idle⟩

inductive Action
  | insertNode (id : ℕ)
  | deleteNode (id : ℕ)
  /-- The savepoint of a regenerate over the ids `dirty`, with or without a model, in a process with
  or without the vector tables. -/
  | regenerate (p : ℕ) (model vecEnabled : Bool) (dirty : List ℕ) (render : ℕ → String)
  /-- The backfill fetches a batch (`UnembeddedQueue::fetch`) and embeds it. -/
  | backfill (p : ℕ) (ids : List ℕ)
  /-- `seed_embedding_cache_from_vectors` counts the cache. -/
  | seed (p : ℕ)
  | gc
  /-- The next commit or statement of the call that `p` has in progress. -/
  | advance (p : ℕ)
  /-- `ensure_embedding_cache_valid` fails, which is logged and passed over. -/
  | invalidCheck (p : ℕ)
  /-- The model is run on the misses and fails on some texts. -/
  | infer (p : ℕ) (fails : String → Bool)
  /-- The process stops, or its call returns an error. -/
  | stop (p : ℕ)

/-- `ctx_by_id`. -/
def ctxById (updates : List (ℕ × String)) : AList fun _ : ℕ => String := insertAll updates ∅

/-- `cache_entries_for`. -/
def cacheEntriesFor (m : Embedder Key Vec) (updates : List (ℕ × String))
    (vectors : List (ℕ × Vec)) : List (Key × Vec) :=
  vectors.filterMap fun v => ((ctxById updates).lookup v.1).map fun c => (m.cacheKey c, v.2)

/-- `context_updates`: the texts of the dirty nodes that exist. -/
def contextUpdates (t : Tables Key Vec) (dirty : List ℕ) (render : ℕ → String) :
    List (ℕ × String) :=
  (dirty.filter fun id => id ∈ t.nodes).map fun id => (id, render id)

/-- `UnembeddedQueue::fetch`: the nodes that have a context string and no vector. -/
def fetch (t : Tables Key Vec) (ids : List ℕ) : List (ℕ × String) :=
  ids.filterMap fun id =>
    if id ∈ t.vectors then none else (t.nodes.lookup id).join.map fun c => (id, c)

/-- `embed_and_store_batch`: an empty batch returns at once. -/
def embedAndStoreBatch (regenerating : Bool) (updates : List (ℕ × String)) : Proc Key Vec :=
  if updates = [] then .idle else .embedding regenerating updates .validate

/-- What a regenerate does after its savepoint. -/
def afterSavepoint (model vecEnabled : Bool) (updates : List (ℕ × String)) : Proc Key Vec :=
  if model && vecEnabled then embedAndStoreBatch true updates
  else if vecEnabled && updates ≠ [] then .dropping (updates.map Prod.fst)
  else .idle

/-- The next commit or statement of a call. -/
def advance (m : Embedder Key Vec) (t : Tables Key Vec) :
    Proc Key Vec → Option (Tables Key Vec × Proc Key Vec)
  | .idle => none
  | .dropping ids => some (t.deleteNodeVectorsBatch ids, .idle)
  | .embedding r updates .validate =>
    match t.fingerprint with
    | none => some (t, .embedding r updates .record)
    | some stored =>
      some (t, .embedding r updates (if stored = m.fingerprint then .record else .clear))
  | .embedding r updates .clear =>
    some ({ t with vectors := ∅, cache := ∅ }, .embedding r updates .record)
  | .embedding r updates .record =>
    some ({ t with fingerprint := some m.fingerprint },
      .embedding r updates (.partition updates [] []))
  | .embedding r updates (.partition (u :: todo) hits misses) =>
    match t.cached m u.2 with
    | some v => some (t, .embedding r updates (.partition todo (hits ++ [(u.1, v)]) misses))
    | none => some (t, .embedding r updates (.partition todo hits (misses ++ [u])))
  | .embedding r updates (.partition [] hits misses) =>
    some (t.insertNodeVectorsBatch hits (ctxById updates),
      if misses = [] then .idle else .embedding r updates (.infer misses))
  | .embedding _ _ (.infer _) => none
  | .embedding _ updates (.store vectors) =>
    some ((t.insertNodeVectorsBatch vectors (ctxById updates)).cachePutEmbeddings
      (cacheEntriesFor m updates vectors), .idle)
  | .seeding => some (t, .seedStoring (t.seedEntries m))
  | .seedStoring entries => some (t.cachePutEmbeddings entries, .idle)

/-- The process `p` goes on as `pr`, with the tables `t`. -/
def State.put (s : State Key Vec) (p : ℕ) (t : Tables Key Vec) (pr : Proc Key Vec) : State Key Vec :=
  ⟨t, Function.update s.procs p pr⟩

def step (m : Embedder Key Vec) (s : State Key Vec) : Action → Option (State Key Vec)
  | .insertNode id =>
    if id ∈ s.tables.nodes then none else some { s with tables := s.tables.insertNode id }
  | .deleteNode id => some { s with tables := s.tables.deleteNode id }
  | .regenerate p model vecEnabled dirty render =>
    match s.procs p with
    | .idle =>
      -- `dirty_ids` is a set.
      if dirty.Nodup then
        let updates := contextUpdates s.tables dirty render
        some (s.put p (s.tables.updateContextStringsBatch updates)
          (afterSavepoint model vecEnabled updates))
      else none
    | _ => none
  | .backfill p ids =>
    match s.procs p with
    | .idle =>
      -- The ranking groups by id, so no id is there twice.
      if ids.Nodup then some (s.put p s.tables (embedAndStoreBatch false (fetch s.tables ids)))
      else none
    | _ => none
  | .seed p =>
    match s.procs p with
    | .idle => some (s.put p s.tables (if s.tables.cache.keys = [] then .seeding else .idle))
    | _ => none
  | .gc => some { s with tables := s.tables.gcEmbeddingCache m }
  | .advance p => (advance m s.tables (s.procs p)).map fun r => s.put p r.1 r.2
  | .invalidCheck p =>
    match s.procs p with
    | .embedding r updates .validate | .embedding r updates .clear
    | .embedding r updates .record =>
      some (s.put p s.tables (.embedding r updates (.partition updates [] [])))
    | _ => none
  | .infer p fails =>
    match s.procs p with
    | .embedding r updates (.infer misses) =>
      let vectors := (misses.filter fun u => !fails u.2).map fun u => (u.1, m.embed u.2)
      some (s.put p s.tables (.embedding r updates (.store vectors)))
    | _ => none
  | .stop p => some (s.put p s.tables .idle)

/-- The process is in the middle of a regenerate. -/
def Proc.Regenerating : Proc Key Vec → Prop
  | .dropping _ | .embedding true _ _ => True
  | _ => False

end CodeGraph.Pipeline.Embed
