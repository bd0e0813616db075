import CodeGraph.Storage.Rows
import Mathlib.Data.List.Dedup
import Mathlib.Data.List.Infix
import Mathlib.Data.List.ProdSigma

/-!
# The batch loop of an indexing run

`index_files` of `pipeline/index_files.rs`, from its first purge to the start of the deferred pass:
foreign routes are settled and the deleted files purged, and then each batch purges the files it set
aside, replaces the nodes of the files it parsed, resolves their relations, and puts back the edges of
other files that its purges took.

The run is told by its `Env`. Metadata is JSON text; what the code reads out of it is a parameter. So
is the part of `resolve_batch_relations` that decides what becomes of a relation that is not a route:
it may bind, defer, make a sentinel or drop, whatever it has seen (`Verdict`).
-/

namespace CodeGraph.Pipeline.IndexFiles

open CodeGraph.Storage CodeGraph.Storage.Rows

/-! ### Data -/

structure ParsedNode where
  type : String
  name : String
  qualifiedName : Option String
  startLine : ℕ
  endLine : ℕ
  deriving DecidableEq, Repr

structure ParsedRelation where
  sourceName : String
  targetName : String
  relation : Relation
  metadata : Option String
  sourceLine : Option ℕ
  deriving DecidableEq, Repr

structure FilePreParsed where
  relPath : String
  language : String
  nodes : List ParsedNode
  relations : List ParsedRelation

/-- A file whose nodes are inserted, with the id of each. -/
structure FileParsed where
  relPath : String
  language : String
  nodes : List (ℕ × ParsedNode)
  relations : List ParsedRelation

/-- What the pre-parse made of a batch: the files it parsed, those it set aside (path and language),
and those it could not read, which the run leaves alone. -/
structure Batch where
  parsed : List FilePreParsed
  skipped : List (String × String)
  unread : List String

/-- The files of the batch. -/
def Batch.files (b : Batch) : List String :=
  b.parsed.map FilePreParsed.relPath ++ b.skipped.map Prod.fst ++ b.unread

/-- The files whose nodes the batch purges. -/
def Batch.paths (b : Batch) : List String :=
  b.parsed.map FilePreParsed.relPath ++ b.skipped.map Prod.fst

structure DeferredRelation where
  sourceIds : List ℕ
  sourceName : String
  targetName : String
  relation : Relation
  metadata : Option String
  relPath : String
  language : String
  nsFile : Option String
  deriving DecidableEq, Repr

/-- `DeferredRelation::of`. -/
def DeferredRelation.of (sourceIds : List ℕ) (rel : ParsedRelation) (pf : FileParsed)
    (nsFile : Option String) : DeferredRelation :=
  ⟨sourceIds, rel.sourceName, rel.targetName, rel.relation, rel.metadata, pf.relPath, pf.language,
    nsFile⟩

/-- An entry of `global_name_map`, under its name. -/
structure NameEntry where
  name : String
  id : ℕ
  path : String
  language : Option String
  deriving DecidableEq, Repr

/-- What becomes of a relation at batch time. -/
inductive Verdict
  | bind (targets : List ℕ)
  | defer (nsFile : Option String)
  /-- A Python import of a module outside the project. -/
  | externalModule (module : String)
  /-- Another name outside the project. -/
  | unresolvedExternal
  | drop

/-- What the code reads out of an edge's metadata. -/
structure Readers where
  /-- `parse_callee_metadata(..).is_some()`. -/
  typed : Option String → Bool
  /-- `CalleeMeta::Import`. -/
  renamedImport : Option String → Bool
  /-- `python_attr_of`. -/
  pythonAttrOf : Option String → Option String
  /-- `js_exports::as_extracted`. -/
  asExtracted : Option String → String → String × Option String
  /-- `js_import_pending_name`. -/
  jsImportPendingName : Option String → String → String
  /-- `route_file_of`, of the edges `foreign_route_edges` selects. -/
  routeFileOf : Option String → Option String
  /-- `is_package_bound`. -/
  isPackageBound : Option String → Bool

structure Env extends Readers where
  /-- `run_file_paths`. -/
  run : List String
  /-- The next row id of `nodes`, given those in use. -/
  alloc : List ℕ → ℕ
  /-- `rust_call_shape_admits` and `rust_crate_admits`, for a caller in a file. -/
  rustAdmits : Option String → String → ParsedNode → Bool
  /-- The name a Rust `impl` relation's type has in its file. -/
  implTypeName : String → String → String
  /-- The rest of `resolve_batch_relations`. -/
  chain : Graph → List NameEntry → FileParsed → ParsedRelation → Verdict

variable (env : Env)

/-! ### Purges that buffer -/

/-- The inbound edges of a file that the two buffering queries return, with the language of the source
file: one without a language is passed over. -/
def inboundKnown (g : Graph) (path : String) : List (String × Edge × Node × Node) :=
  (g.inbound path).filterMap fun x =>
    ((g.files x.2.1.path).join.filter fun language => language ≠ "").map fun language => (language, x)

/-- `buffer_inbound_before_node_purge`: inbound calls go to the pending table, other relations to the
deferred list unless their file is one of the run or one being deleted. -/
def bufferInboundBeforeNodePurge (deleteSet : List String)
    (s : Graph × List DeferredRelation) (path : String) : Graph × List DeferredRelation :=
  let inbound := inboundKnown s.1 path
  let calls := inbound.filter fun x => x.2.1.relation = .calls
  let rest := inbound.filter fun x => x.2.1.relation ≠ .calls ∧ x.2.2.1.path ≠ "" ∧
    x.2.2.1.path ∉ env.run ∧ x.2.2.1.path ∉ deleteSet
  (calls.foldl (fun g x => g.insertPending ⟨x.2.2.1.id,
      env.jsImportPendingName x.2.1.metadata x.2.2.2.name, x.1, x.2.1.metadata⟩) s.1,
    s.2 ++ rest.map fun x => ⟨[x.2.2.1.id], "", x.2.2.2.name, x.2.1.relation, x.2.1.metadata,
      x.2.2.1.path, x.1, none⟩)

/-- `buffer_then_delete_files`. -/
def bufferThenDeleteFiles (deletePaths : List String) (s : Graph × List DeferredRelation) :
    Graph × List DeferredRelation :=
  let present := deletePaths.filter fun path => (s.1.files path).isSome
  let buffered := present.foldl (bufferInboundBeforeNodePurge env deletePaths) s
  (deletePaths.foldl Graph.deleteFile buffered.1, buffered.2)

/-- `settle_foreign_routes`: a route that a file of the run wrote elsewhere is deleted, one that
another file wrote into the run is deferred, once, with no source ids. -/
def settleForeignRoutes (deletePaths : List String) (g : Graph) :
    Graph × List DeferredRelation :=
  let run := env.run ++ deletePaths
  let routes := g.edges.filterMap fun e =>
    match e.relation, env.routeFileOf e.metadata, g.node? e.source, g.node? e.target with
    | .routesTo, some rf, some s, some t => some (e, rf, s, t)
    | _, _, _, _ => none
  let stale := (routes.filter fun r => r.2.1 ∈ run).map fun r => r.1
  let foreign := routes.filter fun r =>
    r.2.1 ∉ run ∧ (r.2.2.1.path ∈ run ∨ r.2.2.2.path ∈ run)
  let requeued := (foreign.map fun r => (r.2.1, r.2.2.2.name, r.1.metadata)).dedup
  (g.deleteEdges fun e => e ∈ stale,
    requeued.filterMap fun r => (g.files r.1).join.map fun language =>
      ⟨[], r.2.1, r.2.1, .routesTo, r.2.2, r.1, language, none⟩)

/-- A file that was set aside: its row is written and its nodes are purged. -/
def skipFile (s : Graph × List DeferredRelation) (file : String × String) :
    Graph × List DeferredRelation :=
  let g := s.1.upsertFile file.1 (some file.2)
  let (g, deferred) := bufferInboundBeforeNodePurge env [] (g, s.2) file.1
  (g.purge file.1, deferred)

/-! ### Phase 1b: the nodes of a batch -/

def insertFileNodes (path : String) : Graph → List ParsedNode → Graph × List (ℕ × ParsedNode)
  | g, [] => (g, [])
  | g, n :: ns =>
    let (g, id) := g.insertNode env.alloc path n.type n.name n.qualifiedName
    let (g, rest) := insertFileNodes path g ns
    (g, (id, n) :: rest)

/-- The `<module>` node as Phase 2 sees it: no qualified form, and every line. -/
def moduleNode : ParsedNode := ⟨"module", "<module>", none, 1, 4294967295⟩

/-- One file of `insert_batch_nodes`: the inbound edges are read before the purge. -/
def insertFile (g : Graph) (f : FilePreParsed) : Graph × FileParsed × List (Edge × Node × Node) :=
  let g := g.upsertFile f.relPath (some f.language)
  let saved := g.inbound f.relPath
  let g := g.purge f.relPath
  let (g, id) := g.insertNode env.alloc f.relPath "module" "<module>" (some f.relPath)
  let (g, nodes) := insertFileNodes env f.relPath g f.nodes
  (g, ⟨f.relPath, f.language, (id, moduleNode) :: nodes, f.relations⟩, saved)

/-- `insert_batch_nodes`. -/
def insertBatchNodes : Graph → List FilePreParsed →
    Graph × List FileParsed × List (Edge × Node × Node)
  | g, [] => (g, [], [])
  | g, f :: fs =>
    let (g, pf, saved) := insertFile env g f
    let (g, pfs, saved') := insertBatchNodes g fs
    (g, pf :: pfs, saved ++ saved')

/-! ### Phase 2: relations -/

/-- The entries that the nodes of a file make in `global_name_map`. -/
def FileParsed.entries (pf : FileParsed) : List NameEntry :=
  pf.nodes.map fun n => ⟨n.2.name, n.1, pf.relPath, some pf.language⟩

/-- The first of the narrowest definitions. -/
def innermost : List (ℕ × ParsedNode) → Option (ℕ × ParsedNode)
  | [] => none
  | n :: ns =>
    match innermost ns with
    | none => some n
    | some m =>
      if n.2.endLine - n.2.startLine ≤ m.2.endLine - m.2.startLine then some n else some m

/-- Of several nodes of one name, the innermost one that contains the line. -/
def narrow (named : List (ℕ × ParsedNode)) (line : Option ℕ) : List (ℕ × ParsedNode) :=
  if 1 < named.length then
    match line.bind fun line =>
      innermost (named.filter fun n => n.2.startLine ≤ line ∧ line ≤ n.2.endLine) with
    | some n => [n]
    | none => named
  else named

/-- The nodes of the file that a relation starts from. -/
def sourceIds (pf : FileParsed) (rel : ParsedRelation) : List ℕ :=
  let rustImpl := pf.language = "rust" ∧ rel.relation = .implements
  let name := if rustImpl then env.implTypeName pf.relPath rel.sourceName else rel.sourceName
  let named := pf.nodes.filter fun n =>
    (n.2.name = name ∨ n.2.qualifiedName = some name) ∧
      ¬ ((rel.relation = .inherits ∨ rel.relation = .implements) ∧
          (n.2.type = "function" ∨ n.2.type = "method") ∨
        rustImpl ∧ n.2.type = "interface")
  (narrow named rel.sourceLine).map Prod.fst

/-- The broad test-file rule of `refine_ambiguous_targets`. -/
def isTestPath (path : String) : Bool :=
  [".test.", "_test.", "/tests/", "/test/", ".spec."].any
      (fun part => decide (part.toList <:+: path.toList)) ||
    ["tests/", "test/"].any fun part => decide (part.toList <+: path.toList)

/-- The number of leading bytes two paths share. -/
def prefixLen (caller path : String) : ℕ :=
  ((caller.toUTF8.toList.zip path.toUTF8.toList).takeWhile fun b => b.1 == b.2).length

/-- `refine_ambiguous_targets`. -/
def refineAmbiguousTargets (candidates : List ℕ) (caller : String) (pathOf : ℕ → String) : List ℕ :=
  if candidates.length ≤ 1 then candidates
  else
    let nonTest := candidates.filter fun id => !isTestPath (pathOf id)
    let pool := if isTestPath caller ∨ nonTest = [] then candidates else nonTest
    let longest := (pool.map fun id => prefixLen caller (pathOf id)).foldl max 0
    pool.filter fun id => prefixLen caller (pathOf id) = longest

/-- The handler of a route whose file does not define it: the nodes of that name and of the file's
language, refined by path. -/
def recoverHandler (pool : List NameEntry) (pf : FileParsed) (rel : ParsedRelation) : List ℕ :=
  let named := (pool.filter fun n => n.name = rel.sourceName ∧ n.language = some pf.language).map
    NameEntry.id
  refineAmbiguousTargets (named.dedup.mergeSort (· ≤ ·)) pf.relPath fun id =>
    ((pool.find? fun n => n.id == id).map NameEntry.path).getD ""

/-- The nodes of the file that a route may lead to. -/
def sameFileTargets (pf : FileParsed) (rel : ParsedRelation) : List ℕ :=
  if env.isPackageBound rel.metadata then []
  else (pf.nodes.filter fun n => n.2.name = rel.targetName).map Prod.fst

/-- `insert_relation_edges`. -/
def insertRelationEdges (g : Graph) (sources targets : List ℕ) (relation : Relation)
    (metadata : Option String) (allowSelf : Bool) : Graph :=
  ((sources ×ˢ targets).filter fun st => st.1 ≠ st.2 ∨ allowSelf).foldl
    (fun g st => g.insertEdge ⟨st.1, st.2, relation, metadata⟩) g

/-- A relation left for an `<external>` sentinel. -/
structure ExternalRef where
  source : ℕ
  name : String
  relation : Relation

/-- What resolution has done so far. -/
structure Resolving where
  graph : Graph
  deferred : List DeferredRelation
  externalPythonImports : List ExternalRef
  unresolvedExternals : List ExternalRef

/-- One relation of `resolve_batch_relations`. A route is bound within its file or deferred. -/
def resolveRelation (pool : List NameEntry) (pf : FileParsed) (s : Resolving)
    (rel : ParsedRelation) : Resolving :=
  let sources := sourceIds env pf rel
  if rel.relation = .routesTo then
    let sources := if sources = [] then recoverHandler pool pf rel else sources
    let targets := if sources = [] then [] else sameFileTargets env pf rel
    if targets = [] then { s with deferred := s.deferred ++ [.of sources rel pf none] }
    else { s with
      graph := insertRelationEdges s.graph sources targets .routesTo rel.metadata true }
  else
    match env.chain s.graph pool pf rel with
    | .bind targets =>
      { s with
        graph := insertRelationEdges s.graph sources (targets.filter fun id => id ∈ s.graph.ids)
          rel.relation rel.metadata false }
    | .defer nsFile => { s with deferred := s.deferred ++ [.of sources rel pf nsFile] }
    | .externalModule module =>
      { s with
        externalPythonImports :=
          s.externalPythonImports ++ sources.map fun src => ⟨src, module, .imports⟩ }
    | .unresolvedExternal =>
      { s with
        unresolvedExternals :=
          s.unresolvedExternals ++ sources.map fun src => ⟨src, rel.targetName, rel.relation⟩ }
    | .drop => s

/-- `resolve_batch_relations`. -/
def resolveBatchRelations (pool : List NameEntry) (pfs : List FileParsed) (s : Resolving) :
    Resolving :=
  pfs.foldl (fun s pf => pf.relations.foldl (resolveRelation env pool pf) s) s

/-- `domain::EXTERNAL_FILE_PATH`. -/
def externalFilePath : String := "<external>"

def sentinel? (g : Graph) (name : String) : Option Node :=
  g.nodes.reverse.find? fun n => n.path == externalFilePath && n.name == name

/-- One channel of `mint_external_sentinels`: the missing sentinels in the order of their names, then
the edges. (An `implements` claim also turns an existing `module` sentinel into a `trait`, which
nothing in the loop reads.) -/
def mintChannel (type : String → String) (g : Graph) (refs : List ExternalRef) : Graph :=
  if refs.isEmpty then g
  else
    let g := g.upsertFile externalFilePath (some "external")
    let names := (refs.map ExternalRef.name).dedup.mergeSort (· ≤ ·)
    let g := names.foldl (fun g name =>
      if (sentinel? g name).isSome then g
      else (g.insertNode env.alloc externalFilePath (type name) name
        (some (externalFilePath ++ "/" ++ name))).1) g
    refs.foldl (fun g r =>
      match sentinel? g r.name with
      | some n => g.insertEdge ⟨r.source, n.id, r.relation, none⟩
      | none => g) g

/-- `mint_external_sentinels`. -/
def mintExternalSentinels (g : Graph) (pythonImports unresolved : List ExternalRef) : Graph :=
  let traits := (unresolved.filter fun r => r.relation = .implements).map ExternalRef.name
  mintChannel env (fun name => if name ∈ traits then "trait" else "module")
    (mintChannel env (fun _ => "external_module") g pythonImports) unresolved

/-! ### Phase 2c: the edges of other files -/

/-- The text occurs in the metadata. -/
def mentions (text : String) (metadata : Option String) : Bool :=
  metadata.any fun m => decide (text.toList <:+: m.toList)

/-- A call typed by its receiver. -/
def receiverTyped (relation : Relation) (metadata : Option String) : Bool :=
  relation = .calls && mentions "\"rt\":" metadata

/-- A `P.X()` call: `is_module_attr_call`. -/
def attrCall (relation : Relation) (metadata : Option String) : Bool :=
  relation = .calls && (mentions "\"attr\":" metadata && mentions "\"q\":\"module\"" metadata)

/-- The new nodes of a batch by file and name: `batch_name_to_ids`. -/
def batchNamed (pfs : List FileParsed) (path name : String) : List (ℕ × ParsedNode) :=
  (pfs.filter fun pf => pf.relPath = path).flatMap fun pf => pf.nodes.filter fun n => n.2.name = name

/-- A synthetic import of a module that has gained the attribute it names. -/
def attrImport (pfs : List FileParsed) (x : Edge × Node × Node) : Option String :=
  if x.1.relation = .imports ∧ x.2.2.name = "<module>" then
    (env.pythonAttrOf x.1.metadata).filter fun attr => batchNamed pfs x.2.2.path attr ≠ []
  else none

/-- The nodes that a saved edge is restored to. -/
def newTargetIds (pfs : List FileParsed) (srcPath srcLang : String) (x : Edge × Node × Node) :
    List ℕ :=
  let (e, _, t) := x
  if e.relation = .calls ∧ env.renamedImport e.metadata ∨ receiverTyped e.relation e.metadata ∨
      (attrImport env pfs x).isSome then []
  else
    let typed := e.relation = .calls ∧ env.typed e.metadata
    let supertype := e.relation = .inherits ∨ e.relation = .implements
    ((batchNamed pfs t.path t.name).filter fun n =>
      (¬ typed ∨ n.2.qualifiedName = t.qualifiedName) ∧
      (srcLang ≠ "python" ∨ n.2.type ≠ "method" ∨ n.2.qualifiedName = t.qualifiedName) ∧
      (¬ supertype ∨ n.2.type ≠ "function" ∧ n.2.type ≠ "method") ∧
      (e.relation ≠ .calls ∨ env.rustAdmits e.metadata srcPath n.2)).map Prod.fst

/-- What Phase 2c has done so far; `requeued` is `requeued_typed`. -/
structure Restoring where
  graph : Graph
  deferred : List DeferredRelation
  requeued : List (ℕ × String × Option String)

/-- One edge of `restore_inbound_edges`. -/
def restoreInboundEdge (pfs : List FileParsed) (done : List String) (s : Restoring)
    (x : Edge × Node × Node) : Restoring :=
  let (e, src, t) := x
  if src.path ∈ pfs.map FileParsed.relPath then s
  else
    let (srcPath, srcLang) := match s.graph.files src.path with
      | some language => (src.path, language.getD "")
      | none => ("", "")
    let targets := newTargetIds env pfs srcPath srcLang x
    if targets ≠ [] then
      { s with
        graph := (targets.filter fun id => id ≠ src.id).foldl
          (fun g id => g.insertEdge ⟨src.id, id, e.relation, e.metadata⟩) s.graph }
    else if srcPath = "" then s
    -- The source file is in a later batch, which extracts its relations again.
    else if srcPath ∈ env.run ∧ srcPath ∉ done then s
    else if receiverTyped e.relation e.metadata ∨ attrCall e.relation e.metadata ∨
        (attrImport env pfs x).isSome then
      let name := (attrImport env pfs x).getD t.name
      if (src.id, name, e.metadata) ∈ s.requeued then s
      else
        { graph :=
            if (attrImport env pfs x).isSome then
              s.graph.deleteEdges fun f => f.source = src.id && f.relation = e.relation &&
                (f.metadata = e.metadata && e.metadata.isSome)
            else s.graph
          deferred := s.deferred ++
            [⟨[src.id], "", name, e.relation, e.metadata, srcPath, srcLang, none⟩]
          requeued := (src.id, name, e.metadata) :: s.requeued }
    else if e.relation = .calls then
      { s with
        graph := s.graph.insertPending
          ⟨src.id, env.jsImportPendingName e.metadata t.name, srcLang, e.metadata⟩ }
    else
      let extracted := env.asExtracted e.metadata t.name
      { s with
        deferred := s.deferred ++
          [⟨[src.id], "", extracted.1, e.relation, extracted.2, srcPath, srcLang, none⟩] }

/-! ### The loop -/

structure State where
  graph : Graph
  deferred : List DeferredRelation
  nameMap : List NameEntry
  /-- `done_paths`. -/
  done : List String

/-- The state in which the batch loop starts. -/
def start (deletePaths : List String) (g : Graph) : State :=
  let settled := settleForeignRoutes env deletePaths g
  let s := bufferThenDeleteFiles env deletePaths settled
  ⟨s.1, s.2, s.1.nodes.map fun n => ⟨n.name, n.id, n.path, (s.1.files n.path).join⟩, []⟩

/-- The files set aside are purged first. -/
def skipped (s : State) (b : Batch) : Graph × List DeferredRelation :=
  b.skipped.foldl (skipFile env) (s.graph, s.deferred)

/-- Phase 1b. -/
def inserted (s : State) (b : Batch) : Graph × List FileParsed × List (Edge × Node × Node) :=
  insertBatchNodes env (skipped env s b).1 b.parsed

/-- The entries of `global_name_map` that the batch leaves alone, and those it adds. -/
def otherEntries (s : State) (b : Batch) : List NameEntry :=
  s.nameMap.filter fun n => n.path ∉ b.paths

def ownEntries (s : State) (b : Batch) : List NameEntry :=
  (inserted env s b).2.1.flatMap FileParsed.entries

/-- Phase 2. -/
def resolved (s : State) (b : Batch) : Resolving :=
  resolveBatchRelations env (ownEntries env s b ++ otherEntries s b) (inserted env s b).2.1
    ⟨(inserted env s b).1, (skipped env s b).2, [], []⟩

/-- Phase 2b. -/
def minted (s : State) (b : Batch) : Graph :=
  let r := resolved env s b
  mintExternalSentinels env r.graph r.externalPythonImports r.unresolvedExternals

/-- Phase 2c. -/
def restored (s : State) (b : Batch) : Restoring :=
  (inserted env s b).2.2.foldl (restoreInboundEdge env (inserted env s b).2.1 s.done)
    ⟨minted env s b, (resolved env s b).deferred, []⟩

/-- One batch. -/
def batchStep (s : State) (b : Batch) : State where
  graph := (restored env s b).graph
  deferred := (restored env s b).deferred
  nameMap := otherEntries s b ++ ownEntries env s b
  done := s.done ++ b.paths

/-- The state in which the deferred pass starts. -/
def indexFiles (deletePaths : List String) (g : Graph) (batches : List Batch) : State :=
  batches.foldl (batchStep env) (start env deletePaths g)

end CodeGraph.Pipeline.IndexFiles
