import CodeGraph.Storage.Index
import Mathlib.Data.Finset.Union
import Mathlib.Data.Finset.Card
import Mathlib.Data.List.Infix

/-!
# The edge post-passes

`pipeline/resolve.rs`. Four passes run over the edges once an indexing run has written its own:

* `bindCallsToImportedTargets` adds, for a bare call, an edge to the node its file imports under the
  called name;
* `pruneImportContradictedCallEdges` removes a bare call's edge that an import contradicts;
* `bindModuleAttrCalls` points a `P.X()` call at what the synthetic import of `X` from `P` found;
* `classifyEdgeConfidence` labels the edges that were resolved by name.

Each pass reads the imports of a file, as `cg_imports` and its variants materialize them. With
`PostPassScope.files` a pass looks only at the edges that touch the files of the run; the labels also
follow the names whose count moved (`scopeNamesFromCountDrift`).

`json_extract` is a parameter `json`: the passes are generic in how a metadata text is read.
-/

namespace CodeGraph.Pipeline.Resolve

open CodeGraph.Lib CodeGraph.Storage

/-- What `json_extract` returns where it does not return NULL. Numbers are integers here. -/
inductive SqlVal
  | int (n : ℤ)
  | text (s : String)
  deriving DecidableEq, Repr

/-- The members of a metadata object that the passes read. -/
inductive Field
  | q | rt | ur | amb | attr | v | pythonModule | imported
  deriving DecidableEq, Repr

/-- `json m k` is `json_extract(m, '$.k')` for a JSON text `m`. -/
abbrev Json := String → Field → Option SqlVal

variable (json : Json)

/-- `json_extract(metadata, '$.k')`, NULL for NULL metadata. -/
def get (metadata : Option String) (k : Field) : Option SqlVal := metadata.bind fun m => json m k

/-- SQL's `=`, which no NULL satisfies. -/
def SqlEq (a b : Option SqlVal) : Prop := a.isSome ∧ a = b

instance (a b : Option SqlVal) : Decidable (SqlEq a b) := inferInstanceAs (Decidable (_ ∧ _))

/-- Bare, or bare as far as resolution goes (a `ur` mark). -/
def Bare (metadata : Option String) : Prop :=
  metadata = none ∨ metadata = some "" ∨ (get json metadata .ur).isSome

instance (m : Option String) : Decidable (Bare json m) := inferInstanceAs (Decidable (_ ∨ _))

/-- `metadata LIKE '%"attr":%'`, which folds the case of ASCII letters. -/
def MentionsAttr (metadata : Option String) : Prop :=
  ∃ m ∈ metadata, "\"attr\":".toList <:+: m.toList.map Char.toLower

instance (m : Option String) : Decidable (MentionsAttr m) :=
  match m with
  | none => isFalse (by simp [MentionsAttr])
  | some t => decidable_of_iff ("\"attr\":".toList <:+: t.toList.map Char.toLower)
      (by simp [MentionsAttr])

/-! ### Imports of a file -/

/-- The name an import binds: a renamed re-export carries it beside a target of another name. -/
def importName (I : Index) (ie : EdgeRow) : SqlVal :=
  (get json ie.metadata .imported).getD (.text (I.node ie.target).name)

/-- The targets of `cg_unique_imports` for a file and a name, before `HAVING`: what the file's plain
imports of the name lead to. -/
def importTargets (I : Index) (fid : ℕ) (nm : SqlVal) : Finset ℕ :=
  (I.edges.filter fun ie => ie.relation = .imports ∧ (I.fileOf ie.target).path ≠ "<external>" ∧
    get json ie.metadata .attr = none ∧ (I.node ie.source).fileId = fid ∧
    importName json I ie = nm).image EdgeRow.target

/-- Whether `cg_imports` has a row of file `fid` without `attr` that satisfies `p`. -/
def ImportsPlain (I : Index) (fid : ℕ) (p : EdgeRow → Prop) : Prop :=
  ∃ ie ∈ I.edges, ie.relation = .imports ∧ (I.node ie.source).fileId = fid ∧
    get json ie.metadata .attr = none ∧ p ie

instance (I : Index) (fid : ℕ) (p : EdgeRow → Prop) [DecidablePred p] :
    Decidable (ImportsPlain json I fid p) :=
  inferInstanceAs (Decidable (∃ ie ∈ I.edges, _))

/-! ### Scope -/

/-- Which slice of the graph a pass has to reconsider: every edge, or those that touch
`cg_scope_files` or, for the labels, whose target's name is in `cg_scope_names`. -/
inductive PostPassScope
  | global
  | files (fids : Finset ℕ) (names : Finset String)

/-- The arms on the caller's file and on the callee's. -/
def PostPassScope.Touches (I : Index) : PostPassScope → EdgeRow → Prop
  | .global, _ => True
  | .files fids _, e => (I.node e.source).fileId ∈ fids ∨ (I.node e.target).fileId ∈ fids

instance (I : Index) (scope : PostPassScope) (e : EdgeRow) : Decidable (scope.Touches I e) :=
  match scope with
  | .global => isTrue trivial
  | .files fids _ =>
    inferInstanceAs (Decidable ((I.node e.source).fileId ∈ fids ∨ (I.node e.target).fileId ∈ fids))

/-! ### Phase 2d-bind -/

/-- `BIND_PREDICATE` without the import side: a bare call whose name no node of the caller's file
has. -/
def Bindable (I : Index) (e : EdgeRow) : Prop :=
  e.relation = .calls ∧ Bare json e.metadata ∧
    ∀ ln ∈ I.nodes, ¬ (ln.fileId = (I.node e.source).fileId ∧ ln.name = (I.node e.target).name)

instance (I : Index) (e : EdgeRow) : Decidable (Bindable json I e) :=
  inferInstanceAs (Decidable (_ ∧ _ ∧ _))

/-- The node a call of this name in the caller's file is bound to by a unique import, when that is
not the caller itself; no node or one. -/
def boundTargets (I : Index) (e : EdgeRow) : Finset ℕ :=
  let ts := importTargets json I (I.node e.source).fileId (.text (I.node e.target).name)
  if ts.card = 1 then ts.erase e.source else ∅

/-- The rows `bind_calls_to_imported_targets` offers. -/
def bindRows (I : Index) (scope : PostPassScope) : Finset EdgeRow :=
  (I.edges.filter fun e => scope.Touches I e ∧ Bindable json I e).biUnion fun e =>
    (boundTargets json I e).image fun t => .new e.source t .calls none

theorem mem_bindRows {I : Index} {scope : PostPassScope} {r : EdgeRow} :
    r ∈ bindRows json I scope ↔ ∃ e ∈ I.edges, scope.Touches I e ∧ Bindable json I e ∧
      ∃ t ∈ boundTargets json I e, r = .new e.source t .calls none := by
  simp only [bindRows, Finset.mem_biUnion, Finset.mem_filter, Finset.mem_image]
  constructor
  · rintro ⟨e, ⟨he, ht, hb⟩, t, htt, rfl⟩
    exact ⟨e, he, ht, hb, t, htt, rfl⟩
  · rintro ⟨e, he, ht, hb, t, htt, rfl⟩
    exact ⟨e, ⟨he, ht, hb⟩, t, htt, rfl⟩

theorem mem_boundTargets {I : Index} {e : EdgeRow} {t : ℕ} :
    t ∈ boundTargets json I e ↔
      importTargets json I (I.node e.source).fileId (.text (I.node e.target).name) = {t} ∧
        t ≠ e.source := by
  unfold boundTargets
  dsimp only
  split_ifs with hc
  · obtain ⟨u, hu⟩ := Finset.card_eq_one.mp hc
    rw [hu, Finset.mem_erase, Finset.mem_singleton, Finset.singleton_inj]
    constructor
    · rintro ⟨hne, rfl⟩
      exact ⟨rfl, hne⟩
    · rintro ⟨rfl, hne⟩
      exact ⟨hne, rfl⟩
  · refine ⟨fun h => absurd h (Finset.notMem_empty t), fun h => ?_⟩
    rw [h.1, Finset.card_singleton] at hc
    exact absurd rfl hc

theorem mem_importTargets {I : Index} {fid : ℕ} {nm : SqlVal} {t : ℕ} :
    t ∈ importTargets json I fid nm ↔ ∃ ie ∈ I.edges, ie.relation = .imports ∧
      (I.fileOf ie.target).path ≠ "<external>" ∧ get json ie.metadata .attr = none ∧
      (I.node ie.source).fileId = fid ∧ importName json I ie = nm ∧ ie.target = t := by
  simp only [importTargets, Finset.mem_image, Finset.mem_filter]
  constructor
  · rintro ⟨ie, ⟨h, h1, h2, h3, h4, h5⟩, h6⟩
    exact ⟨ie, h, h1, h2, h3, h4, h5, h6⟩
  · rintro ⟨ie, h, h1, h2, h3, h4, h5, h6⟩
    exact ⟨ie, ⟨h, h1, h2, h3, h4, h5⟩, h6⟩

/-- An imported target is a node. -/
theorem target_mem_of_importTargets {I : Index} {fid : ℕ} {nm : SqlVal} {t : ℕ}
    (h : t ∈ importTargets json I fid nm) : t ∈ I.nodes.map NodeRow.id := by
  obtain ⟨ie, hie, -, -, -, -, -, rfl⟩ := (mem_importTargets json).mp h
  exact I.edge_target ie hie

/-- `bind_calls_to_imported_targets`. -/
def bindCallsToImportedTargets (I : Index) (scope : PostPassScope) : Index :=
  I.insertEdges (bindRows json I scope)
    (by
      intro r hr
      obtain ⟨e, he, -, -, t, -, rfl⟩ := (mem_bindRows json).mp hr
      exact I.edge_source e he)
    (by
      intro r hr
      obtain ⟨e, -, -, -, t, ht, rfl⟩ := (mem_bindRows json).mp hr
      have h := (mem_boundTargets json).mp ht
      exact target_mem_of_importTargets json (h.1 ▸ Finset.mem_singleton_self t))
    (by
      intro r hr r' hr' hk
      obtain ⟨e, -, -, -, t, -, rfl⟩ := (mem_bindRows json).mp hr
      obtain ⟨e', -, -, -, t', -, rfl⟩ := (mem_bindRows json).mp hr'
      simp only [EdgeRow.key, EdgeRow.new, Prod.mk.injEq] at hk
      rw [hk.1, hk.2.1])

/-! ### Phase 2d-prune -/

/-- `PRUNE_PREDICATE`: a bare call into another file, whose caller's code (not truncated) has no
qualified call of the name, and whose file imports the name from elsewhere and not this target. -/
def Contradicted (I : Index) (e : EdgeRow) : Prop :=
  let sn := I.node e.source
  let tn := I.node e.target
  e.relation = .calls ∧ Bare json e.metadata ∧ tn.fileId ≠ sn.fileId ∧
    ¬ ('.' :: tn.name.toList ++ ['(']) <:+: sn.codeContent.toList ∧
    ¬ "...".toList <:+ sn.codeContent.toList ∧
    ImportsPlain json I sn.fileId
      (fun ie => importName json I ie = .text tn.name ∧ ie.target ≠ e.target) ∧
    ¬ ImportsPlain json I sn.fileId fun ie => ie.target = e.target

instance (I : Index) (e : EdgeRow) : Decidable (Contradicted json I e) :=
  inferInstanceAs (Decidable (_ ∧ _ ∧ _ ∧ _ ∧ _ ∧ _ ∧ _))

/-- `prune_import_contradicted_call_edges`. -/
def pruneImportContradictedCallEdges (I : Index) (scope : PostPassScope) : Index :=
  I.deleteEdges fun e => scope.Touches I e ∧ Contradicted json I e

/-! ### Phase 2d-attr -/

/-- The rows of `cg_attr_imports` for a caller's file and the metadata of a call: the definitions
that the file's synthetic imports of the call's module and attribute found. -/
def attrTargets (I : Index) (fid : ℕ) (metadata : Option String) : Finset ℕ :=
  (I.edges.filter fun ie => ie.relation = .imports ∧ MentionsAttr ie.metadata ∧
    (I.node ie.target).name ≠ "<module>" ∧ (I.node ie.source).fileId = fid ∧
    SqlEq (get json ie.metadata .pythonModule) (get json metadata .v) ∧
    SqlEq (get json ie.metadata .attr) (get json metadata .attr)).image EdgeRow.target

/-- `IS_ATTR_CALL`. -/
def IsAttrCall (e : EdgeRow) : Prop := e.relation = .calls ∧ MentionsAttr e.metadata

instance (e : EdgeRow) : Decidable (IsAttrCall e) := inferInstanceAs (Decidable (_ ∧ _))

/-- The targets of the caller's own module-attribute call. -/
def attrTargetsOf (I : Index) (e : EdgeRow) : Finset ℕ :=
  attrTargets json I (I.node e.source).fileId e.metadata

/-- The rows the bind of `bind_module_attr_calls` offers. -/
def attrRows (I : Index) (scope : PostPassScope) : Finset EdgeRow :=
  (I.edges.filter fun e => scope.Touches I e ∧ IsAttrCall e).biUnion fun e =>
    ((attrTargetsOf json I e).erase e.source).image fun t => .new e.source t .calls e.metadata

theorem mem_attrRows {I : Index} {scope : PostPassScope} {r : EdgeRow} :
    r ∈ attrRows json I scope ↔ ∃ e ∈ I.edges, scope.Touches I e ∧ IsAttrCall e ∧
      ∃ t ∈ attrTargetsOf json I e, t ≠ e.source ∧ r = .new e.source t .calls e.metadata := by
  simp only [attrRows, Finset.mem_biUnion, Finset.mem_filter, Finset.mem_image, Finset.mem_erase]
  constructor
  · rintro ⟨e, ⟨he, ht, ha⟩, t, ⟨hne, htt⟩, rfl⟩
    exact ⟨e, he, ht, ha, t, htt, hne, rfl⟩
  · rintro ⟨e, he, ht, ha, t, htt, hne, rfl⟩
    exact ⟨e, ⟨he, ht, ha⟩, t, ⟨hne, htt⟩, rfl⟩

theorem target_mem_of_attrTargets {I : Index} {fid : ℕ} {m : Option String} {t : ℕ}
    (h : t ∈ attrTargets json I fid m) : t ∈ I.nodes.map NodeRow.id := by
  obtain ⟨ie, hie, rfl⟩ := Finset.mem_image.mp h
  exact I.edge_target ie (Finset.mem_of_mem_filter ie hie)

/-- The `INSERT` of `bind_module_attr_calls`. -/
def bindAttr (I : Index) (scope : PostPassScope) : Index :=
  I.insertEdges (attrRows json I scope)
    (by
      intro r hr
      obtain ⟨e, he, -, -, t, -, -, rfl⟩ := (mem_attrRows json).mp hr
      exact I.edge_source e he)
    (by
      intro r hr
      obtain ⟨e, -, -, -, t, ht, -, rfl⟩ := (mem_attrRows json).mp hr
      exact target_mem_of_attrTargets json ht)
    (by
      intro r hr r' hr' hk
      obtain ⟨e, -, -, ha, t, -, -, rfl⟩ := (mem_attrRows json).mp hr
      obtain ⟨e', -, -, ha', t', -, -, rfl⟩ := (mem_attrRows json).mp hr'
      obtain ⟨m, hm, -⟩ := ha.2
      obtain ⟨m', hm', -⟩ := ha'.2
      rw [Option.mem_def] at hm hm'
      simp only [EdgeRow.key, EdgeRow.new, Prod.mk.injEq, hm, hm', Option.getD_some] at hk ⊢
      rw [hk.1, hk.2.1, hk.2.2.2])

/-- The `DELETE` of `bind_module_attr_calls`: an edge of a module-attribute call whose import found
other definitions. The temp table was built before the `INSERT`, from the imports of `I₀`. -/
def Misbound (I₀ : Index) (e : EdgeRow) : Prop :=
  IsAttrCall e ∧ (attrTargetsOf json I₀ e).Nonempty ∧ e.target ∉ attrTargetsOf json I₀ e

instance (I : Index) (e : EdgeRow) : Decidable (Misbound json I e) :=
  inferInstanceAs (Decidable (_ ∧ _ ∧ _))

/-- `bind_module_attr_calls`. -/
def bindModuleAttrCalls (I : Index) (scope : PostPassScope) : Index :=
  (bindAttr json I scope).deleteEdges fun e => scope.Touches I e ∧ Misbound json I e

/-! ### Phase 2e -/

/-- `domain::PY_BUILTIN_VALUE_METHODS`. -/
def pyBuiltinValueMethods : List String :=
  ["capitalize", "casefold", "center", "encode", "endswith", "expandtabs", "find", "format_map",
    "isalnum", "isalpha", "isascii", "isdecimal", "isdigit", "isidentifier", "islower",
    "isnumeric", "isprintable", "isspace", "istitle", "isupper", "ljust", "lower", "lstrip",
    "maketrans", "partition", "removeprefix", "removesuffix", "rfind", "rindex", "rjust",
    "rpartition", "rsplit", "rstrip", "splitlines", "startswith", "strip", "swapcase", "title",
    "translate", "upper", "zfill", "difference", "difference_update", "intersection",
    "intersection_update", "isdisjoint", "issubset", "issuperset", "symmetric_difference",
    "symmetric_difference_update", "union", "as_posix", "as_uri", "chmod", "exists", "expanduser",
    "glob", "is_absolute", "is_dir", "is_file", "is_mount", "is_symlink", "iterdir", "joinpath",
    "lstat", "mkdir", "read_bytes", "read_text", "readlink", "relative_to", "rglob", "rmdir",
    "samefile", "symlink_to", "touch", "unlink", "with_name", "with_stem", "with_suffix",
    "write_bytes", "write_text", "search", "fullmatch", "findall", "finditer", "sub", "subn",
    "groupdict", "astimezone", "isoformat", "strftime", "timestamp", "weekday", "isoweekday"]

/-- `cg_namecount`: how many nodes of the language have the name. -/
def nameCount (I : Index) (nm : String) (lang : Option String) : ℕ :=
  I.nodes.countP fun n => n.name = nm ∧ (I.file n.fileId).language = lang

/-- `TS_TYPE_CALL`: a call bound to a TypeScript `interface` or `type` alias. -/
def TsTypeCall (I : Index) (e : EdgeRow) : Prop :=
  e.relation = .calls ∧ (I.node e.target).type ∈ ["interface", "type"] ∧
    (I.fileOf e.target).language ∈ [some "typescript", some "tsx"]

instance (I : Index) (e : EdgeRow) : Decidable (TsTypeCall I e) :=
  inferInstanceAs (Decidable (_ ∧ _ ∧ _))

/-- `py_builtin_call`: a Python call on an untyped receiver of a name built-in values have. -/
def PyBuiltinCall (I : Index) (e : EdgeRow) : Prop :=
  e.relation = .calls ∧ (I.fileOf e.target).language = some "python" ∧
    (get json e.metadata .q = some (.text "member") ∨ (get json e.metadata .ur).isSome) ∧
    (I.node e.target).name ∈ pyBuiltinValueMethods

instance (I : Index) (e : EdgeRow) : Decidable (PyBuiltinCall json I e) :=
  inferInstanceAs (Decidable (_ ∧ _ ∧ _ ∧ _))

/-- The caller's file imports this exact target; a synthetic import vouches only for its own call. -/
def ImportVouches (I : Index) (e : EdgeRow) : Prop :=
  ∃ ie ∈ I.edges, ie.relation = .imports ∧
    (I.node ie.source).fileId = (I.node e.source).fileId ∧ ie.target = e.target ∧
    (get json ie.metadata .attr = none ∨
      SqlEq (get json ie.metadata .attr) (get json e.metadata .attr) ∧
      SqlEq (get json ie.metadata .pythonModule) (get json e.metadata .v))

instance (I : Index) (e : EdgeRow) : Decidable (ImportVouches json I e) :=
  inferInstanceAs (Decidable (∃ ie ∈ I.edges, _))

/-- The qualifier the edge was resolved by does not settle its target. -/
def ByName (e : EdgeRow) : Prop :=
  get json e.metadata .q = none ∨
    get json e.metadata .q ∉
      ["self", "stype", "rtype", "super", "path", "imp"].map (fun t => some (SqlVal.text t)) ∨
    (get json e.metadata .amb).isSome

instance (e : EdgeRow) : Decidable (ByName json e) := inferInstanceAs (Decidable (_ ∨ _ ∨ _))

/-- `conf_case`. -/
def confCase (I : Index) (e : EdgeRow) : Confidence :=
  if TsTypeCall I e then .ambiguous
  else if PyBuiltinCall json I e then .ambiguous
  else if 1 < nameCount I (I.node e.target).name (I.fileOf e.target).language ∧
      ¬ ImportVouches json I e ∧ ByName json e then .ambiguous
  else .inferred

/-- `conf_where`: the edges resolved by name. -/
def ConfWhere (I : Index) (e : EdgeRow) : Prop :=
  (e.relation = .calls ∨ e.relation = .references) ∧
    ((I.node e.source).fileId ≠ (I.node e.target).fileId ∨
      (I.fileOf e.target).language = some "rust" ∧
        get json e.metadata .q ∈ [some (.text "member"), some (.text "chain")] ∧
        (get json e.metadata .rt = none ∨ (get json e.metadata .amb).isSome) ∨
      (I.fileOf e.target).language = some "python" ∧ (get json e.metadata .ur).isSome ∨
      TsTypeCall I e)

instance (I : Index) (e : EdgeRow) : Decidable (ConfWhere json I e) :=
  inferInstanceAs (Decidable (_ ∧ _))

/-- The arms of the driver: the caller moved, the callee moved, or the callee's name changed how many
nodes share it. -/
def PostPassScope.Reconsiders (I : Index) : PostPassScope → EdgeRow → Prop
  | .global, _ => True
  | .files fids names, e => (I.node e.source).fileId ∈ fids ∨ (I.node e.target).fileId ∈ fids ∨
      (I.node e.target).name ∈ names

instance (I : Index) (scope : PostPassScope) (e : EdgeRow) : Decidable (scope.Reconsiders I e) :=
  match scope with
  | .global => isTrue trivial
  | .files fids names => inferInstanceAs (Decidable ((I.node e.source).fileId ∈ fids ∨
      (I.node e.target).fileId ∈ fids ∨ (I.node e.target).name ∈ names))

/-- `classify_edge_confidence`. -/
def classifyEdgeConfidence (I : Index) (scope : PostPassScope) : Index :=
  I.relabelEdges fun e =>
    if scope.Reconsiders I e ∧ ConfWhere json I e then some (confCase json I e) else none

/-! ### The names whose count moved -/

/-- A row of `cg_namecount_before` or `cg_namecount_after`: the count within `cg_scope_paths`. -/
def scopeNameCount (I : Index) (paths : Finset String) (nm : String) (lang : Option String) : ℕ :=
  I.nodes.countP fun n => n.name = nm ∧ (I.file n.fileId).language = lang ∧
    (I.file n.fileId).path ∈ paths

/-- The groups `snapshot_scope_name_counts` has a row for. -/
def scopeGroups (I : Index) (paths : Finset String) : Finset (String × Option String) :=
  ((I.nodes.filter fun n => (I.file n.fileId).path ∈ paths).map fun n =>
    (n.name, (I.file n.fileId).language)).toFinset

/-- `scope_names_from_count_drift`, of the snapshot of `before` and the counts of `after`. A group
that one side lacks has no count there, which differs from any count it has on the other. -/
def scopeNamesFromCountDrift (before after : Index) (paths : Finset String) : Finset String :=
  ((scopeGroups before paths ∪ scopeGroups after paths).filter fun g =>
    scopeNameCount before paths g.1 g.2 ≠ scopeNameCount after paths g.1 g.2).image Prod.fst

/-- `run_global_edge_post_passes`. -/
def runGlobalEdgePostPasses (I : Index) (scope : PostPassScope) : Index :=
  let I := bindCallsToImportedTargets json I scope
  let I := pruneImportContradictedCallEdges json I scope
  let I := bindModuleAttrCalls json I scope
  classifyEdgeConfidence json I scope

end CodeGraph.Pipeline.Resolve
