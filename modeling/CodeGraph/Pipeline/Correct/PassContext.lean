import CodeGraph.Pipeline.Resolve

/-!
# What the post-passes do not write

A pass adds, removes or relabels `calls` and `references` edges only. Everything else it reads, the
nodes, the files and the `imports` edges, is the same before and after it: `SameContext`. Every
predicate of the passes is a function of that context and of the edge it is asked about, so it has the
same answer in all states of a run of passes, and the effect of a run on the edges can be computed as
if all passes asked the first state.

The second half says which columns of the edge a predicate reads. The bind and the prune see the key
only (`bindable_of_key`, `contradicted_of_key`): NULL and empty metadata are one key and one answer.
-/

namespace CodeGraph.Pipeline.Resolve

open CodeGraph.Lib CodeGraph.Storage

variable {json : Json} {I J K : Index} {scope : PostPassScope} {e f : EdgeRow}

/-- `J` has the nodes, files and imports of `I`. -/
structure SameContext (I J : Index) : Prop where
  files : J.files = I.files
  nodes : J.nodes = I.nodes
  imports : ∀ e, e.relation = .imports → (e ∈ J.edges ↔ e ∈ I.edges)

theorem SameContext.trans (h : SameContext I J) (h' : SameContext J K) : SameContext I K :=
  ⟨h'.files.trans h.files, h'.nodes.trans h.nodes,
    fun e he => (h'.imports e he).trans (h.imports e he)⟩

/-- Two indexes of one context are the same once their edges are. -/
theorem SameContext.eq_of_edges (h : SameContext I J) (he : J.edges = I.edges) : J = I := by
  obtain ⟨hf, hn, -⟩ := h
  cases I
  cases J
  simp only at hf hn he
  subst hf hn he
  rfl

namespace SameContext

variable (h : SameContext I J)

include h

theorem node : J.node = I.node := by
  funext x
  unfold Index.node
  rw [h.nodes]

theorem file : J.file = I.file := by
  funext x
  unfold Index.file
  rw [h.files]

theorem fileOf : J.fileOf = I.fileOf := by
  funext x
  unfold Index.fileOf
  rw [h.node, h.file]

theorem importName : importName json J e = importName json I e := by
  unfold Resolve.importName
  rw [h.node]

theorem touches : scope.Touches J e ↔ scope.Touches I e := by
  cases scope with
  | global => exact Iff.rfl
  | files fids names =>
    unfold PostPassScope.Touches
    rw [h.node]

/-- A filter on the imports keeps the same rows. -/
theorem filter_imports {p q : EdgeRow → Prop} [DecidablePred p] [DecidablePred q]
    (hp : ∀ e, p e → e.relation = .imports) (hpq : ∀ e, q e ↔ p e) :
    J.edges.filter q = I.edges.filter p := by
  ext ie
  rw [Finset.mem_filter, Finset.mem_filter, hpq]
  constructor
  · rintro ⟨hm, hie⟩
    exact ⟨(h.imports ie (hp ie hie)).mp hm, hie⟩
  · rintro ⟨hm, hie⟩
    exact ⟨(h.imports ie (hp ie hie)).mpr hm, hie⟩

/-- An import that satisfies a predicate is there in both. -/
theorem exists_import {p q : EdgeRow → Prop} (hpq : ∀ e, q e ↔ p e) :
    (∃ ie ∈ J.edges, ie.relation = .imports ∧ q ie) ↔
      ∃ ie ∈ I.edges, ie.relation = .imports ∧ p ie := by
  constructor
  · rintro ⟨ie, hm, hr, hq⟩
    exact ⟨ie, (h.imports ie hr).mp hm, hr, (hpq ie).mp hq⟩
  · rintro ⟨ie, hm, hr, hp⟩
    exact ⟨ie, (h.imports ie hr).mpr hm, hr, (hpq ie).mpr hp⟩

theorem importTargets : importTargets json J = importTargets json I := by
  funext fid nm
  unfold Resolve.importTargets
  refine congrArg (Finset.image EdgeRow.target) (h.filter_imports (fun e he => he.1) fun e => ?_)
  rw [h.fileOf, h.node, h.importName]

theorem importsPlain {fid : ℕ} {p q : EdgeRow → Prop} (hpq : ∀ e, q e ↔ p e) :
    ImportsPlain json J fid q ↔ ImportsPlain json I fid p := by
  refine h.exists_import fun e => ?_
  rw [h.node, hpq]

theorem bindable : Bindable json J e ↔ Bindable json I e := by
  unfold Bindable
  rw [h.nodes, h.node]

theorem boundTargets : boundTargets json J e = boundTargets json I e := by
  unfold Resolve.boundTargets
  rw [h.importTargets, h.node]

theorem contradicted : Contradicted json J e ↔ Contradicted json I e := by
  unfold Contradicted
  dsimp only
  rw [h.importsPlain (p := fun ie => Resolve.importName json I ie = .text (I.node e.target).name ∧
      ie.target ≠ e.target) (fun ie => by rw [h.importName, h.node]),
    h.importsPlain (p := fun ie => ie.target = e.target) (fun _ => Iff.rfl), h.node]

theorem attrTargetsOf : attrTargetsOf json J e = attrTargetsOf json I e := by
  unfold Resolve.attrTargetsOf attrTargets
  refine congrArg (Finset.image EdgeRow.target) (h.filter_imports (fun e he => he.1) fun e => ?_)
  rw [h.node]

theorem misbound : Misbound json J e ↔ Misbound json I e := by
  unfold Misbound
  rw [h.attrTargetsOf]

theorem confWhere : ConfWhere json J e ↔ ConfWhere json I e := by
  unfold ConfWhere TsTypeCall
  rw [h.node, h.fileOf]

theorem confCase : confCase json J e = confCase json I e := by
  have hvouch : ImportVouches json J e ↔ ImportVouches json I e := by
    refine h.exists_import fun ie => ?_
    rw [h.node]
  have hts : TsTypeCall J e ↔ TsTypeCall I e := by
    unfold TsTypeCall
    rw [h.node, h.fileOf]
  have hpy : PyBuiltinCall json J e ↔ PyBuiltinCall json I e := by
    unfold PyBuiltinCall
    rw [h.node, h.fileOf]
  have hcount : nameCount J = nameCount I := by
    funext nm lang
    unfold nameCount
    rw [h.nodes, h.file]
  simp only [Resolve.confCase, hts, hpy, hvouch, hcount, h.node, h.fileOf]

end SameContext

/-! ### The passes keep the context -/

theorem sameContext_bind (I : Index) (scope : PostPassScope) :
    SameContext I (bindCallsToImportedTargets json I scope) := by
  refine ⟨rfl, rfl, fun e he => ?_⟩
  refine mem_insertOrIgnore.trans ⟨?_, .inl⟩
  rintro (hm | ⟨hr, -⟩)
  · exact hm
  · obtain ⟨_, -, -, -, _, -, rfl⟩ := (mem_bindRows json).mp hr
    exact absurd he (by simp [EdgeRow.new])

theorem sameContext_prune (I : Index) (scope : PostPassScope) :
    SameContext I (pruneImportContradictedCallEdges json I scope) := by
  refine ⟨rfl, rfl, fun e he => ?_⟩
  refine Finset.mem_filter.trans ⟨And.left, fun hm => ⟨hm, fun hc => ?_⟩⟩
  rw [hc.2.1] at he
  cases he

theorem sameContext_attr (I : Index) (scope : PostPassScope) :
    SameContext I (bindModuleAttrCalls json I scope) := by
  refine ⟨rfl, rfl, fun e he => ?_⟩
  refine Finset.mem_filter.trans ⟨?_, fun hm => ⟨mem_insertOrIgnore.mpr (.inl hm), fun hc => ?_⟩⟩
  · rintro ⟨hm, -⟩
    rcases mem_insertOrIgnore.mp hm with hm | ⟨hr, -⟩
    · exact hm
    · obtain ⟨_, -, -, -, _, -, -, rfl⟩ := (mem_attrRows json).mp hr
      exact absurd he (by simp [EdgeRow.new])
  · rw [hc.2.1.1] at he
    cases he

/-- The label an edge carries once the global pass is through. -/
def relabel (json : Json) (I : Index) (e : EdgeRow) : EdgeRow :=
  if ConfWhere json I e then { e with confidence := confCase json I e } else e

theorem mem_classify_global :
    e ∈ (classifyEdgeConfidence json I .global).edges ↔ ∃ f ∈ I.edges, relabel json I f = e := by
  have hrow : ∀ f : EdgeRow, ({ f with confidence := (if PostPassScope.global.Reconsiders I f ∧
      ConfWhere json I f then some (confCase json I f) else none).getD f.confidence } : EdgeRow) =
      relabel json I f := by
    intro f
    unfold relabel
    by_cases hw : ConfWhere json I f
    · rw [if_pos hw, if_pos ⟨trivial, hw⟩, Option.getD_some]
    · rw [if_neg hw, if_neg (fun h => hw h.2), Option.getD_none]
  refine Finset.mem_image.trans ⟨?_, ?_⟩
  · rintro ⟨f, hf, rfl⟩
    exact ⟨f, hf, (hrow f).symm⟩
  · rintro ⟨f, hf, rfl⟩
    exact ⟨f, hf, hrow f⟩

theorem sameContext_classify (I : Index) :
    SameContext I (classifyEdgeConfidence json I .global) := by
  refine ⟨rfl, rfl, fun e he => mem_classify_global.trans ⟨?_, fun hm => ⟨e, hm, ?_⟩⟩⟩
  · rintro ⟨f, hf, hfe⟩
    unfold relabel at hfe
    split_ifs at hfe with hw
    · -- The pass labels no import.
      rw [← hfe] at he
      rcases hw.1 with hr | hr
      · exact absurd (hr.symm.trans he) (by simp)
      · exact absurd (hr.symm.trans he) (by simp)
    · exact hfe ▸ hf
  · have hw : ¬ ConfWhere json I e := by
      rintro ⟨hr | hr, -⟩
      · exact absurd (hr.symm.trans he) (by simp)
      · exact absurd (hr.symm.trans he) (by simp)
    rw [relabel, if_neg hw]

/-! ### What a predicate reads of its edge -/

theorem source_eq_of_key (hk : e.key = f.key) : e.source = f.source := congrArg Prod.fst hk

theorem target_eq_of_key (hk : e.key = f.key) : e.target = f.target :=
  congrArg (fun k => k.2.1) hk

theorem relation_eq_of_key (hk : e.key = f.key) : e.relation = f.relation :=
  congrArg (fun k => k.2.2.1) hk

theorem getD_metadata_eq_of_key (hk : e.key = f.key) : e.metadata.getD "" = f.metadata.getD "" :=
  congrArg (fun k => k.2.2.2) hk

/-- Metadata with a text in it is read off the key. -/
theorem metadata_eq_of_key {m : String} (hm : e.metadata = some m) (hne : m ≠ "")
    (hk : e.key = f.key) : f.metadata = some m := by
  have h := getD_metadata_eq_of_key hk
  rw [hm, Option.getD_some] at h
  cases hf : f.metadata with
  | none =>
    rw [hf, Option.getD_none] at h
    exact absurd h hne
  | some m' =>
    rw [hf, Option.getD_some] at h
    rw [h]

theorem bare_of_getD_eq_empty {m : Option String} (h : m.getD "" = "") : Bare json m := by
  cases m with
  | none => exact .inl rfl
  | some t =>
    rw [Option.getD_some] at h
    rw [h]
    exact .inr (.inl rfl)

theorem bare_of_key (hk : e.key = f.key) (h : Bare json e.metadata) : Bare json f.metadata := by
  by_cases hempty : e.metadata.getD "" = ""
  · rw [getD_metadata_eq_of_key hk] at hempty
    exact bare_of_getD_eq_empty hempty
  · cases hem : e.metadata with
    | none =>
      rw [hem] at hempty
      exact absurd rfl hempty
    | some m =>
      rw [hem, Option.getD_some] at hempty
      rw [metadata_eq_of_key hem hempty hk, ← hem]
      exact h

theorem bindable_of_key (hk : e.key = f.key) (h : Bindable json I e) : Bindable json I f := by
  obtain ⟨hr, hb, hs⟩ := h
  refine ⟨(relation_eq_of_key hk).symm.trans hr, bare_of_key hk hb, ?_⟩
  rw [← source_eq_of_key hk, ← target_eq_of_key hk]
  exact hs

theorem boundTargets_of_key (hk : e.key = f.key) : boundTargets json I e = boundTargets json I f := by
  unfold boundTargets
  rw [source_eq_of_key hk, target_eq_of_key hk]

theorem contradicted_of_key (hk : e.key = f.key) (h : Contradicted json I e) :
    Contradicted json I f := by
  unfold Contradicted at h ⊢
  dsimp only at h ⊢
  rw [source_eq_of_key hk, target_eq_of_key hk] at h
  exact ⟨(relation_eq_of_key hk).symm.trans h.1, bare_of_key hk h.2.1, h.2.2⟩

/-- The metadata of a module-attribute call is no empty text. -/
theorem IsAttrCall.exists_metadata (h : IsAttrCall e) : ∃ m, e.metadata = some m ∧ m ≠ "" := by
  obtain ⟨-, m, hm, hin⟩ := h
  refine ⟨m, hm, ?_⟩
  rintro rfl
  exact absurd hin (by decide)

theorem IsAttrCall.metadata_eq_of_key (h : IsAttrCall e) (hk : e.key = f.key) :
    f.metadata = e.metadata := by
  obtain ⟨m, hm, hne⟩ := h.exists_metadata
  rw [Resolve.metadata_eq_of_key hm hne hk, hm]

theorem isAttrCall_of_key (hk : e.key = f.key) (h : IsAttrCall e) : IsAttrCall f :=
  ⟨(relation_eq_of_key hk).symm.trans h.1, (h.metadata_eq_of_key hk) ▸ h.2⟩

theorem attrTargetsOf_of_key (h : IsAttrCall e) (hk : e.key = f.key) :
    attrTargetsOf json I f = attrTargetsOf json I e := by
  unfold attrTargetsOf
  rw [h.metadata_eq_of_key hk, source_eq_of_key hk]

@[simp] theorem key_relabel : (relabel json I e).key = e.key := by
  unfold relabel
  split_ifs <;> rfl

/-- A contradicted call crosses files, so the labels cover it. -/
theorem confWhere_of_contradicted (h : Contradicted json I e) : ConfWhere json I e :=
  ⟨.inl h.1, .inl (Ne.symm h.2.2.1)⟩

/-- A label reads everything of an edge but its label. -/
theorem relabel_eq_of_metadata (hk : e.key = f.key) (hm : e.metadata = f.metadata)
    (hw : ConfWhere json I e) : relabel json I e = relabel json I f := by
  have hrest : ({ f with confidence := e.confidence } : EdgeRow) = e := by
    cases e
    cases f
    simp only [EdgeRow.mk.injEq]
    exact ⟨(source_eq_of_key hk).symm, (target_eq_of_key hk).symm, (relation_eq_of_key hk).symm,
      hm.symm, trivial⟩
  have hw' : ConfWhere json I f := by
    rw [← hrest] at hw
    exact hw
  have hc : confCase json I f = confCase json I e := by
    rw [← hrest]
    rfl
  rw [relabel, relabel, if_pos hw, if_pos hw', hc, ← hrest]

end CodeGraph.Pipeline.Resolve
