import CodeGraph.Pipeline.Correct.PassContext

/-!
# When the post-passes are a closure

`runGlobalEdgePostPasses` is called again after every run, so its result should be a fixed point. It
need not be: an edge that the bind inserts is itself a bare call, by the name of its *target*, and a
renamed import lets that name be imported too. The second run then binds it further.

`BindOffers` and `AttrOffers` are the edges the two inserting passes offer, over the context of the
first state (`SameContext`). `mem_settled` computes a whole run from them. Then

* the bare calls of the result are those of the input and the bound ones (`hasBareCall_of_settled`,
  `exists_settled_of_hasBareCall`), since no pass removes an edge to an imported node;
* the module-attribute calls are closed under their own rule (`exists_settled_of_attrOffers`);

and `runGlobalEdgePostPasses_idempotent_iff` says exactly which inputs the passes settle in one run:
those where the inserted edges ask for no further one (`ChainClosed`), and where no module-attribute
call marked `ur` loses all its edges to the prune and so is not bound again (`AttrKept`).
-/

namespace CodeGraph.Pipeline.Resolve

open CodeGraph.Lib CodeGraph.Storage

variable {json : Json} {X J : Index} {e f r : EdgeRow} {E : Finset EdgeRow}

/-! ### A whole run, over one context -/

/-- The bind offers `r` when the calls are `E`. -/
def BindOffers (json : Json) (X : Index) (E : Finset EdgeRow) (r : EdgeRow) : Prop :=
  ∃ e ∈ E, Bindable json X e ∧ ∃ t ∈ boundTargets json X e, r = .new e.source t .calls none

/-- The module-attribute bind offers `r` when the calls, before the prune, are `E`. -/
def AttrOffers (json : Json) (X : Index) (E : Finset EdgeRow) (r : EdgeRow) : Prop :=
  ∃ e ∈ E, ¬ Contradicted json X e ∧ IsAttrCall e ∧
    ∃ t ∈ attrTargetsOf json X e, t ≠ e.source ∧ r = .new e.source t .calls e.metadata

/-- The state after bind and prune. -/
def pruned (json : Json) (J : Index) : Index :=
  pruneImportContradictedCallEdges json (bindCallsToImportedTargets json J .global) .global

/-- The state before the labels. -/
def settled (json : Json) (J : Index) : Index :=
  bindModuleAttrCalls json (pruned json J) .global

theorem runGlobalEdgePostPasses_global (J : Index) :
    runGlobalEdgePostPasses json J .global = classifyEdgeConfidence json (settled json J) .global :=
  rfl

theorem sameContext_pruned (J : Index) : SameContext J (pruned json J) :=
  (sameContext_bind J .global).trans (sameContext_prune _ .global)

theorem sameContext_settled (J : Index) : SameContext J (settled json J) :=
  (sameContext_pruned J).trans (sameContext_attr _ .global)

theorem mem_pruned (h : SameContext X J) :
    e ∈ (pruned json J).edges ↔
      (e ∈ J.edges ∨ BindOffers json X J.edges e ∧ ∀ f ∈ J.edges, f.key ≠ e.key) ∧
        ¬ Contradicted json X e := by
  have hB : SameContext X (bindCallsToImportedTargets json J .global) :=
    h.trans (sameContext_bind J .global)
  have hoffer : e ∈ bindRows json J .global ↔ BindOffers json X J.edges e := by
    rw [mem_bindRows]
    constructor
    · rintro ⟨e', he, -, hb, t, ht, rfl⟩
      exact ⟨e', he, h.bindable.mp hb, t, h.boundTargets ▸ ht, rfl⟩
    · rintro ⟨e', he, hb, t, ht, rfl⟩
      exact ⟨e', he, trivial, h.bindable.mpr hb, t, h.boundTargets ▸ ht, rfl⟩
  have hmem : e ∈ (bindCallsToImportedTargets json J .global).edges ↔
      e ∈ J.edges ∨ BindOffers json X J.edges e ∧ ∀ f ∈ J.edges, f.key ≠ e.key := by
    rw [← hoffer]
    exact mem_insertOrIgnore
  refine Finset.mem_filter.trans ?_
  rw [hmem]
  exact and_congr_right fun _ => not_congr
    ⟨fun hc => hB.contradicted.mp hc.2, fun hc => ⟨trivial, hB.contradicted.mpr hc⟩⟩

/-- A bound row's metadata is NULL, so an edge with a text in it is no bound row. -/
theorem mem_of_mem_pruned {m : String} (h : SameContext X J) (hm : e.metadata = some m)
    (he : e ∈ (pruned json J).edges) : e ∈ J.edges := by
  rcases ((mem_pruned h).mp he).1 with he | ⟨⟨_, -, -, _, -, rfl⟩, -⟩
  · exact he
  · exact absurd hm (by simp [EdgeRow.new])

theorem mem_attrRows_pruned (h : SameContext X J) :
    r ∈ attrRows json (pruned json J) .global ↔ AttrOffers json X J.edges r := by
  have hP : SameContext X (pruned json J) := h.trans (sameContext_pruned J)
  rw [mem_attrRows]
  constructor
  · rintro ⟨e, he, -, ha, t, ht, hne, rfl⟩
    obtain ⟨m, hm, -⟩ := ha.exists_metadata
    exact ⟨e, mem_of_mem_pruned h hm he, ((mem_pruned h).mp he).2, ha, t, hP.attrTargetsOf ▸ ht, hne,
      rfl⟩
  · rintro ⟨e, he, hc, ha, t, ht, hne, rfl⟩
    exact ⟨e, (mem_pruned h).mpr ⟨.inl he, hc⟩, trivial, ha, t, hP.attrTargetsOf ▸ ht, hne, rfl⟩

theorem mem_settled (h : SameContext X J) :
    e ∈ (settled json J).edges ↔
      (e ∈ (pruned json J).edges ∨
        AttrOffers json X J.edges e ∧ ∀ f ∈ (pruned json J).edges, f.key ≠ e.key) ∧
        ¬ Misbound json X e := by
  have hP : SameContext X (pruned json J) := h.trans (sameContext_pruned J)
  have hmem : e ∈ (bindAttr json (pruned json J) .global).edges ↔
      e ∈ (pruned json J).edges ∨
        AttrOffers json X J.edges e ∧ ∀ f ∈ (pruned json J).edges, f.key ≠ e.key := by
    rw [← mem_attrRows_pruned h]
    exact mem_insertOrIgnore
  refine Finset.mem_filter.trans ?_
  rw [hmem]
  exact and_congr_right fun _ => not_congr
    ⟨fun hc => hP.misbound.mp hc.2, fun hc => ⟨trivial, hP.misbound.mpr hc⟩⟩

/-! ### Bare calls of the result -/

/-- The edges `E` hold a bare call from `s` to `u`, or the bind offers it. -/
def HasBareCall (json : Json) (X : Index) (E : Finset EdgeRow) (s u : ℕ) : Prop :=
  (∃ f ∈ E, f.key = (EdgeRow.new s u .calls none).key) ∨
    BindOffers json X E (.new s u .calls none)

/-- A node that the caller's file imports is not contradicted as a callee. -/
theorem not_contradicted_of_importTargets {nm : SqlVal}
    (h : e.target ∈ importTargets json X (X.node e.source).fileId nm) :
    ¬ Contradicted json X e := by
  rintro ⟨-, -, -, -, -, -, hno⟩
  obtain ⟨ie, hie, hr, -, ha, hf, -, ht⟩ := (mem_importTargets json).mp h
  exact hno ⟨ie, hie, hr, hf, ha, ht⟩

theorem mem_importTargets_of_boundTargets {u : ℕ} (hu : u ∈ boundTargets json X e) :
    u ∈ importTargets json X (X.node e.source).fileId (.text (X.node e.target).name) := by
  rw [((mem_boundTargets json).mp hu).1]
  exact Finset.mem_singleton_self u

theorem not_isAttrCall_of_none {s t : ℕ} {rel : Relation} : ¬ IsAttrCall (.new s t rel none) := by
  rintro ⟨-, m, hm, -⟩
  exact absurd hm (by simp [EdgeRow.new])

theorem hasBareCall_of_settled (h : SameContext X J) {s u : ℕ} (he : e ∈ (settled json J).edges)
    (hk : e.key = (EdgeRow.new s u .calls none).key) : HasBareCall json X J.edges s u := by
  rcases ((mem_settled h).mp he).1 with hp | ⟨⟨e', -, -, ha, t, -, -, rfl⟩, -⟩
  · rcases ((mem_pruned h).mp hp).1 with hj | ⟨hb, -⟩
    · exact .inl ⟨e, hj, hk⟩
    · right
      obtain ⟨e', he', hbind, t, ht, rfl⟩ := hb
      have hs : e'.source = s := source_eq_of_key hk
      have ht' : t = u := target_eq_of_key hk
      exact ⟨e', he', hbind, t, ht, by rw [hs, ht']⟩
  · -- An attribute call's metadata is a text, and the key of a bare call has none.
    have hnew : IsAttrCall (.new e'.source t .calls e'.metadata) := ⟨rfl, ha.2⟩
    exact absurd (isAttrCall_of_key hk hnew) not_isAttrCall_of_none

/-- No pass removes a bare call to a node the caller's file imports. -/
theorem exists_settled_of_hasBareCall (h : SameContext X J) {s u : ℕ} {nm : SqlVal}
    (hu : u ∈ importTargets json X (X.node s).fileId nm) (hb : HasBareCall json X J.edges s u) :
    ∃ e ∈ (settled json J).edges, e.key = (EdgeRow.new s u .calls none).key := by
  have hkept : ∀ e : EdgeRow, e.key = (EdgeRow.new s u .calls none).key →
      ¬ Contradicted json X e ∧ ¬ Misbound json X e := by
    intro e hk
    constructor
    · apply not_contradicted_of_importTargets
      rw [source_eq_of_key hk, target_eq_of_key hk]
      exact hu
    · exact fun hm => not_isAttrCall_of_none (isAttrCall_of_key hk hm.1)
  have hin : ∀ e ∈ (pruned json J).edges, e.key = (EdgeRow.new s u .calls none).key →
      e ∈ (settled json J).edges := fun e he hk => (mem_settled h).mpr ⟨.inl he, (hkept e hk).2⟩
  by_cases hex : ∃ f ∈ J.edges, f.key = (EdgeRow.new s u .calls none).key
  · obtain ⟨f, hf, hk⟩ := hex
    exact ⟨f, hin f ((mem_pruned h).mpr ⟨.inl hf, (hkept f hk).1⟩) hk, hk⟩
  · have hoff := hb.resolve_left hex
    push Not at hex
    refine ⟨_, hin _ ((mem_pruned h).mpr ⟨.inr ⟨hoff, hex⟩, (hkept _ rfl).1⟩) rfl, rfl⟩

/-! ### Module-attribute calls of the result -/

theorem exists_settled_of_attrOffers (h : SameContext X J) (hr : AttrOffers json X J.edges r) :
    ∃ e ∈ (settled json J).edges, e.key = r.key := by
  obtain ⟨e, he, hc, ha, t, ht, hne, rfl⟩ := hr
  have hnew : IsAttrCall (.new e.source t .calls e.metadata) := ⟨rfl, ha.2⟩
  have htargets : attrTargetsOf json X (.new e.source t .calls e.metadata) =
      attrTargetsOf json X e := rfl
  have hkept : ∀ g : EdgeRow, g.key = (EdgeRow.new e.source t .calls e.metadata).key →
      ¬ Misbound json X g := by
    rintro g hk ⟨-, -, hnot⟩
    rw [attrTargetsOf_of_key hnew hk.symm, htargets, target_eq_of_key hk] at hnot
    exact hnot ht
  by_cases hex : ∃ f ∈ (pruned json J).edges,
      f.key = (EdgeRow.new e.source t .calls e.metadata).key
  · obtain ⟨f, hf, hk⟩ := hex
    exact ⟨f, (mem_settled h).mpr ⟨.inl hf, hkept f hk⟩, hk⟩
  · push Not at hex
    exact ⟨_, (mem_settled h).mpr ⟨.inr ⟨⟨e, he, hc, ha, t, ht, hne, rfl⟩, hex⟩, hkept _ rfl⟩, rfl⟩

/-- A module-attribute call of the result stems from one of the input that the prune kept. -/
theorem exists_origin_of_settled (h : SameContext X J) (ha : IsAttrCall e)
    (he : e ∈ (settled json J).edges) :
    ∃ e₀ ∈ J.edges, ¬ Contradicted json X e₀ ∧ IsAttrCall e₀ ∧ e₀.source = e.source ∧
      e₀.metadata = e.metadata := by
  obtain ⟨m, hm, -⟩ := ha.exists_metadata
  rcases ((mem_settled h).mp he).1 with hp | ⟨⟨e₀, he₀, hc, ha₀, t, -, -, rfl⟩, -⟩
  · exact ⟨e, mem_of_mem_pruned h hm hp, ((mem_pruned h).mp hp).2, ha, rfl, rfl⟩
  · exact ⟨e₀, he₀, hc, ha₀, rfl, rfl⟩

/-! ### The labels -/

theorem SameContext.relabel (h : SameContext X J) : relabel json J e = relabel json X e := by
  unfold Resolve.relabel
  rw [h.confCase]
  by_cases hw : ConfWhere json X e
  · rw [if_pos hw, if_pos (h.confWhere.mpr hw)]
  · rw [if_neg hw, if_neg (fun hc => hw (h.confWhere.mp hc))]

theorem relabel_relabel : relabel json X (relabel json X e) = relabel json X e := by
  unfold Resolve.relabel
  by_cases hw : ConfWhere json X e
  · rw [if_pos hw]
    exact if_pos hw
  · rw [if_neg hw, if_neg hw]

theorem sameContext_passes (J : Index) : SameContext J (runGlobalEdgePostPasses json J .global) :=
  (sameContext_settled J).trans (sameContext_classify _)

theorem mem_passes (h : SameContext X J) :
    e ∈ (runGlobalEdgePostPasses json J .global).edges ↔
      ∃ z ∈ (settled json J).edges, relabel json X z = e := by
  have hZ : SameContext X (settled json J) := h.trans (sameContext_settled J)
  rw [runGlobalEdgePostPasses_global, mem_classify_global]
  simp only [hZ.relabel]

/-- A key is in the result exactly when it was before the labels. -/
theorem exists_passes_iff (h : SameContext X J) {k : ℕ × ℕ × Relation × String} :
    (∃ e ∈ (runGlobalEdgePostPasses json J .global).edges, e.key = k) ↔
      ∃ z ∈ (settled json J).edges, z.key = k := by
  constructor
  · rintro ⟨e, he, rfl⟩
    obtain ⟨z, hz, rfl⟩ := (mem_passes h).mp he
    exact ⟨z, hz, key_relabel.symm⟩
  · rintro ⟨z, hz, rfl⟩
    exact ⟨relabel json X z, (mem_passes h).mpr ⟨z, hz, rfl⟩, key_relabel⟩

/-! ### Fixed points -/

/-- Where an edge that the passes insert is itself a bare call of an imported name, the bare call to
that import is there already, or the same run binds it. -/
def ChainClosed (json : Json) (X : Index) : Prop :=
  ∀ r, BindOffers json X X.edges r ∨ AttrOffers json X X.edges r → Bindable json X r →
    ∀ u ∈ boundTargets json X r, HasBareCall json X X.edges r.source u

/-- A module-attribute call that binds a contradicted target also keeps an edge that is not. -/
def AttrKept (json : Json) (X : Index) : Prop :=
  ∀ e ∈ X.edges, ¬ Contradicted json X e → IsAttrCall e →
    ∀ t ∈ attrTargetsOf json X e, t ≠ e.source →
      Contradicted json X (.new e.source t .calls e.metadata) →
      ∃ t' ∈ attrTargetsOf json X e, ¬ Contradicted json X (.new e.source t' .calls e.metadata) ∧
        (t' ≠ e.source ∨
          ∃ f ∈ X.edges, f.key = (EdgeRow.new e.source e.source .calls e.metadata).key)

private theorem SameContext.refl (X : Index) : SameContext X X := ⟨rfl, rfl, fun _ _ => Iff.rfl⟩

theorem relabel_of_mem_passes (he : e ∈ (runGlobalEdgePostPasses json X .global).edges) :
    relabel json X e = e := by
  obtain ⟨z, -, rfl⟩ := (mem_passes (.refl X)).mp he
  exact relabel_relabel

/-- The deletes of a run are the last word on its module-attribute calls. -/
theorem not_misbound_of_mem_passes (he : e ∈ (runGlobalEdgePostPasses json X .global).edges) :
    ¬ Misbound json X e := by
  obtain ⟨z, hz, rfl⟩ := (mem_passes (.refl X)).mp he
  have hk : (relabel json X z).key = z.key := key_relabel
  rintro ⟨ha, hne, hnot⟩
  have hza : IsAttrCall z := isAttrCall_of_key hk ha
  rw [attrTargetsOf_of_key hza hk.symm] at hne hnot
  rw [target_eq_of_key hk] at hnot
  exact ((mem_settled (.refl X)).mp hz).2 ⟨hza, hne, hnot⟩

/-- The result of a run is closed under the module-attribute bind. -/
theorem exists_passes_of_attrOffers
    (hr : AttrOffers json X (runGlobalEdgePostPasses json X .global).edges r) :
    ∃ y ∈ (runGlobalEdgePostPasses json X .global).edges, y.key = r.key := by
  obtain ⟨e, he, -, ha, t, ht, hne, rfl⟩ := hr
  obtain ⟨z, hz, rfl⟩ := (mem_passes (.refl X)).mp he
  have hk : (relabel json X z).key = z.key := key_relabel
  obtain ⟨e₀, he₀, hc₀, ha₀, hs₀, hm₀⟩ :=
    exists_origin_of_settled (.refl X) (isAttrCall_of_key hk ha) hz
  have hsrc : e₀.source = (relabel json X z).source := hs₀.trans (source_eq_of_key hk).symm
  have hmeta : e₀.metadata = (relabel json X z).metadata := hm₀.trans (ha.metadata_eq_of_key hk)
  apply (exists_passes_iff (.refl X)).mpr
  apply exists_settled_of_attrOffers (.refl X)
  refine ⟨e₀, he₀, hc₀, ha₀, t, ?_, hsrc ▸ hne, by rw [hsrc, hmeta]⟩
  unfold attrTargetsOf
  rw [hsrc, hmeta]
  exact ht

/-- Where the input is closed, the bind finds every edge it offers on the result there already. -/
theorem exists_passes_of_bindOffers (hchain : ChainClosed json X)
    (hr : BindOffers json X (runGlobalEdgePostPasses json X .global).edges r) :
    ∃ f ∈ (runGlobalEdgePostPasses json X .global).edges, f.key = r.key := by
  obtain ⟨y, hy, hb, u, hu, rfl⟩ := hr
  obtain ⟨z, hz, rfl⟩ := (mem_passes (.refl X)).mp hy
  have hk : (relabel json X z).key = z.key := key_relabel
  have hzb : Bindable json X z := bindable_of_key hk hb
  have hzu : u ∈ boundTargets json X z := boundTargets_of_key hk ▸ hu
  have hbare : HasBareCall json X X.edges z.source u := by
    rcases ((mem_settled (.refl X)).mp hz).1 with hp | ⟨hattr, -⟩
    · rcases ((mem_pruned (.refl X)).mp hp).1 with hx | ⟨hbind, -⟩
      · exact .inr ⟨z, hx, hzb, u, hzu, rfl⟩
      · exact hchain z (.inl hbind) hzb u hzu
    · exact hchain z (.inr hattr) hzb u hzu
  rw [source_eq_of_key hk]
  exact (exists_passes_iff (.refl X)).mpr
    (exists_settled_of_hasBareCall (.refl X) (mem_importTargets_of_boundTargets hzu) hbare)

/-- On the result of a closed input the bind adds nothing. -/
theorem mem_pruned_passes (hchain : ChainClosed json X) :
    e ∈ (pruned json (runGlobalEdgePostPasses json X .global)).edges ↔
      e ∈ (runGlobalEdgePostPasses json X .global).edges ∧ ¬ Contradicted json X e := by
  rw [mem_pruned (sameContext_passes X)]
  refine and_congr_left fun _ => ⟨?_, .inl⟩
  rintro (he | ⟨hoff, hfree⟩)
  · exact he
  · obtain ⟨f, hf, hk⟩ := exists_passes_of_bindOffers hchain hoff
    exact absurd hk (hfree f hf)

/-- A contradicted edge of the result was bound as a module-attribute call; where `AttrKept` holds,
another edge of that call survives the prune and offers it again. -/
theorem attrOffers_of_contradicted (hkept : AttrKept json X)
    (hr : r ∈ (runGlobalEdgePostPasses json X .global).edges) (hc : Contradicted json X r) :
    AttrOffers json X (runGlobalEdgePostPasses json X .global).edges
      (.new r.source r.target .calls r.metadata) := by
  obtain ⟨z, hz, rfl⟩ := (mem_passes (.refl X)).mp hr
  have hk : (relabel json X z).key = z.key := key_relabel
  obtain ⟨e, he, hce, ha, t, ht, hne, rfl⟩ : AttrOffers json X X.edges z := by
    rcases ((mem_settled (.refl X)).mp hz).1 with hp | ⟨hoff, -⟩
    · exact absurd (contradicted_of_key hk hc) ((mem_pruned (.refl X)).mp hp).2
    · exact hoff
  have hnew : ∀ t', IsAttrCall (.new e.source t' .calls e.metadata) := fun _ => ⟨rfl, ha.2⟩
  obtain ⟨t', ht', hnc, hself⟩ := hkept e he hce ha t ht hne (contradicted_of_key hk hc)
  -- The surviving edge of the call, in the result.
  obtain ⟨y, hy, hyk⟩ : ∃ y ∈ (runGlobalEdgePostPasses json X .global).edges,
      y.key = (EdgeRow.new e.source t' .calls e.metadata).key := by
    apply (exists_passes_iff (.refl X)).mpr
    by_cases hs : t' = e.source
    · obtain ⟨f, hf, hfk⟩ := hself.resolve_left (not_not.mpr hs)
      rw [← hs] at hfk
      rw [hs] at hfk hnc ht' ⊢
      refine ⟨f, (mem_settled (.refl X)).mpr ⟨.inl ((mem_pruned (.refl X)).mpr ⟨.inl hf, ?_⟩), ?_⟩,
        hfk⟩
      · exact fun hcf => hnc (contradicted_of_key hfk hcf)
      · rintro ⟨-, -, hnot⟩
        rw [attrTargetsOf_of_key (hnew e.source) hfk.symm, target_eq_of_key hfk] at hnot
        exact hnot ht'
    · exact exists_settled_of_attrOffers (.refl X) ⟨e, he, hce, ha, t', ht', hs, rfl⟩
  have hym : y.metadata = e.metadata := (hnew t').metadata_eq_of_key hyk.symm
  have hys : y.source = e.source := (source_eq_of_key hyk).trans rfl
  refine ⟨y, hy, fun hcy => hnc (contradicted_of_key hyk hcy), isAttrCall_of_key hyk.symm (hnew t'), t,
    ?_, hys ▸ hne, ?_⟩
  · unfold attrTargetsOf
    rw [hys, hym]
    exact ht
  · have hrm : (relabel json X (.new e.source t .calls e.metadata)).metadata = e.metadata :=
      (hnew t).metadata_eq_of_key hk.symm
    rw [hrm, source_eq_of_key hk, target_eq_of_key hk, hys, hym]
    rfl

/-- **The passes settle a closed input in one run.** -/
theorem passes_fixed_of_closed (hchain : ChainClosed json X) (hkept : AttrKept json X) :
    runGlobalEdgePostPasses json (runGlobalEdgePostPasses json X .global) .global =
      runGlobalEdgePostPasses json X .global := by
  have hY : SameContext X (runGlobalEdgePostPasses json X .global) := sameContext_passes X
  apply (sameContext_passes (runGlobalEdgePostPasses json X .global)).eq_of_edges
  ext r
  rw [mem_passes hY]
  constructor
  · rintro ⟨z, hz, rfl⟩
    rcases ((mem_settled hY).mp hz).1 with hp | ⟨hoff, hfree⟩
    · have hzY := ((mem_pruned_passes hchain).mp hp).1
      rw [relabel_of_mem_passes hzY]
      exact hzY
    · -- The edge was there; only the prune can have taken it away, and its label comes back.
      obtain ⟨y, hy, hk⟩ := exists_passes_of_attrOffers hoff
      have hcy : Contradicted json X y := by
        by_contra hcy
        exact hfree y ((mem_pruned_passes hchain).mpr ⟨hy, hcy⟩) hk
      have hza : IsAttrCall z := by
        obtain ⟨e, -, -, ha, t, -, -, rfl⟩ := hoff
        exact ⟨rfl, ha.2⟩
      have hm : y.metadata = z.metadata := hza.metadata_eq_of_key hk.symm
      rw [← relabel_eq_of_metadata hk hm (confWhere_of_contradicted hcy), relabel_of_mem_passes hy]
      exact hy
  · intro hr
    by_cases hc : Contradicted json X r
    · have hoff := attrOffers_of_contradicted hkept hr hc
      have hk : r.key = (EdgeRow.new r.source r.target .calls r.metadata).key := by
        rw [EdgeRow.key, hc.1]
        rfl
      obtain ⟨z, hz, hzk⟩ := exists_settled_of_attrOffers hY hoff
      have hra : IsAttrCall (.new r.source r.target .calls r.metadata) := by
        obtain ⟨e, -, -, ha, t, -, -, he⟩ := hoff
        rw [he]
        exact ⟨rfl, ha.2⟩
      have hm : z.metadata = r.metadata := hra.metadata_eq_of_key hzk.symm
      refine ⟨z, hz, ?_⟩
      rw [← relabel_eq_of_metadata (hk.trans hzk.symm) hm.symm (confWhere_of_contradicted hc),
        relabel_of_mem_passes hr]
    · have hp := (mem_pruned_passes hchain).mpr ⟨hr, hc⟩
      exact ⟨r, (mem_settled hY).mpr ⟨.inl hp, not_misbound_of_mem_passes hr⟩,
        relabel_of_mem_passes hr⟩

/-- An input that the passes settle in one run offers no chain. -/
theorem chainClosed_of_fixed
    (h : runGlobalEdgePostPasses json (runGlobalEdgePostPasses json X .global) .global =
      runGlobalEdgePostPasses json X .global) : ChainClosed json X := by
  have hY : SameContext X (runGlobalEdgePostPasses json X .global) := sameContext_passes X
  intro r hr hb u hu
  -- The inserted edge is in the result.
  obtain ⟨y, hy, hk⟩ : ∃ y ∈ (runGlobalEdgePostPasses json X .global).edges, y.key = r.key := by
    apply (exists_passes_iff (.refl X)).mpr
    rcases hr with ⟨e, he, hbe, t, ht, rfl⟩ | hr
    · exact exists_settled_of_hasBareCall (.refl X) (mem_importTargets_of_boundTargets ht)
        (.inr ⟨e, he, hbe, t, ht, rfl⟩)
    · exact exists_settled_of_attrOffers (.refl X) hr
  -- The second run binds it, and the second run adds nothing.
  have hyu : u ∈ boundTargets json X y := boundTargets_of_key hk ▸ hu
  have hbare : HasBareCall json X (runGlobalEdgePostPasses json X .global).edges r.source u :=
    .inr ⟨y, hy, bindable_of_key hk.symm hb, u, hyu, by rw [source_eq_of_key hk]⟩
  have hkey := (exists_passes_iff hY).mpr
    (exists_settled_of_hasBareCall hY (mem_importTargets_of_boundTargets hu) hbare)
  rw [h] at hkey
  obtain ⟨z, hz, hzk⟩ := (exists_passes_iff (.refl X)).mp hkey
  exact hasBareCall_of_settled (.refl X) hz hzk

/-- An input that the passes settle in one run loses no module-attribute call. -/
theorem attrKept_of_fixed
    (h : runGlobalEdgePostPasses json (runGlobalEdgePostPasses json X .global) .global =
      runGlobalEdgePostPasses json X .global) : AttrKept json X := by
  have hY : SameContext X (runGlobalEdgePostPasses json X .global) := sameContext_passes X
  intro e he hce ha t ht hne hc
  have hnew : ∀ t', IsAttrCall (.new e.source t' .calls e.metadata) := fun _ => ⟨rfl, ha.2⟩
  -- The contradicted edge is in the result, so the second run binds it again.
  have hkey : ∃ y ∈ (runGlobalEdgePostPasses json X .global).edges,
      y.key = (EdgeRow.new e.source t .calls e.metadata).key :=
    (exists_passes_iff (.refl X)).mpr
      (exists_settled_of_attrOffers (.refl X) ⟨e, he, hce, ha, t, ht, hne, rfl⟩)
  rw [← h] at hkey
  obtain ⟨z, hz, hzk⟩ := (exists_passes_iff hY).mp hkey
  have hoff : AttrOffers json X (runGlobalEdgePostPasses json X .global).edges z := by
    rcases ((mem_settled hY).mp hz).1 with hp | ⟨hoff, -⟩
    · exact absurd (contradicted_of_key hzk.symm hc) ((mem_pruned hY).mp hp).2
    · exact hoff
  -- The call it is bound again from is an edge of the first result.
  obtain ⟨y, hy, hcy, hay, t₂, -, -, rfl⟩ := hoff
  have hym : y.metadata = e.metadata := ((hnew t).metadata_eq_of_key hzk.symm).trans rfl
  have hys : y.source = e.source := (source_eq_of_key hzk).trans rfl
  have htargets : attrTargetsOf json X y = attrTargetsOf json X e := by
    unfold attrTargetsOf
    rw [hym, hys]
  have hyt : y.target ∈ attrTargetsOf json X e := by
    by_contra hnot
    rw [← htargets] at hnot ht
    exact not_misbound_of_mem_passes hy ⟨hay, ⟨t, ht⟩, hnot⟩
  have hyk : y.key = (EdgeRow.new e.source y.target .calls e.metadata).key := by
    rw [EdgeRow.key, hay.1, hym, hys]
    rfl
  refine ⟨y.target, hyt, fun hcn => hcy (contradicted_of_key hyk.symm hcn), ?_⟩
  by_cases hself : y.target = e.source
  · right
    -- A bind never offers the caller itself, so that edge was in the input.
    obtain ⟨w, hw, hwk⟩ := (exists_passes_iff (.refl X)).mp ⟨y, hy, rfl⟩
    rw [hyk] at hwk
    obtain ⟨m, hm, -⟩ := (isAttrCall_of_key hwk.symm (hnew y.target)).exists_metadata
    rcases ((mem_settled (.refl X)).mp hw).1 with hp | ⟨⟨e', -, -, -, t', -, hne', rfl⟩, -⟩
    · exact ⟨w, mem_of_mem_pruned (.refl X) hm hp, by rw [hwk, hself]⟩
    · have htw : t' = y.target := (target_eq_of_key hwk).trans rfl
      have hsw : e'.source = e.source := (source_eq_of_key hwk).trans rfl
      exact absurd (htw.trans (hself.trans hsw.symm)) hne'
  · exact .inl hself

/-- **When one run of the global passes is enough.** Running them twice gives what running them once
does, edges, metadata and labels, exactly for the inputs that are closed. -/
theorem runGlobalEdgePostPasses_idempotent_iff (json : Json) (X : Index) :
    runGlobalEdgePostPasses json (runGlobalEdgePostPasses json X .global) .global =
      runGlobalEdgePostPasses json X .global ↔ ChainClosed json X ∧ AttrKept json X :=
  ⟨fun h => ⟨chainClosed_of_fixed h, attrKept_of_fixed h⟩,
    fun h => passes_fixed_of_closed h.1 h.2⟩

/-! ### A renamed import that the passes follow twice -/

/-- `f.js` imports `x` (the `y` of `t.js`) and `y` (of `u.js`), and `s` calls `x`, which was bound to
the `x` of `c.js`. -/
def renamedImport : Index where
  files := [⟨1, "f.js", some "javascript"⟩, ⟨2, "t.js", some "javascript"⟩,
    ⟨3, "u.js", some "javascript"⟩, ⟨4, "c.js", some "javascript"⟩]
  nodes := [⟨1, 1, "module", "<module>", ""⟩, ⟨2, 1, "function", "s", "x()"⟩,
    ⟨3, 2, "function", "y", ""⟩, ⟨4, 3, "function", "y", ""⟩, ⟨5, 4, "function", "x", ""⟩]
  edges := {⟨1, 3, .imports, some "\x7b\"imported\":\"x\"\x7d", .extracted⟩,
    ⟨1, 4, .imports, none, .extracted⟩, ⟨2, 5, .calls, none, .inferred⟩}
  file_ids := by decide
  file_paths := by decide
  node_ids := by decide
  node_file := by decide
  edge_source := by decide
  edge_target := by decide
  edge_key := by decide

/-- `json_extract` on the one metadata text of `renamedImport`. -/
def importedX : Json := fun m k =>
  if m = "\x7b\"imported\":\"x\"\x7d" ∧ k = .imported then some (.text "x") else none

/-- The first run binds the call to the `y` of `t.js`; the second one binds that edge to the `y` of
`u.js`. -/
theorem renamedImport_not_idempotent :
    runGlobalEdgePostPasses importedX (runGlobalEdgePostPasses importedX renamedImport .global)
      .global ≠ runGlobalEdgePostPasses importedX renamedImport .global := by
  intro h
  have hnot : (⟨2, 4, .calls, none, .inferred⟩ : EdgeRow) ∉
      (runGlobalEdgePostPasses importedX renamedImport .global).edges := by decide +kernel
  apply hnot
  rw [← h]
  decide +kernel

end CodeGraph.Pipeline.Resolve
