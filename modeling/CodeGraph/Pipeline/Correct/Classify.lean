import CodeGraph.Pipeline.Resolve

/-!
# Scoped labels are the global ones

`classifyEdgeConfidence` with a scope writes fewer edges than the global pass. What it leaves alone
must carry its label already, although the label of an edge between two untouched files depends on a
count over the whole index.

`nameCount_split` splits that count into the part inside the paths of the run, which the drift set
watches, and the part outside, which the run cannot move (`countOutside_eq`). An edge that no arm
reaches is in both states with the same ends, so `confCase_eq_of_untouched` gives it the same label
in both, and it had that label before.
-/

namespace CodeGraph.Pipeline.Resolve

open CodeGraph.Lib CodeGraph.Storage

variable {json : Json} {before after : Index} {paths : Finset String} {fids : Finset ℕ}
  {e : EdgeRow}

/-- What the labels read of a node: its id, name and type, and its file. -/
structure NodeView where
  id : ℕ
  name : String
  type : String
  file : FileRow
  deriving DecidableEq

def nodeView (I : Index) (n : NodeRow) : NodeView := ⟨n.id, n.name, n.type, I.file n.fileId⟩

/-- The nodes whose file path is outside `paths`, as the labels read them. -/
def viewsOutside (I : Index) (paths : Finset String) : List NodeView :=
  (I.nodes.filter fun n => (I.file n.fileId).path ∉ paths).map (nodeView I)

/-- An edge of the index between two files that are neither in scope nor at a path of the run. -/
def Untouched (I : Index) (paths : Finset String) (fids : Finset ℕ) (e : EdgeRow) : Prop :=
  e ∈ I.edges ∧ ∀ x ∈ [e.source, e.target],
    (I.node x).fileId ∉ fids ∧ (I.fileOf x).path ∉ paths

instance (I : Index) (paths : Finset String) (fids : Finset ℕ) (e : EdgeRow) :
    Decidable (Untouched I paths fids e) :=
  inferInstanceAs (Decidable (_ ∧ ∀ x ∈ [e.source, e.target], _))

/-! ### Counts -/

/-- The count of a name is what the paths of the run hold of it and what is outside them. -/
theorem nameCount_split (I : Index) (paths : Finset String) (nm : String) (lang : Option String) :
    nameCount I nm lang = scopeNameCount I paths nm lang +
      (viewsOutside I paths).countP fun v => v.name = nm ∧ v.file.language = lang := by
  unfold nameCount scopeNameCount viewsOutside
  rw [List.countP_map, List.countP_filter]
  induction I.nodes with
  | nil => rfl
  | cons n l ih =>
    rw [List.countP_cons, List.countP_cons, List.countP_cons, ih]
    by_cases hg : n.name = nm ∧ (I.file n.fileId).language = lang
    · by_cases hp : (I.file n.fileId).path ∈ paths
      · simp [hg, hp, nodeView]
        omega
      · simp [hg, hp, nodeView]
        omega
    · have h1 : ¬ (n.name = nm ∧ (I.file n.fileId).language = lang ∧
          (I.file n.fileId).path ∈ paths) := fun h => hg ⟨h.1, h.2.1⟩
      simp only [Function.comp_apply, nodeView, hg, h1, decide_false, Bool.false_and,
        Bool.false_eq_true, if_false]
      omega

theorem viewsOutside_nodup (I : Index) (paths : Finset String) : (viewsOutside I paths).Nodup := by
  have hids : ((I.nodes.filter fun n => (I.file n.fileId).path ∉ paths).map NodeRow.id).Nodup :=
    I.node_ids.sublist (List.filter_sublist.map NodeRow.id)
  have hmap : (viewsOutside I paths).map NodeView.id =
      (I.nodes.filter fun n => (I.file n.fileId).path ∉ paths).map NodeRow.id := by
    rw [viewsOutside, List.map_map]
    rfl
  rw [← hmap] at hids
  exact hids.of_map NodeView.id

/-- Outside the paths of the run no count moves. -/
theorem countOutside_eq (hnodes : ∀ v, v ∈ viewsOutside before paths ↔ v ∈ viewsOutside after paths)
    (p : NodeView → Bool) :
    (viewsOutside before paths).countP p = (viewsOutside after paths).countP p := by
  have hperm : (viewsOutside before paths).Perm (viewsOutside after paths) :=
    (List.perm_ext_iff_of_nodup (viewsOutside_nodup before paths)
      (viewsOutside_nodup after paths)).mpr hnodes
  exact hperm.countP_eq p

/-- A group with a node at a path of the run has a row in the snapshot. -/
theorem mem_scopeGroups_of_pos {I : Index} {nm : String} {lang : Option String}
    (h : 0 < scopeNameCount I paths nm lang) : (nm, lang) ∈ scopeGroups I paths := by
  obtain ⟨n, hn, hp⟩ := List.countP_pos_iff.mp h
  rw [decide_eq_true_eq] at hp
  obtain ⟨h1, h2, h3⟩ := hp
  refine List.mem_toFinset.mpr (List.mem_map.mpr ⟨n, ?_, ?_⟩)
  · exact List.mem_filter.mpr ⟨hn, by simpa using h3⟩
  · rw [h1, h2]

/-- A name outside the drift set has the same count at the paths of the run, in every language. -/
theorem scopeNameCount_eq_of_not_drift {nm : String}
    (h : nm ∉ scopeNamesFromCountDrift before after paths) (lang : Option String) :
    scopeNameCount before paths nm lang = scopeNameCount after paths nm lang := by
  by_contra hne
  apply h
  refine Finset.mem_image.mpr ⟨(nm, lang), Finset.mem_filter.mpr ⟨?_, hne⟩, rfl⟩
  -- One of two different counts is positive, and its side has the group.
  rw [Finset.mem_union]
  rcases Nat.eq_zero_or_pos (scopeNameCount before paths nm lang) with hz | hpos
  · right
    apply mem_scopeGroups_of_pos
    omega
  · exact .inl (mem_scopeGroups_of_pos hpos)

theorem nameCount_eq_of_not_drift {nm : String}
    (hnodes : ∀ v, v ∈ viewsOutside before paths ↔ v ∈ viewsOutside after paths)
    (h : nm ∉ scopeNamesFromCountDrift before after paths) (lang : Option String) :
    nameCount before nm lang = nameCount after nm lang := by
  rw [nameCount_split before paths, nameCount_split after paths,
    scopeNameCount_eq_of_not_drift h, countOutside_eq hnodes]

/-! ### Untouched ends -/

/-- A node outside the paths of the run looks the same in both states. -/
theorem view_eq_of_outside
    (hnodes : ∀ v, v ∈ viewsOutside before paths ↔ v ∈ viewsOutside after paths) {x : ℕ}
    (hx : x ∈ before.nodes.map NodeRow.id) (hp : (before.fileOf x).path ∉ paths) :
    nodeView before (before.node x) = nodeView after (after.node x) := by
  obtain ⟨hmem, hid⟩ := Index.node_mem hx
  have hv : nodeView before (before.node x) ∈ viewsOutside before paths :=
    List.mem_map.mpr ⟨_, List.mem_filter.mpr ⟨hmem, decide_eq_true hp⟩, rfl⟩
  obtain ⟨n, hn, hview⟩ := List.mem_map.mp ((hnodes _).mp hv)
  have hnid : n.id = x := by
    have h : n.id = (before.node x).id := congrArg NodeView.id hview
    rw [h, hid]
  have hnode : after.node x = n := by
    rw [← hnid]
    exact Index.node_of_mem (List.mem_of_mem_filter hn)
  rw [hnode, hview]

/-- The ends of an edge untouched in both states look the same in both. -/
structure SameEnds (before after : Index) (e : EdgeRow) : Prop where
  source : nodeView before (before.node e.source) = nodeView after (after.node e.source)
  target : nodeView before (before.node e.target) = nodeView after (after.node e.target)

theorem sameEnds_of_untouched
    (hnodes : ∀ v, v ∈ viewsOutside before paths ↔ v ∈ viewsOutside after paths)
    (h : Untouched before paths fids e) : SameEnds before after e :=
  ⟨view_eq_of_outside hnodes (before.edge_source e h.1) (h.2 e.source (by simp)).2,
    view_eq_of_outside hnodes (before.edge_target e h.1) (h.2 e.target (by simp)).2⟩

/-- The id of a node's file, read off its view. -/
theorem fileId_eq_of_view {I : Index} {x : ℕ} (hx : x ∈ I.nodes.map NodeRow.id) :
    (I.node x).fileId = (nodeView I (I.node x)).file.id :=
  (Index.fileOf_mem hx).2.symm

section Ends

variable (hs : SameEnds before after e) (he : e ∈ before.edges) (he' : e ∈ after.edges)

include hs

theorem SameEnds.name : (before.node e.target).name = (after.node e.target).name :=
  congrArg NodeView.name hs.target

theorem SameEnds.type : (before.node e.target).type = (after.node e.target).type :=
  congrArg NodeView.type hs.target

theorem SameEnds.fileOf_target : before.fileOf e.target = after.fileOf e.target :=
  congrArg NodeView.file hs.target

include he he'

theorem SameEnds.source_fileId : (before.node e.source).fileId = (after.node e.source).fileId := by
  rw [fileId_eq_of_view (before.edge_source e he), hs.source,
    ← fileId_eq_of_view (after.edge_source e he')]

theorem SameEnds.target_fileId : (before.node e.target).fileId = (after.node e.target).fileId := by
  rw [fileId_eq_of_view (before.edge_target e he), hs.target,
    ← fileId_eq_of_view (after.edge_target e he')]

end Ends

/-! ### Untouched labels -/

theorem tsTypeCall_iff (hs : SameEnds before after e) : TsTypeCall before e ↔ TsTypeCall after e := by
  unfold TsTypeCall
  rw [hs.type, hs.fileOf_target]

theorem pyBuiltinCall_iff (hs : SameEnds before after e) :
    PyBuiltinCall json before e ↔ PyBuiltinCall json after e := by
  unfold PyBuiltinCall
  rw [hs.name, hs.fileOf_target]

theorem confWhere_iff (hs : SameEnds before after e) (he : e ∈ before.edges) (he' : e ∈ after.edges) :
    ConfWhere json before e ↔ ConfWhere json after e := by
  unfold ConfWhere
  rw [tsTypeCall_iff hs, hs.source_fileId he he', hs.target_fileId he he', hs.fileOf_target]

/-- An import that vouches for an untouched edge in one state joins the same two files, so it is an
untouched edge itself and vouches in the other state. -/
theorem importVouches_mono {I J : Index}
    (hends : ∀ e, Untouched I paths fids e → SameEnds I J e)
    (hedges : ∀ e, Untouched I paths fids e → Untouched J paths fids e)
    (h : Untouched I paths fids e) (hv : ImportVouches json I e) : ImportVouches json J e := by
  obtain ⟨ie, hie, hrel, hfile, htgt, hattr⟩ := hv
  have hpath : (I.fileOf ie.source).path = (I.fileOf e.source).path := by
    unfold Index.fileOf
    rw [hfile]
  have hui : Untouched I paths fids ie := by
    refine ⟨hie, ?_⟩
    intro x hx
    rcases List.mem_cons.mp hx with rfl | hx
    · rw [hfile, hpath]
      exact h.2 e.source (by simp)
    · have hxt : x = e.target := by rw [List.mem_singleton.mp hx, htgt]
      rw [hxt]
      exact h.2 e.target (by simp)
  refine ⟨ie, (hedges ie hui).1, hrel, ?_, htgt, hattr⟩
  rw [← (hends ie hui).source_fileId hie (hedges ie hui).1, hfile,
    (hends e h).source_fileId h.1 (hedges e h).1]

/-- **An untouched edge whose target's name did not drift has one label.** -/
theorem confCase_eq_of_untouched
    (hnodes : ∀ v, v ∈ viewsOutside before paths ↔ v ∈ viewsOutside after paths)
    (hedges : ∀ e, Untouched before paths fids e ↔ Untouched after paths fids e)
    (h : Untouched before paths fids e)
    (hname : (after.node e.target).name ∉ scopeNamesFromCountDrift before after paths) :
    confCase json before e = confCase json after e := by
  have hs := sameEnds_of_untouched hnodes h
  have hnodes' : ∀ v, v ∈ viewsOutside after paths ↔ v ∈ viewsOutside before paths :=
    fun v => (hnodes v).symm
  have hvouch : ImportVouches json before e ↔ ImportVouches json after e := by
    constructor
    · exact importVouches_mono (fun _ => sameEnds_of_untouched hnodes) (fun e => (hedges e).mp) h
    · exact importVouches_mono (fun _ => sameEnds_of_untouched hnodes') (fun e => (hedges e).mpr)
        ((hedges e).mp h)
  have hcount := nameCount_eq_of_not_drift hnodes hname (after.fileOf e.target).language
  simp only [confCase, tsTypeCall_iff hs, pyBuiltinCall_iff hs, hvouch, hs.name, hs.fileOf_target,
    hcount]

/-- **Scoped labelling is global labelling.** The two states agree outside the paths of the run and on
the edges between untouched files, and every edge resolved by name had its label before. -/
theorem classifyEdgeConfidence_files_eq_global (json : Json) (before after : Index)
    (paths : Finset String) (fids : Finset ℕ)
    (hscope : ∀ f ∈ after.files, f.path ∈ paths → f.id ∈ fids)
    (hnodes : ∀ v, v ∈ viewsOutside before paths ↔ v ∈ viewsOutside after paths)
    (hedges : ∀ e, Untouched before paths fids e ↔ Untouched after paths fids e)
    (hbefore : ∀ e ∈ before.edges, ConfWhere json before e → e.confidence = confCase json before e) :
    classifyEdgeConfidence json after (.files fids (scopeNamesFromCountDrift before after paths)) =
      classifyEdgeConfidence json after .global := by
  apply Index.relabelEdges_congr
  intro e he
  by_cases hw : ConfWhere json after e
  swap
  · rw [if_neg (fun h => hw h.2), if_neg (fun h => hw h.2)]
  rw [if_pos (⟨trivial, hw⟩ : PostPassScope.global.Reconsiders after e ∧ _)]
  split_ifs with hr
  · rfl
  -- No arm reaches the edge: it is untouched, and so is its label.
  have hmiss : ¬ ((after.node e.source).fileId ∈ fids ∨ (after.node e.target).fileId ∈ fids ∨
      (after.node e.target).name ∈ scopeNamesFromCountDrift before after paths) :=
    fun h => hr ⟨h, hw⟩
  push Not at hmiss
  obtain ⟨hsrc, htgt, hname⟩ := hmiss
  have houtside : ∀ x ∈ after.nodes.map NodeRow.id, (after.node x).fileId ∉ fids →
      (after.fileOf x).path ∉ paths := by
    intro x hx hf hp
    have hfile := Index.fileOf_mem hx
    exact hf (hfile.2 ▸ hscope _ hfile.1 hp)
  have hafter : Untouched after paths fids e := by
    refine ⟨he, ?_⟩
    intro x hx
    rcases List.mem_cons.mp hx with rfl | hx
    · exact ⟨hsrc, houtside _ (after.edge_source e he) hsrc⟩
    · rw [List.mem_singleton.mp hx]
      exact ⟨htgt, houtside _ (after.edge_target e he) htgt⟩
  have hbef : Untouched before paths fids e := (hedges e).mpr hafter
  have hwb : ConfWhere json before e :=
    (confWhere_iff (sameEnds_of_untouched hnodes hbef) hbef.1 he).mpr hw
  rw [Option.getD_none, Option.getD_some, hbefore e hbef.1 hwb]
  exact confCase_eq_of_untouched hnodes hedges hbef hname

/-! ### A name that moves between languages -/

/-- `a.py` calls `helper`, which `b.py` and `c.py` define. -/
def twoPythonHelpers : Index where
  files := [⟨1, "a.py", some "python"⟩, ⟨2, "b.py", some "python"⟩, ⟨3, "c.py", some "python"⟩]
  nodes := [⟨1, 1, "function", "main", "helper()"⟩, ⟨2, 2, "function", "helper", ""⟩,
    ⟨3, 3, "function", "helper", ""⟩]
  edges := {⟨1, 2, .calls, none, .ambiguous⟩}
  file_ids := by decide
  file_paths := by decide
  node_ids := by decide
  node_file := by decide
  edge_source := by decide
  edge_target := by decide
  edge_key := by decide

/-- The run deleted `c.py` and indexed a `helper` of `d.js`. -/
def helperMovedToJavaScript : Index where
  files := [⟨1, "a.py", some "python"⟩, ⟨2, "b.py", some "python"⟩, ⟨4, "d.js", some "javascript"⟩]
  nodes := [⟨1, 1, "function", "main", "helper()"⟩, ⟨2, 2, "function", "helper", ""⟩,
    ⟨3, 4, "function", "helper", ""⟩]
  edges := {⟨1, 2, .calls, none, .ambiguous⟩}
  file_ids := by decide
  file_paths := by decide
  node_ids := by decide
  node_file := by decide
  edge_source := by decide
  edge_target := by decide
  edge_key := by decide

/-- The scoped pass relabels the call between two untouched files, as the global one does. -/
theorem helper_call_inferred_by_both_scopes :
    classifyEdgeConfidence (fun _ _ => none) helperMovedToJavaScript
        (.files {4} (scopeNamesFromCountDrift twoPythonHelpers helperMovedToJavaScript
          {"c.py", "d.js"})) =
      classifyEdgeConfidence (fun _ _ => none) helperMovedToJavaScript .global ∧
    (⟨1, 2, .calls, none, .inferred⟩ : EdgeRow) ∈
      (classifyEdgeConfidence (fun _ _ => none) helperMovedToJavaScript .global).edges := by
  refine ⟨?_, by decide +kernel⟩
  apply classifyEdgeConfidence_files_eq_global
  · decide +kernel
  · intro v
    have hviews : viewsOutside twoPythonHelpers {"c.py", "d.js"} =
        viewsOutside helperMovedToJavaScript {"c.py", "d.js"} := by decide +kernel
    rw [hviews]
  · intro e
    have h1 : ∀ e ∈ twoPythonHelpers.edges,
        Untouched helperMovedToJavaScript {"c.py", "d.js"} {4} e := by decide +kernel
    have h2 : ∀ e ∈ helperMovedToJavaScript.edges,
        Untouched twoPythonHelpers {"c.py", "d.js"} {4} e := by decide +kernel
    exact ⟨fun h => h1 e h.1, fun h => h2 e h.1⟩
  · decide +kernel

end CodeGraph.Pipeline.Resolve
